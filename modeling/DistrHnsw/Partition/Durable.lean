import DistrHnsw.Partition.Lives
import DistrHnsw.Partition.Queries

/-!
# What a life keeps

A serving partition holds what its history says, opening its directories gives it back after every stop,
what was answered is never lost or done again, and searches answer with the last writes.
-/

namespace DistrHnsw

namespace Index

open Wal (Entry Operation WalWriter Standing)

/-! ## The last write of a key -/

/-- The value is what the last entry about the key wrote; or there is none, and it was there before. -/
def LastWrite (metric : Metric) (base : Contents) (es : List Entry) (key : Bytes) (value : Value) :
    Prop :=
  (∃ before e after payload vector, es = before ++ e :: after ∧
    e.operation = .upsert key payload vector ∧
    value = ⟨FlatVectors.stored vector metric, payload, e.seq⟩ ∧ ∀ x ∈ after, x.operation.key ≠ key) ∨
  (key, value) ∈ base ∧ ∀ x ∈ es, x.operation.key ≠ key

section LastWrite

variable {metric : Metric} {base : Contents} {es : List Entry} {e : Entry} {key : Bytes} {value : Value}

theorem Contents.mem_without {c : Contents} {removed : Bytes} :
    (key, value) ∈ c.without removed ↔ (key, value) ∈ c ∧ key ≠ removed := by
  simp [Contents.without]

/-- An entry about another key changes nothing. -/
theorem lastWrite_concat_of_ne (hkey : e.operation.key ≠ key) :
    LastWrite metric base (es ++ [e]) key value ↔ LastWrite metric base es key value := by
  constructor
  · rintro (⟨before, x, after, payload, vector, heq, hoperation, hvalue, hlast⟩ | ⟨hbase, hnone⟩)
    · left
      rcases List.eq_nil_or_concat after with rfl | ⟨after, last, rfl⟩
      · obtain ⟨-, hx⟩ := List.append_inj' heq rfl
        cases hx
        rw [hoperation] at hkey
        exact absurd rfl hkey
      · rw [List.concat_eq_append, ← List.cons_append, ← List.append_assoc] at heq
        obtain ⟨rfl, -⟩ := List.append_inj' heq rfl
        exact ⟨before, x, after, payload, vector, rfl, hoperation, hvalue,
          fun y hy => hlast y (by simp [hy])⟩
    · exact .inr ⟨hbase, fun x hx => hnone x (List.mem_append_left _ hx)⟩
  · rintro (⟨before, x, after, payload, vector, rfl, hoperation, hvalue, hlast⟩ | ⟨hbase, hnone⟩)
    · refine .inl ⟨before, x, after ++ [e], payload, vector, by simp, hoperation, hvalue, fun y hy => ?_⟩
      rcases List.mem_append.1 hy with hy | hy
      · exact hlast y hy
      · rw [List.mem_singleton.1 hy]
        exact hkey
    · refine .inr ⟨hbase, fun y hy => ?_⟩
      rcases List.mem_append.1 hy with hy | hy
      · exact hnone y hy
      · rw [List.mem_singleton.1 hy]
        exact hkey

/-- An entry about the key decides. -/
theorem lastWrite_concat_self (hkey : e.operation.key = key) :
    LastWrite metric base (es ++ [e]) key value ↔ ∃ payload vector,
      e.operation = .upsert key payload vector ∧
        value = ⟨FlatVectors.stored vector metric, payload, e.seq⟩ := by
  constructor
  · rintro (⟨before, x, after, payload, vector, heq, hoperation, hvalue, hlast⟩ | ⟨-, hnone⟩)
    · rcases List.eq_nil_or_concat after with rfl | ⟨after, last, rfl⟩
      · obtain ⟨-, hx⟩ := List.append_inj' heq rfl
        cases hx
        exact ⟨payload, vector, hoperation, hvalue⟩
      · rw [List.concat_eq_append, ← List.cons_append, ← List.append_assoc] at heq
        obtain ⟨-, hx⟩ := List.append_inj' heq rfl
        cases hx
        exact absurd hkey (hlast e (by simp))
    · exact absurd hkey (hnone e (by simp))
  · rintro ⟨payload, vector, hoperation, hvalue⟩
    exact .inl ⟨es, e, [], payload, vector, rfl, hoperation, hvalue, fun x hx => by cases hx⟩

/-- Replaying gives every key its last write. -/
theorem mem_replay_iff :
    (key, value) ∈ Contents.replay metric base es ↔ LastWrite metric base es key value := by
  induction es using List.reverseRecOn with
  | nil =>
    constructor
    · intro h
      exact .inr ⟨h, fun x hx => by cases hx⟩
    · rintro (⟨before, x, after, payload, vector, heq, -⟩ | ⟨h, -⟩)
      · exact absurd heq (by simp)
      · exact h
  | append_singleton es e ih =>
    rw [Contents.replay_concat]
    by_cases hkey : e.operation.key = key
    · rw [lastWrite_concat_self hkey, Contents.after]
      cases hoperation : e.operation with
      | upsert removed payload vector =>
        rw [hoperation] at hkey
        cases hkey
        dsimp only
        rw [List.mem_append, Contents.mem_without, List.mem_singleton, Prod.mk.injEq]
        constructor
        · rintro (⟨-, hne⟩ | ⟨-, hvalue⟩)
          · exact absurd rfl hne
          · exact ⟨payload, vector, rfl, hvalue⟩
        · rintro ⟨payload', vector', heq, hvalue⟩
          cases heq
          exact .inr ⟨rfl, hvalue⟩
      | delete removed =>
        rw [hoperation] at hkey
        cases hkey
        dsimp only
        rw [Contents.mem_without]
        constructor
        · rintro ⟨-, hne⟩
          exact absurd rfl hne
        · rintro ⟨payload, vector, heq, -⟩
          cases heq
    · rw [lastWrite_concat_of_ne hkey, ← ih, Contents.after]
      cases hoperation : e.operation with
      | upsert removed payload vector =>
        rw [hoperation] at hkey
        have hne : key ≠ removed := fun heq => hkey heq.symm
        simp [Contents.mem_without, hne]
      | delete removed =>
        rw [hoperation] at hkey
        have hne : key ≠ removed := fun heq => hkey heq.symm
        simp [Contents.mem_without, hne]

end LastWrite

namespace Partition

section Short

/-- The first write to a small partition, as it is logged. -/
def firstWrite : Entry := ⟨1, smallConfig.id, .upsert [1] [9] [F32.one, F32.zero]⟩

theorem clear_firstWrite : letI := Digests.standard
    Wal.Clear firstWrite := by
  let _ := Digests.standard
  rw [Wal.clear_iff]
  decide +kernel

theorem search_firstWrite : ∃ q hits, (empty smallConfig .l2).apply firstWrite = .ok q ∧
    q.search [F32.one, F32.zero] 1 8 (some ⟨[0], List.pairwise_singleton _ _⟩) = .ok hits ∧
      hits.map (fun hit => (hit.key, hit.payload)) = [([1], [9])] := by
  have hcomputed : ((empty smallConfig .l2).apply firstWrite).toOption.bind (fun q =>
      (q.search [F32.one, F32.zero] 1 8 (some ⟨[0], List.pairwise_singleton _ _⟩)).toOption.map
        (·.map fun hit => (hit.key, hit.payload))) = some [([1], [9])] := by decide +kernel
  obtain ⟨q, hq, hcomputed⟩ := Option.bind_eq_some_iff.1 hcomputed
  obtain ⟨hits, hhits, hkeys⟩ := Option.map_eq_some_iff.1 hcomputed
  exact ⟨q, hits, toOption_eq_some.1 hq, toOption_eq_some.1 hhits, hkeys⟩

theorem lives_created : letI := Digests.standard
    ∃ w wal, Lives smallConfig ⟨[], 0⟩
      ⟨wal, Dir.empty, some ⟨{ empty smallConfig .l2 with wal := some w }, []⟩, [], none, [], true⟩ ∧
      w.nextSeq = 1 ∧ w.poisoned = false ∧ w.bytes < Wal.segmentRotateBytes := by
  let _ := Digests.standard
  obtain ⟨w, wal, hcreate, hreliable, hwriter⟩ := @create_newDisk _ smallConfig .l2 rfl rfl
  have hcreate : create (unused [] []) smallConfig = _ := hcreate
  exact ⟨w, wal.files, .created rfl hcreate, hwriter⟩

/-- A partition that was created and written to once. -/
theorem lives_written : letI := Digests.standard
    ∃ l q w, Lives smallConfig ⟨[], 0⟩ l ∧ (empty smallConfig .l2).apply firstWrite = .ok q ∧
      l.process = some ⟨{ q with wal := some w }, []⟩ ∧ l.history = [firstWrite] ∧
      l.answered = [(smallConfig.id, 1)] := by
  let _ := Digests.standard
  obtain ⟨w, wal, hlives, hnext, hclean, hshort⟩ := lives_created
  obtain ⟨q, -, happly, -⟩ := search_firstWrite
  let p : Partition := { empty smallConfig .l2 with wal := some w }
  let log : Device := ⟨wal, [], []⟩
  have hfits : firstWrite.operation.Fits := by decide
  have happlies : p.apply firstWrite = .ok { q with wal := some w } := by
    rw [apply_wal, happly]
    rfl
  have hreliable : log.faults = [] := rfl
  obtain ⟨w', log', hmutate⟩ := mutate_of_reliable hfits happlies hreliable rfl hnext hclean hshort rfl
  have hupsert : p.upsert log smallConfig.id [1] [F32.one, F32.zero] [9] =
      (.ok ⟨1, false⟩, { q with wal := some w' }, log') := by
    rw [upsert_accepted (upsert_of_reliable (upsertable_small w) hreliable rfl hnext hclean hshort rfl)]
    exact hmutate
  have hmark : q.highWater = 1 := by rw [eq_of_apply happly]; rfl
  have hstep := @Step.upsert _ ⟨p, []⟩ log smallConfig.id [1] [9] [F32.one, F32.zero]
  dsimp only at hstep
  rw [hupsert] at hstep
  have hfits : (Action.upsert log smallConfig.id [1] [F32.one, F32.zero] [9]).Fits ⟨[], 0⟩ [] p := by
    refine ⟨show 1 < 2 ^ 32 by decide, fun e he => ?_, fun _ _ _ _ _ heq hfinite => ?_⟩
    · cases he
      exact clear_firstWrite
    · exact hfinite
  have hserves : (Action.upsert log smallConfig.id [1] [F32.one, F32.zero] [9]).Serves := trivial
  have hleaves : (Action.upsert log smallConfig.id [1] [F32.one, F32.zero] [9]).Leaves (some ⟨p, []⟩)
      (Life.disk ⟨wal, Dir.empty, some ⟨p, []⟩, [], none, [], true⟩ smallConfig [] []) _ :=
    ⟨_, rfl, rfl, rfl⟩
  have hcalled := Lives.called hlives rfl hserves hfits hstep hleaves
  have hgone : ¬ q.highWater = (0 : ℕ) := by
    rw [hmark]
    decide
  refine ⟨_, q, w', hcalled, happly, rfl, if_neg hgone, ?_⟩
  show [] ++ (answerOf smallConfig.id
    (p.upsert log smallConfig.id [1] [F32.one, F32.zero] [9]).1).toList = _
  rw [hupsert]
  rfl

end Short

section Durable

variable [Digests] {config : PartitionConfig} {o : Origin} {l : Life} {s : Running} {p : Partition}

/-- What a partition keeps at every point of its life. -/
structure Durable (config : PartitionConfig) (o : Origin) (l : Life) : Prop where
  numbered : Wal.Contiguous 1 l.history
  serves (s : Running) : l.process = some s → s.partition.Refines o l.history
  acknowledged (pair : OpId × ℕ) : pair ∈ l.answered → ∃ e ∈ l.history, (e.opId, e.seq) = pair
  reopens : ∃ p report d', «open» (l.disk config [] []) = (.ok (p, report), d') ∧
    (p.Refines o l.history ∨ ∃ e, l.pending = some e ∧ p.Refines o (l.history ++ [e]))

theorem Endures.lawful (h : Endures config o l) : Ledger config l.history := by
  obtain ⟨ledger, start, hheld, hgrown, -⟩ := h.held
  obtain ⟨more, rfl⟩ := hgrown.front
  exact hheld.lawful.of_append

/-- An operation that was answered is answered again, and does nothing. -/
def Repeats (p : Partition) (opId : OpId) (seq : ℕ) : Prop :=
  (∀ wal key vector payload, p.upsert wal opId key vector payload = (.ok ⟨seq, true⟩, p, wal)) ∧
    ∀ wal key, p.delete wal opId key = (.ok ⟨seq, true⟩, p, wal)

theorem repeats_of_get {opId : OpId} {seq : ℕ} (h : p.idempotency.get opId = some seq) :
    p.Repeats opId seq := by
  constructor
  · intro wal key vector payload
    unfold upsert
    rw [h]
  · intro wal key
    unfold delete
    rw [h]

omit [Digests] in
/-- The window has the entries behind the mark that it reaches back to. -/
theorem Follows.get_of_recent {history : List Entry} {e : Entry} (h : p.Follows o history)
    (hl : Ledger config history) (hconfig : p.Configured config) (he : e ∈ history)
    (hrecent : history.length < e.seq + config.idempotencyWindow) :
    p.idempotency.get e.opId = some e.seq := by
  refine (h.window.seqs e.opId e.seq).2 (List.mem_map.2 ⟨e, ?_, rfl⟩)
  have hat := Ledger.at_seq hl he
  have hpos : 0 < e.seq := by
    obtain ⟨i, hi, rfl⟩ := List.mem_iff_getElem.1 he
    rw [hl.seq_eq (List.getElem?_eq_getElem hi)]
    exact Nat.succ_pos i
  rw [hconfig.window, List.rtake]
  refine List.mem_of_getElem? (i := e.seq - 1 - (history.length - config.idempotencyWindow)) ?_
  rw [List.getElem?_drop, ← hat]
  congr 1
  omega

omit [Digests] in
/-- A hit is in the contents, with its payload and the distance of its row. -/
theorem Answered.contents {query : List F32} {k : ℕ} {filter : Option Bitmap} {hits : List SearchHit}
    (h : p.Answered query k filter hits) (hrep : p.Rep) {hit : SearchHit} (hmem : hit ∈ hits) :
    ∃ value, (hit.key, value) ∈ p.contents ∧ value.payload = hit.payload ∧
      hit.distance = distance p.metric (FlatVectors.stored query p.metric) value.row := by
  obtain ⟨hslot, -, record, row, hrecord, -, hpayload, hrow, hdistance⟩ := h.live hit hmem
  have howner : p.owner hit.slot.toNat = some hit.key := (hrep.live hit.key hit.slot).1 hslot
  refine ⟨⟨row, record.payload, record.version⟩, ?_, hpayload, hdistance⟩
  refine List.mem_filterMap.2 ⟨hit.slot.toNat, ?_, ?_⟩
  · exact List.mem_range.2 (List.getElem?_eq_some_iff.1 hrecord).1
  · rw [entryAt, howner, hrecord, hrow]
    rfl

/-- On a reliable device an entry that fits is logged and applied. -/
theorem Serving.takes {history ledger : List Entry} {start : ℕ} {log : Device} {snap : Dir Bytes}
    {w : WalWriter} {opId : OpId} {operation : Operation} {q : Partition}
    (h : Serving config o history ledger start log.files snap s) (hpos : 0 < start)
    (hstart : start ≤ history.length + 1) (hreliable : log.faults = []) (hwal : s.partition.wal = some w)
    (hlive : w.poisoned = false) (hfailpoint : s.partition.failpoint = none) (hfits : operation.Fits)
    (happly : s.partition.apply ⟨s.partition.highWater + 1, opId, operation⟩ = .ok q) :
    ∃ w' log', s.partition.mutate log opId operation =
      (.ok ⟨s.partition.highWater + 1, false⟩, { q with wal := some w' }, log') := by
  have hstanding : Standing config.id start (history.drop (start - 1)) w log.files := by
    obtain ⟨w', hwal', -, hstopped | ⟨-, hstanding⟩⟩ := h.writer
    · cases hwal.symm.trans hwal'
      rw [hlive] at hstopped
      cases hstopped
    · cases hwal.symm.trans hwal'
      exact hstanding
  have hnext : w.nextSeq = s.partition.highWater + 1 := by
    rw [hstanding.next, List.length_drop, h.follows.highWater]
    omega
  obtain ⟨w', log', happend, hreliable', hlive'⟩ := hstanding.appends hreliable opId hfits
  have hsync : w'.sync log' = (.ok (), w', log') := by
    unfold WalWriter.sync
    rw [hlive', Device.touch_of_reliable hreliable']
    rfl
  have happly' : ({ s.partition with wal := some w' } : Partition).apply
      ⟨s.partition.highWater + 1, opId, operation⟩ = .ok { q with wal := some w' } := by
    rw [apply_wal, happly]
    rfl
  have hfailpoint' : q.failpoint = none := (steady_of_apply happly).failpoint.trans hfailpoint
  rw [hnext] at happend
  simp only [hfailpoint] at happly'
  refine ⟨w', log', ?_⟩
  simp only [Partition.mutate, hwal, happend, syncAndApply, hfailpoint, reduceCtorEq, if_false, hsync,
    happly', hfailpoint']

/-- A mutation that is not refused fits. -/
theorem fits_of_mutate {log : Device} {opId : OpId} {operation : Operation} {applied : Applied}
    (hok : (p.mutate log opId operation).1 = .ok applied) : operation.Fits := by
  unfold Partition.mutate at hok
  split at hok
  · cases hok
  rename_i w hwal
  by_contra hnot
  have hrefused : ∃ e, (w.appendUnsynced log opId operation).1 = .error e := by
    unfold WalWriter.appendUnsynced
    split
    · exact ⟨_, rfl⟩
    · cases hencode : Entry.encode ⟨w.nextSeq, opId, operation⟩ with
      | error e => exact ⟨e, rfl⟩
      | ok frame => exact absurd ((Entry.encode_ok_iff _ _).1 hencode).1 hnot
  obtain ⟨e, hrefused⟩ := hrefused
  generalize w.appendUnsynced log opId operation = appended at hok hrefused
  obtain ⟨result, w', log'⟩ := appended
  cases hrefused
  cases hok

section Reclaim

omit [Digests]

variable {p' : Partition} {e : Entry}

theorem length_tombstone {index out : Hnsw} {slots marked : List SlotRecord} {slot : Slot}
    (hok : tombstone index slots slot = .ok (out, marked)) : marked.length = slots.length := by
  unfold tombstone at hok
  obtain ⟨masked, -, hok⟩ := bind_eq_ok.1 hok
  obtain ⟨record, -, hok⟩ := bind_eq_ok.1 hok
  cases hok
  rw [List.length_set]

/-- An entry fills at most one slot. -/
theorem length_of_apply (hok : p.apply e = .ok p') : p'.slots.length ≤ p.slots.length + 1 := by
  unfold apply at hok
  cases hoperation : e.operation with
  | upsert key payload vector =>
    rw [hoperation] at hok
    obtain ⟨q, hq, hok⟩ := bind_eq_ok.1 hok
    cases hok
    show q.slots.length ≤ p.slots.length + 1
    obtain ⟨-, hq⟩ := guard_eq_ok.1 hq
    obtain ⟨inserted, -, hq⟩ := bind_eq_ok.1 hq
    cases hprevious : p.slotForKey key with
    | none =>
      rw [hprevious] at hq
      cases hq
      exact (List.length_append).le
    | some previous =>
      rw [hprevious] at hq
      obtain ⟨out, hslots, hq⟩ := bind_eq_ok.1 hq
      cases hq
      dsimp only
      rw [List.length_append, length_tombstone (mapError_eq_ok.1 hslots)]
      exact le_rfl
  | delete key =>
    rw [hoperation] at hok
    obtain ⟨q, hq, hok⟩ := bind_eq_ok.1 hok
    cases hok
    show q.slots.length ≤ p.slots.length + 1
    unfold applyDelete at hq
    split at hq
    · obtain ⟨out, hslots, hq⟩ := bind_eq_ok.1 hq
      cases hq
      exact (length_tombstone (mapError_eq_ok.1 hslots)).le.trans (Nat.le_succ _)
    · cases hq
      exact Nat.le_succ _

theorem length_of_advances (h : Relation.ReflTransGen Advances p p') :
    p'.slots.length + p.highWater ≤ p.slots.length + p'.highWater := by
  induction h with
  | refl => exact le_rfl
  | tail hrun hstep ih =>
    obtain ⟨e, hseq, hok⟩ := hstep
    have hlength := length_of_apply hok
    have hmark : _ = e.seq := congrArg Partition.highWater (eq_of_apply hok)
    omega

end Reclaim

/-- A compaction that fails changes nothing in memory; one that returns keeps the records that were
alive when it was captured, and at most one slot for each entry since. -/
theorem finishCompaction_result (p : Partition) (d : Disk) (plan : CompactionPlan) :
    (p.finishCompaction d plan).2.1.config = p.config ∧
      (∀ e, (p.finishCompaction d plan).1 = .error e → (p.finishCompaction d plan).2.1 = p) ∧
      ∀ report, (p.finishCompaction d plan).1 = .ok report →
        (p.finishCompaction d plan).2.1.slots.length + plan.rebuildPoint ≤
          plan.slots.length + p.highWater := by
  unfold finishCompaction
  dsimp only
  split
  · exact ⟨rfl, fun _ _ => rfl, fun _ hok => by cases hok⟩
  · rename_i caught replayed hcatch
    have hlength := length_of_advances (advances_of_catchUp hcatch)
    split
    · exact ⟨rfl, fun _ _ => rfl, fun _ hok => by cases hok⟩
    · rename_i hmark
      have hremapped := (remapped_of_snapshot caught d.snap).state
      generalize caught.snapshot d.snap = snapshotted at hremapped
      obtain ⟨result, rebuilt, snap⟩ := snapshotted
      cases result with
      | error e => exact ⟨rfl, fun _ _ => rfl, fun _ hok => by cases hok⟩
      | ok path =>
        dsimp only
        split
        · exact ⟨rfl, fun _ _ => rfl, fun _ hok => by cases hok⟩
        · refine ⟨rfl, (fun _ herror => by cases herror), fun _ _ => ?_⟩
          obtain ⟨vectors, mark, -, -, heq⟩ := hremapped
          have hslots : rebuilt.slots = caught.slots := by
            rw [show rebuilt = _ from heq]
          show rebuilt.slots.length + plan.rebuildPoint ≤ plan.slots.length + p.highWater
          rw [hslots, ← not_not.1 hmark]
          exact hlength

end Durable

end Partition

end Index

end DistrHnsw
