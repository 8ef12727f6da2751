import DistrHnsw.Index.Repair
import DistrHnsw.Partition.Rebuilt

/-!
# What a compaction captures and stages

A capture copies the live slots in slot order, so a slot of the copy belongs to the key that owned the
slot it was copied from.  Over the graph that the builder returns for the copied rows, the staged state
satisfies the representation invariant again.
-/

namespace DistrHnsw

namespace Index

variable {α β : Type}

@[simp] theorem enumerate_append (xs : List α) (a : α) :
    enumerate (xs ++ [a]) = enumerate xs ++ [(xs.length, a)] := by
  simp [enumerate, List.zipIdx_append]

namespace Partition

variable {p q : Partition} {input : CompactionInput} {g : Hnsw} {slots : List SlotRecord}

/-! ## The copy -/

/-- The live slots with their records. -/
def liveRecords (slots : List SlotRecord) : List (ℕ × SlotRecord) :=
  (enumerate slots).filter fun slot => !slot.2.tombstone

theorem map_fst_liveRecords : (liveRecords slots).map Prod.fst = liveSlots slots := by
  unfold liveRecords enumerate liveSlots
  rw [List.filter_map, List.map_map]
  rfl

/-- What the copied part of the slots gives. -/
theorem captured_of_foldlM {l : List (ℕ × SlotRecord)}
    {copied out : FlatVectors × List Slot × List SlotRecord}
    (hok : l.foldlM (captureStep p) copied = .ok out) :
    out.1.dims = copied.1.dims ∧
      out.1.rows.map some = copied.1.rows.map some ++
        (l.filter fun slot => !slot.2.tombstone).map (p.index.vectors.rows[·.1]?) ∧
      out.2.1 = copied.2.1 ++ (l.filter fun slot => !slot.2.tombstone).map (UInt32.ofNat ·.1) ∧
      out.2.2 = copied.2.2 ++ (l.filter fun slot => !slot.2.tombstone).map Prod.snd := by
  induction l generalizing copied with
  | nil =>
    cases hok
    simp
  | cons slot l ih =>
    rw [List.foldlM_cons] at hok
    obtain ⟨next, hstep, hok⟩ := bind_eq_ok.1 hok
    obtain ⟨hdims, hrows, hold, hslots⟩ := ih hok
    unfold captureStep at hstep
    by_cases htombstone : slot.2.tombstone = true
    · rw [if_pos htombstone] at hstep
      cases hstep
      have hskip : ((slot :: l).filter fun slot => !slot.2.tombstone) =
          l.filter fun slot => !slot.2.tombstone := by
        rw [List.filter_cons_of_neg (by simp [htombstone])]
      rw [hskip]
      exact ⟨hdims, hrows, hold, hslots⟩
    · rw [if_neg htombstone] at hstep
      cases hrow : p.index.vectors.get slot.1 with
      | none =>
        rw [hrow] at hstep
        cases hstep
      | some row =>
        rw [hrow] at hstep
        obtain ⟨⟨id, vectors⟩, hpush, hstep⟩ := bind_eq_ok.1 hstep
        cases hstep
        obtain ⟨-, hd, hpushed⟩ := FlatVectors.rows_of_push (mapError_eq_ok.1 hpush)
        have hstored : FlatVectors.stored row .l2 = row := rfl
        have hget : p.index.vectors.rows[slot.1]? = some row := hrow
        rw [List.filter_cons_of_pos (by simp [htombstone])]
        refine ⟨hdims.trans hd, ?_, ?_, ?_⟩
        · rw [hrows, hpushed, hstored]
          simp [hget]
        · rw [hold]
          simp
        · rw [hslots]
          simp

/-- What a capture of a state holds. -/
structure Captured (p : Partition) (input : CompactionInput) : Prop where
  rebuildPoint : input.rebuildPoint = p.highWater
  metric : input.metric = p.metric
  params : input.params = p.config.params
  dims : input.vectors.dims = p.config.dims
  rows : input.vectors.rows.map some = (liveSlots p.slots).map (p.index.vectors.rows[·]?)
  oldSlots : input.oldSlots = (liveSlots p.slots).map UInt32.ofNat
  slots : input.slots = (liveRecords p.slots).map Prod.snd
  keyTable : input.keyTable = p.keyTable
  keys : input.keys = p.keys
  idempotency : input.idempotency = p.idempotency.entries

theorem captured_of_captureCompaction (hok : p.captureCompaction = .ok input) : p.Captured input := by
  unfold captureCompaction at hok
  obtain ⟨⟨vectors, oldSlots, slots⟩, hcopy, hok⟩ := bind_eq_ok.1 hok
  cases hok
  obtain ⟨hdims, hrows, hold, hslots⟩ := captured_of_foldlM hcopy
  have hlive : (liveRecords p.slots).map (p.index.vectors.rows[·.1]?) =
      (liveSlots p.slots).map (p.index.vectors.rows[·]?) := by
    rw [← map_fst_liveRecords, List.map_map]
    rfl
  have hold' : (liveRecords p.slots).map (UInt32.ofNat ·.1) = (liveSlots p.slots).map UInt32.ofNat := by
    rw [← map_fst_liveRecords, List.map_map]
    rfl
  refine ⟨rfl, rfl, rfl, hdims, ?_, ?_, ?_, rfl, rfl, rfl⟩
  · rw [← hlive]
    simpa [liveRecords] using hrows
  · rw [← hold']
    simpa [liveRecords] using hold
  · simpa [liveRecords] using hslots

namespace Captured

theorem length_slots (h : p.Captured input) : input.slots.length = (liveSlots p.slots).length := by
  rw [h.slots, List.length_map, ← map_fst_liveRecords, List.length_map]

theorem length_rows (h : p.Captured input) : input.vectors.len = input.slots.length := by
  have hlen := congrArg List.length h.rows
  rw [List.length_map, List.length_map] at hlen
  rw [h.length_slots]
  exact hlen

/-- A slot of the copy. -/
theorem slot_eq (h : p.Captured input) {i : ℕ} {record : SlotRecord} :
    input.slots[i]? = some record ↔ ∃ s : ℕ, (liveSlots p.slots)[i]? = some s ∧
      p.slots[s]? = some record := by
  rw [h.slots, ← map_fst_liveRecords, List.getElem?_map, List.getElem?_map]
  constructor
  · intro hrecord
    obtain ⟨⟨s, record'⟩, hat, rfl⟩ := Option.map_eq_some_iff.1 hrecord
    refine ⟨s, by rw [hat]; rfl, ?_⟩
    exact mem_enumerate.1 (List.mem_of_mem_filter (List.mem_of_getElem? hat))
  · rintro ⟨s, hs, hrecord⟩
    obtain ⟨⟨s', record'⟩, hat, rfl⟩ := Option.map_eq_some_iff.1 hs
    have hrecord' := mem_enumerate.1 (List.mem_of_mem_filter (List.mem_of_getElem? hat))
    cases hrecord.symm.trans hrecord'
    rw [hat]
    rfl

theorem live_of_mem (h : p.Captured input) {record : SlotRecord} (hmem : record ∈ input.slots) :
    record.tombstone = false ∧ record ∈ p.slots := by
  rw [h.slots] at hmem
  obtain ⟨⟨s, record⟩, hlive, rfl⟩ := List.mem_map.1 hmem
  obtain ⟨henumerated, hclear⟩ := List.mem_filter.1 hlive
  exact ⟨by simpa using hclear, List.mem_of_getElem? (mem_enumerate.1 henumerated)⟩

end Captured

/-! ## Renumbering -/

/-- The new slot is the position among the live slots. -/
theorem oldToNew_eq_some {oldSlots : List Slot} (hnodup : oldSlots.Nodup)
    (hlen : oldSlots.length ≤ 2 ^ 32) {old new : Slot} :
    oldToNew oldSlots old = some new ↔ oldSlots[new.toNat]? = some old := by
  induction oldSlots using List.reverseRecOn with
  | nil => simp [oldToNew, enumerate]
  | append_singleton oldSlots last ih =>
    rw [List.nodup_append] at hnodup
    rw [List.length_append, List.length_singleton] at hlen
    have hposition : (UInt32.ofNat oldSlots.length).toNat = oldSlots.length :=
      UInt32.toNat_ofNat_of_lt' (Nat.lt_of_succ_le hlen)
    have hstep : oldToNew (oldSlots ++ [last]) =
        Function.update (oldToNew oldSlots) last (some (.ofNat oldSlots.length)) := by
      simp [oldToNew]
    rw [hstep]
    by_cases heq : old = last
    · subst heq
      rw [Function.update_self, Option.some_inj]
      constructor
      · rintro rfl
        rw [hposition, List.getElem?_concat_length]
      · intro hat
        have hge : oldSlots.length ≤ new.toNat := by
          by_contra hlt
          rw [List.getElem?_append_left (Nat.lt_of_not_le hlt)] at hat
          exact hnodup.2.2 _ (List.mem_of_getElem? hat) _ (List.mem_singleton_self _) rfl
        have hlt := (List.getElem?_eq_some_iff.1 hat).1
        rw [List.length_append, List.length_singleton] at hlt
        rw [show oldSlots.length = new.toNat by omega, UInt32.ofNat_toNat]
    · rw [Function.update_of_ne heq, ih hnodup.1 (Nat.le_of_succ_le hlen), getElem?_append_of_ne heq]

/-- The configuration that a running partition keeps; only the budget may change. -/
structure SameConfig (p q : Partition) : Prop where
  metric : p.metric = q.metric
  config : p.config = { q.config with ramBudgetBytes := p.config.ramBudgetBytes }

theorem SameConfig.refl (p : Partition) : SameConfig p p := ⟨rfl, rfl⟩

theorem SameConfig.trans {r : Partition} (h : SameConfig p q) (h' : SameConfig q r) : SameConfig p r :=
  ⟨h.metric.trans h'.metric, by
    have hq := h'.config
    have hp := h.config
    rw [hq] at hp
    exact hp⟩

theorem SameConfig.params (h : SameConfig p q) : p.config.params = q.config.params := by
  rw [h.config]
  rfl

theorem SameConfig.dims (h : SameConfig p q) : p.config.dims = q.config.dims := by rw [h.config]

/-! ## The staged state -/

section Staged

variable {levels : List UInt8}

/-- The rebuilt state satisfies the invariant. -/
theorem Captured.rep (hc : q.Captured input) (hq : q.Rep) (hp : p.Rep) (hsame : SameConfig p q)
    (hbuilt : BuiltOver ⟨input.metric, input.vectors, input.params⟩ levels g) :
    (p.staged (build input g)).Rep := by
  have hlen : g.len = input.slots.length := by
    rw [← hbuilt.topped.vectors, hbuilt.vectors]
    exact hc.length_rows
  have holdLen : input.oldSlots.length = (liveSlots q.slots).length := by
    rw [hc.oldSlots, List.length_map]
  have hlt {s : ℕ} (hs : s ∈ liveSlots q.slots) : s < 2 ^ 32 := by
    obtain ⟨record, hrecord, -⟩ := mem_liveSlots.1 hs
    exact (List.getElem?_eq_some_iff.1 hrecord).1.trans_le hq.slots_le
  have holdNodup : input.oldSlots.Nodup := by
    rw [hc.oldSlots]
    refine List.Nodup.map_on (fun a ha b hb heq => ?_) nodup_liveSlots
    have := congrArg UInt32.toNat heq
    rwa [UInt32.toNat_ofNat_of_lt' (hlt ha), UInt32.toNat_ofNat_of_lt' (hlt hb)] at this
  have holdLe : input.oldSlots.length ≤ 2 ^ 32 := by
    rw [holdLen, ← hc.length_slots, ← hlen]
    exact hbuilt.topped.len_le
  exact {
    config := hp.config
    metricOf := hp.metricOf
    shaped := hbuilt.topped.toShaped
    params := by
      show g.params = p.config.params
      rw [hbuilt.params, hsame.params]
      exact hc.params
    metric := by
      show g.metric = p.metric
      rw [hbuilt.metric, hsame.metric]
      exact hc.metric
    dims := by
      show g.vectors.dims = p.config.dims
      rw [hbuilt.vectors, hsame.dims]
      exact hc.dims
    slots := hlen.symm
    distinct := by
      show input.keyTable.Nodup
      rw [hc.keyTable]
      exact hq.distinct
    keyTable_le := by
      show input.keyTable.length ≤ 2 ^ 32
      rw [hc.keyTable]
      exact hq.keyTable_le
    keys := fun key i => by
      show (∃ live, (input.keys key).map _ = some (i, live)) ↔ input.keyTable[i.toNat]? = some key
      rw [hc.keys, hc.keyTable, ← hq.keys key i]
      cases q.keys key with
      | none => simp
      | some entry => simp [Prod.ext_iff]
    keyIndex := fun record hmem => by
      show record.keyIndex.toNat < input.keyTable.length
      rw [hc.keyTable]
      exact hq.keyIndex record (hc.live_of_mem hmem).2
    live := by
      have hrenumber : Inverse (oldToNew input.oldSlots) fun new : Slot => input.oldSlots[new.toNat]? :=
        fun old new => oldToNew_eq_some holdNodup holdLe
      have hall := hq.live.trans hrenumber
      have hleft : (fun key => (q.slotForKey key).bind (oldToNew input.oldSlots)) =
          (p.staged (build input g)).slotForKey := by
        funext key
        show _ = ((input.keys key).map _).bind Prod.snd
        rw [slotForKey, hc.keys]
        cases q.keys key <;> rfl
      have hright : (fun new : Slot => (input.oldSlots[new.toNat]?).bind fun old : Slot =>
          q.owner old.toNat) = fun new : Slot => (p.staged (build input g)).owner new.toNat := by
        funext new
        have hslots : (p.staged (build input g)).slots = input.slots := rfl
        have htable : (p.staged (build input g)).keyTable = input.keyTable := rfl
        rw [hc.oldSlots, List.getElem?_map, owner, hslots, htable]
        cases hs : (liveSlots q.slots)[new.toNat]? with
        | none =>
          have hnone : input.slots[new.toNat]? = none := by
            rw [List.getElem?_eq_none_iff] at hs ⊢
            rwa [hc.length_slots]
          rw [hnone]
          rfl
        | some s =>
          have hmem := List.mem_of_getElem? hs
          obtain ⟨record, hrecord, hclear⟩ := mem_liveSlots.1 hmem
          rw [hc.slot_eq.2 ⟨s, hs, hrecord⟩, Option.map_some, Option.bind_some,
            UInt32.toNat_ofNat_of_lt' (hlt hmem)]
          rw [owner, hrecord, hc.keyTable]
      rw [hleft, hright] at hall
      exact hall
    bits := fun s => by
      show testBit g.tombstones s = retired input.slots s
      rw [hbuilt.bits, retired]
      cases hs : input.slots[s]? with
      | none => rfl
      | some record => exact (hc.live_of_mem (List.mem_of_getElem? hs)).1.symm
    count := by
      show g.tombstoneCount = input.slots.countP SlotRecord.tombstone
      rw [hbuilt.tombstoneCount, eq_comm, List.countP_eq_zero]
      intro record hrecord
      rw [(hc.live_of_mem hrecord).1]
      exact Bool.false_ne_true }

theorem Captured.versioned (hc : q.Captured input) (hq : q.Versioned) :
    (p.staged (build input g)).Versioned := by
  have hsub : (input.slots.map SlotRecord.version).Sublist (q.slots.map SlotRecord.version) := by
    have hall : (enumerate q.slots).map Prod.snd = q.slots := by
      simp [enumerate, Function.comp_def, List.zipIdx_map_fst]
    rw [hc.slots]
    conv_rhs => rw [← hall]
    exact (List.filter_sublist.map Prod.snd).map SlotRecord.version
  refine ⟨hq.ordered.sublist hsub, fun version hmem => ?_⟩
  show version ≤ input.rebuildPoint
  rw [hc.rebuildPoint]
  exact hq.bounded version (hsub.subset hmem)

end Staged

end Partition

end Index

end DistrHnsw
