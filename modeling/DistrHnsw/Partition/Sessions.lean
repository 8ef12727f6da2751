import DistrHnsw.Index.Simple
import DistrHnsw.Partition.Unowned
import Mathlib.Order.Bounds.Basic

/-!
# What an accepted snapshot promises

A partition that was opened is served until it is opened again.  When the slots of the snapshot find
their way back to their keys, every search of the session answers with a key once, and never with a key
that was deleted before.
-/

namespace DistrHnsw

namespace Index

namespace Partition

section

variable [Digests]

/-- The partition is not replaced by another. -/
def Action.Continues : Action → Prop
  | .create .. | .bulkLoad .. | .open _ => False
  | _ => True

/-- What a partition becomes while it is served; its key table keeps within the numbers of its
positions. -/
inductive Session (p : Partition) : Running → Prop
  | opened (fits : p.Fits) : Session p ⟨p, []⟩
  | step {s s' : Running} {a : Action} (before : Session p s) (step : Step (some s) a s')
      (continues : a.Continues) (fits : s'.partition.Fits) : Session p s'

/-- What a session keeps when the versions may be in any order. -/
structure Kept (s : Running) : Prop where
  rep : s.partition.Rep
  counts : s.partition.Counts
  pending (input : CompactionInput) : input ∈ s.captured →
    ∃ q, q.Rep ∧ SameConfig s.partition q ∧ q.Captured input

variable {p p' : Partition} {s s' : Running} {a : Action}

omit [Digests] in
theorem Kept.partition (h : Kept s) (hrep : p.Rep) (hcounts : p.Counts)
    (hsame : SameConfig p s.partition) : Kept { s with partition := p } := by
  refine ⟨hrep, hcounts, fun input hinput => ?_⟩
  obtain ⟨q, hq, hconfig, hcaptured⟩ := h.pending input hinput
  exact ⟨q, hq, hsame.trans hconfig, hcaptured⟩

omit [Digests] in
theorem Kept.mutated (h : Kept s) {opId : OpId} {operation : Wal.Operation}
    (hm : s.partition.Mutated opId operation p) (hfits : p.Fits) :
    Kept { s with partition := p } :=
  h.partition (hm.rep h.rep hfits) hm.counts hm.same

/-- Every step of a session keeps what it keeps. -/
theorem Step.kept (hstep : Step (some s) a s') (hcontinues : a.Continues)
    (hfits : s'.partition.Fits) (h : Kept s) : Kept s' := by
  cases hstep with
  | create ok => exact hcontinues.elim
  | bulkLoad metricOf builds ok => exact hcontinues.elim
  | «open» ok => exact hcontinues.elim
  | @upsert _ wal opId key payload vector =>
    obtain ⟨seq, heq⟩ | ⟨e, heq, -⟩ | ⟨-, -, -, heq⟩ :=
      upsert_cases s.partition wal opId key vector payload
    · rw [heq]
      exact h
    · rw [heq]
      exact h
    · rw [heq] at hfits ⊢
      exact h.mutated (mutate_cases h.counts wal opId _).1 hfits
  | @delete _ wal opId key =>
    obtain heq | heq := delete_cases s.partition wal opId key
    · rw [heq]
      exact h
    · rw [heq] at hfits ⊢
      exact h.mutated (mutate_cases h.counts wal opId _).1 hfits
  | @snapshot _ snap =>
    have hremapped := remapped_of_snapshot s.partition snap
    refine h.partition (hremapped.rep h.rep) (hremapped.counts h.counts) ?_
    obtain ⟨vectors, mark, -, -, heq⟩ := hremapped.state
    rw [heq]
    exact ⟨rfl, rfl⟩
  | truncateWal => exact h
  | @captureCompaction _ input ok =>
    refine ⟨h.rep, h.counts, fun input' hinput => ?_⟩
    rcases List.mem_cons.1 hinput with rfl | hinput
    · exact ⟨s.partition, h.rep, .refl _, captured_of_captureCompaction ok⟩
    · exact h.pending input' hinput
  | @finishCompaction _ d input index captured builds =>
    obtain ⟨q, hq, hsame, hcaptured⟩ := h.pending input captured
    obtain ⟨hrep, hconfig, hwal, hmark, -⟩ := h.rep.finished hq hsame hcaptured builds d hfits
    exact h.partition hrep (h.counts.of_same hwal hmark) hconfig
  | @setRamBudget _ budget =>
    have hstate : s.partition.SameState { s.partition with
        config := { s.partition.config with ramBudgetBytes := budget } } :=
      ⟨⟨rfl, rfl⟩, rfl, rfl, rfl, rfl, rfl⟩
    exact h.partition (hstate.rep h.rep) h.counts hstate.config
  | @setFailpoint _ failpoint =>
    have hstate : s.partition.SameState { s.partition with failpoint } :=
      ⟨⟨rfl, rfl⟩, rfl, rfl, rfl, rfl, rfl⟩
    exact h.partition (hstate.rep h.rep) h.counts hstate.config

theorem Session.kept (h : Session p s) (hp : p.Fits → Kept ⟨p, []⟩) : Kept s := by
  induction h with
  | opened fits => exact hp fits
  | step before step continues fits ih => exact step.kept continues fits ih

/-! ## Keys that are answered -/

/-- Every search answers with a key once, and a key whose deletion is accepted is gone. -/
structure Keyed (p : Partition) : Prop where
  once {query : List F32} {k ef : ℕ} {filter : Option Bitmap} {hits : List SearchHit} :
    p.search query k ef filter = .ok hits → (hits.map SearchHit.key).Nodup
  removed {wal : Device} {opId : OpId} {key : Bytes} {seq : ℕ} :
    (p.delete wal opId key).1 = .ok ⟨seq, false⟩ →
      (p.delete wal opId key).2.1.slotForKey key = none ∧
      ∀ query k ef filter hits, (p.delete wal opId key).2.1.search query k ef filter = .ok hits →
        key ∉ hits.map SearchHit.key

/-- A deletion that is accepted for the first time is logged. -/
theorem delete_accepted {wal : Device} {opId : OpId} {key : Bytes} {seq : ℕ}
    (h : (p.delete wal opId key).1 = .ok ⟨seq, false⟩) :
    p.delete wal opId key = p.mutate wal opId (.delete key) := by
  unfold delete at h ⊢
  split at h
  · cases h
  · rfl

theorem Rep.keyed (h : p.Rep) (hcounts : p.Counts) : p.Keyed where
  once hok := (h.answered_search hok).keys
  removed {wal opId key seq} hok := by
    have heq := delete_accepted hok
    rw [heq] at hok ⊢
    obtain ⟨-, q, happly, hstate⟩ := (mutate_cases hcounts wal opId (.delete key)).2 _ hok
    have hsame := sameState_of_eq hstate
    have happlied := h.applied (by simp only [EntryRoom]) happly
    have hrep := hsame.rep (happlied.rep h (by simp only [EntryRoom]))
    have hgone : (p.mutate wal opId (.delete key)).2.1.slotForKey key = none := by
      rw [slotForKey, hsame.keys]
      cases happlied with
      | upsert hoperation hslots hupserted heq => cases hoperation
      | delete hoperation hdeleted heq =>
        cases hoperation
        rw [heq]
        exact (congrFun hdeleted.slotForKey key).trans (Function.update_self ..)
    refine ⟨hgone, fun query k ef filter hits hsearch hmem => ?_⟩
    obtain ⟨hit, hhit, rfl⟩ := List.mem_map.1 hmem
    have hlive := ((hrep.answered_search hsearch).live hit hhit).1
    cases hgone.symm.trans hlive

/-- What is opened from a snapshot whose slots find their way back. -/
theorem kept_open {d d' : Disk} {config : PartitionConfig} {path : ℕ} {snapshot : LoadedSnapshot}
    {report : RecoveryReport} (hmanifest : d.manifest = some config)
    (hnewest : (newestSnapshot config.id d.snap.files.files.reverse).1 = some (path, snapshot))
    (hexclusive : snapshot.Exclusive) (hok : «open» d = (.ok (p, report), d')) (hfits : p.Fits) :
    Kept ⟨p, []⟩ := by
  obtain ⟨config', state, found, w, hmanifest', hrecover, heq, hcounts⟩ := open_eq_ok hok
  cases hmanifest.symm.trans hmanifest'
  have hstate : state.SameState p := by
    rw [heq]
    exact sameState_of_eq rfl
  have hfits' : state.Fits := by
    rw [Fits, ← hstate.keyTable]
    exact hfits
  have hsnapshot (path' : ℕ) (s : LoadedSnapshot)
      (h : (newestSnapshot config.id d.snap.files.files.reverse).1 = some (path', s)) : s.Exclusive := by
    cases hnewest.symm.trans h
    exact hexclusive
  exact ⟨hstate.rep (recovered_rep hsnapshot hrecover hfits').1, hcounts,
    fun input hinput => absurd hinput List.not_mem_nil⟩

end

end Partition

/-! ## The invariant of a snapshot -/

section

variable [Digests] {bytes : Bytes} {id : Uuid} {s : LoadedSnapshot}

/-- The partition invariant of a loaded snapshot, and what it is for: every session of a partition that
is opened from it answers with a key once and never with a deleted one. -/
structure LoadedSnapshot.Invariant (s : LoadedSnapshot) : Prop where
  distinct : (s.keys.map Prod.fst).Nodup
  owner {n : ℕ} {record : SlotRecord} (i : ℕ) : s.slots[n]? = some record → record.tombstone = false →
    ((∃ key slot, s.keys[i]? = some (key, slot) ∧ slot ≠ noSlot ∧ slot.toNat = n) ↔
      i = record.keyIndex.toNat)
  live {i : ℕ} {key : Bytes} {slot : Slot} : s.keys[i]? = some (key, slot) → slot ≠ noSlot →
    ∃ record, s.slots[slot.toNat]? = some record ∧ record.tombstone = false ∧ record.keyIndex.toNat = i
  clear (n : ℕ) : s.slots.length ≤ n → testBit s.graph.tombstones n = false
  top : IsGreatest (insert 0 {n | ∃ level ∈ s.graph.levels, level.toNat = n}) s.graph.maxLevel.toNat
  simple : s.index.Simple
  served {d d' : Disk} {config : PartitionConfig} {path : ℕ} {p : Partition} {report : RecoveryReport}
    {running : Partition.Running} : d.manifest = some config →
    (newestSnapshot config.id d.snap.files.files.reverse).1 = some (path, s) →
    Partition.open d = (.ok (p, report), d') → p.Session running → running.partition.Keyed

/-- No two keys are equal, as many keys have a slot as slots are live, no bit is set behind the last
slot, the entry point is on the highest level, and no list names its slot or a slot twice. -/
structure SnapshotInput.Closed (input : SnapshotInput) : Prop where
  exclusive : input.Exclusive
  capped (level : UInt8) : level ∈ input.graph.levels → level.toNat ≤ input.graph.maxLevel.toNat
  empty : input.graph.levels = [] → input.graph.maxLevel = 0
  simple : input.index.Simple

omit [Digests] in
/-- The entry point is on the maximum level, so that is the highest when no level is above it. -/
theorem isGreatest_levels_iff (h : s.Formed) :
    IsGreatest (insert 0 {n | ∃ level ∈ s.graph.levels, level.toNat = n}) s.graph.maxLevel.toNat ↔
      (∀ level ∈ s.graph.levels, level.toNat ≤ s.graph.maxLevel.toNat) ∧
        (s.graph.levels = [] → s.graph.maxLevel = 0) := by
  constructor
  · rintro ⟨hmem, hupper⟩
    refine ⟨fun level hlevel => hupper (.inr ⟨level, hlevel, rfl⟩), fun hempty => ?_⟩
    rcases hmem with hzero | ⟨level, hlevel, -⟩
    · exact UInt8.toNat_inj.1 hzero
    · rw [hempty] at hlevel
      cases hlevel
  · rintro ⟨hcapped, hempty⟩
    refine ⟨?_, ?_⟩
    · cases hentry : s.graph.entry with
      | none =>
        have hnone : s.graph.levels = [] :=
          List.length_eq_zero_iff.1 (h.consistent.empty hentry)
        exact .inl (congrArg UInt8.toNat (hempty hnone))
      | some entry =>
        obtain ⟨hlt, hlevel⟩ := h.consistent.entry entry hentry
        have hread := List.getElem?_eq_getElem (show entry.toNat < s.graph.levels.length from hlt)
        refine .inr ⟨_, List.getElem_mem hlt, ?_⟩
        have hlevel : ((s.graph.levels[entry.toNat]?).map UInt8.toNat).getD 0 =
            s.graph.maxLevel.toNat := hlevel
        rw [hread] at hlevel
        exact hlevel
    · rintro n (rfl | ⟨level, hlevel, rfl⟩)
      · exact Nat.zero_le _
      · exact hcapped level hlevel

omit [Digests] in
/-- Every live slot is that of the key it names, and of no other, exactly when as many keys have a slot
as slots are live. -/
theorem owners_iff (h : Consistent s.index s.keys s.slots) :
    (∀ (n : ℕ) (record : SlotRecord) (i : ℕ), s.slots[n]? = some record → record.tombstone = false →
      ((∃ key slot, s.keys[i]? = some (key, slot) ∧ slot ≠ noSlot ∧ slot.toNat = n) ↔
        i = record.keyIndex.toNat)) ↔
      (s.keys.filter fun key => decide (key.2 ≠ noSlot)).length =
        (s.slots.filter fun record => !record.tombstone).length := by
  rw [h.owned_iff]
  constructor
  · intro howner n record hread hclear
    exact (howner n record _ hread hclear).2 rfl
  · intro hback n record i hread hclear
    constructor
    · rintro ⟨key, slot, hi, hne, rfl⟩
      obtain ⟨record', hread', -, howner⟩ := h.live hi hne
      cases hread.symm.trans hread'
      exact howner.symm
    · rintro rfl
      exact hback n record hread hclear

/-- The checks leave exactly this open. -/
theorem invariant_iff_closed (hload : load bytes id = .ok s) : s.Invariant ↔ s.Closed := by
  obtain ⟨hformed, hcountable, -, -⟩ := formed_of_load hload
  have hcs := hformed.consistent
  constructor
  · intro h
    obtain ⟨hcapped, hempty⟩ := (isGreatest_levels_iff hformed).1 h.top
    exact ⟨⟨h.distinct, (owners_iff hcs).1 fun n record i => h.owner i, h.clear⟩, hcapped, hempty,
      h.simple⟩
  · intro h
    refine ⟨h.exclusive.distinct, fun i => (owners_iff hcs).2 h.exclusive.owned _ _ i, hcs.live,
      h.exclusive.clear, (isGreatest_levels_iff hformed).2 ⟨h.capped, h.empty⟩, h.simple, ?_⟩
    intro d d' config path p report running hmanifest hnewest hok hsession
    have hkept := hsession.kept (Partition.kept_open hmanifest hnewest h.exclusive hok)
    exact hkept.rep.keyed hkept.counts

omit [Digests] in
/-- A live slot whose key has no slot is accepted. -/
theorem unowned_without_invariant : letI := Digests.standard
    ¬ ∀ bytes id s, load bytes id = .ok s → s.Invariant := by
  let _ := Digests.standard
  intro hall
  obtain ⟨bytes, hload⟩ := load_unowned
  obtain ⟨key, slot, hkey, hne, -⟩ :=
    (@LoadedSnapshot.Invariant.owner _ _ (hall _ _ _ hload) 0 ⟨0, false, 0, [9]⟩ 0 rfl rfl).2 rfl
  cases hkey
  exact hne rfl

omit [Digests] in
theorem invariant_iff_closed_unowned : letI := Digests.standard
    ∃ bytes s, load bytes unowned.partitionId = .ok s ∧ (s.Invariant ↔ s.Closed) := by
  let _ := Digests.standard
  obtain ⟨bytes, hload⟩ := load_unowned
  exact ⟨bytes, _, hload, invariant_iff_closed hload⟩

end

end Index

end DistrHnsw
