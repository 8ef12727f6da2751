import Mathlib.Data.List.DropRight
import DistrHnsw.Partition.Recovery

/-!
# What the window remembers

Entries are recorded under ids that the window does not hold, so it holds the ids of the last
entries with their sequence numbers, however it came to be: recorded one by one, or rebuilt from
the pairs that a snapshot or a compaction kept.
-/

namespace DistrHnsw

namespace Index

open Wal (Entry)

/-! ## Pairs in a window -/

namespace IdempotencyWindow

variable {w : IdempotencyWindow} {pairs : List (OpId × ℕ)} {id : OpId} {seq : ℕ}

/-- The window holds these pairs, oldest first. -/
structure Remembers (w : IdempotencyWindow) (pairs : List (OpId × ℕ)) : Prop where
  order : w.order = pairs.map Prod.fst
  seqs (id : OpId) (seq : ℕ) : w.seqs id = some seq ↔ (id, seq) ∈ pairs
  distinct : (pairs.map Prod.fst).Nodup

theorem remembers_new (capacity : ℕ) : (new capacity).Remembers [] where
  order := rfl
  seqs _ _ := by simp [new]
  distinct := List.nodup_nil

theorem Remembers.get_eq_none (h : w.Remembers pairs) :
    w.get id = none ↔ id ∉ pairs.map Prod.fst := by
  constructor
  · intro hnone hmem
    obtain ⟨⟨id', seq⟩, hpair, rfl⟩ := List.mem_map.1 hmem
    cases ((h.seqs _ seq).2 hpair).symm.trans hnone
  · intro hnot
    cases hget : w.get id with
    | none => rfl
    | some seq => exact absurd (List.mem_map_of_mem ((h.seqs id seq).1 hget)) hnot

theorem Remembers.entries (h : w.Remembers pairs) : w.entries = pairs := by
  have hmap (pair : OpId × ℕ) (hpair : pair ∈ pairs) :
      ((w.seqs pair.1).map fun seq => (pair.1, seq)) = some pair := by
    rw [(h.seqs pair.1 pair.2).2 hpair]
    rfl
  rw [IdempotencyWindow.entries, h.order, List.filterMap_map]
  exact (List.filterMap_congr hmap).trans List.filterMap_some

/-- Evicting leaves the last pairs. -/
theorem remembers_evict {capacity : ℕ} {seqs : OpId → Option ℕ}
    (h : (⟨capacity, pairs.map Prod.fst, seqs⟩ : IdempotencyWindow).Remembers pairs) :
    (⟨capacity, (evict capacity (pairs.map Prod.fst) seqs).1,
      (evict capacity (pairs.map Prod.fst) seqs).2⟩ : IdempotencyWindow).Remembers
        (pairs.rtake capacity) := by
  induction pairs generalizing seqs with
  | nil => simpa [evict, List.rtake] using h
  | cons pair pairs ih =>
    obtain ⟨hnew, hdistinct⟩ := List.nodup_cons.1 h.distinct
    simp only [List.map_cons, evict]
    split
    · rename_i hfull
      have hdrop : (pair :: pairs).rtake capacity = pairs.rtake capacity := by
        have hlen : (pair :: pairs).length - capacity = pairs.length - capacity + 1 := by
          rw [List.length_cons, List.length_map] at hfull
          rw [List.length_cons]
          omega
        rw [List.rtake, hlen, List.drop_succ_cons, List.rtake]
      rw [hdrop]
      refine ih ⟨rfl, fun id seq => ?_, hdistinct⟩
      show Function.update seqs pair.1 none id = some seq ↔ _
      by_cases hid : id = pair.1
      · subst hid
        rw [Function.update_self]
        constructor
        · intro hsome
          cases hsome
        · intro hmem
          exact absurd (List.mem_map_of_mem hmem) hnew
      · have hold : seqs id = some seq ↔ (id, seq) ∈ pair :: pairs := h.seqs id seq
        rw [Function.update_of_ne hid, hold, List.mem_cons]
        exact or_iff_right fun heq => hid (congrArg Prod.fst heq)
    · rename_i hroom
      have hlen : (pair :: pairs).length - capacity = 0 := by
        rw [List.length_cons, List.length_map] at hroom
        rw [List.length_cons]
        omega
      rw [List.rtake, hlen]
      exact h

/-- A new id is remembered last, and the oldest are forgotten. -/
theorem Remembers.record (h : w.Remembers pairs) (hfresh : w.get id = none) (seq : ℕ) :
    (w.record id seq).Remembers ((pairs ++ [(id, seq)]).rtake w.capacity) := by
  have hnot := h.get_eq_none.1 hfresh
  have horder : (if (w.seqs id).isNone then w.order ++ [id] else w.order) =
      (pairs ++ [(id, seq)]).map Prod.fst := by
    rw [show w.seqs id = none from hfresh, h.order]
    simp
  unfold IdempotencyWindow.record
  rw [horder]
  refine remembers_evict ⟨rfl, fun id' seq' => ?_, ?_⟩
  · show Function.update w.seqs id (some seq) id' = some seq' ↔ _
    rw [List.mem_append, List.mem_singleton]
    by_cases hid : id' = id
    · subst hid
      rw [Function.update_self, Option.some_inj, Prod.mk.injEq]
      constructor
      · rintro rfl
        exact .inr ⟨rfl, rfl⟩
      · rintro (hmem | ⟨-, rfl⟩)
        · exact absurd (List.mem_map_of_mem hmem) hnot
        · rfl
    · rw [Function.update_of_ne hid, h.seqs id' seq']
      exact (or_iff_left fun heq => hid (congrArg Prod.fst heq)).symm
  · rw [List.map_append, List.map_singleton, ← List.concat_eq_append]
    exact h.distinct.concat hnot

@[simp] theorem capacity_record (w : IdempotencyWindow) (id : OpId) (seq : ℕ) :
    (w.record id seq).capacity = w.capacity := rfl

/-- Pairs that fit are all remembered. -/
theorem remembers_ofEntries {capacity : ℕ} (hdistinct : (pairs.map Prod.fst).Nodup)
    (hlen : pairs.length ≤ max capacity 1) :
    (ofEntries capacity pairs).Remembers pairs ∧
      (ofEntries capacity pairs).capacity = max capacity 1 := by
  induction pairs using List.reverseRecOn with
  | nil => exact ⟨remembers_new capacity, rfl⟩
  | append_singleton pairs pair ih =>
    rw [List.map_append, List.nodup_append] at hdistinct
    rw [List.length_append, List.length_singleton] at hlen
    obtain ⟨hremembers, hcapacity⟩ := ih hdistinct.1 (by omega)
    have hstep : ofEntries capacity (pairs ++ [pair]) =
        (ofEntries capacity pairs).record pair.1 pair.2 := by simp [ofEntries]
    have hfresh : (ofEntries capacity pairs).get pair.1 = none :=
      hremembers.get_eq_none.2 fun hmem => hdistinct.2.2 pair.1 hmem pair.1 (by simp) rfl
    have hrecorded := hremembers.record hfresh pair.2
    rw [hstep, capacity_record]
    refine ⟨?_, hcapacity⟩
    have hall : (pairs ++ [pair]).length - (ofEntries capacity pairs).capacity = 0 := by
      rw [hcapacity, List.length_append, List.length_singleton]
      omega
    rwa [List.rtake, hall, List.drop_zero] at hrecorded

end IdempotencyWindow

/-! ## Ids of a log -/

/-- The id is not one of the last `window`. -/
def Fresh (window : ℕ) (es : List Entry) (id : OpId) : Prop := id ∉ (es.rtake window).map Entry.opId

/-- Every entry came with an id that none of the `window` entries before it has. -/
def Spaced (window : ℕ) (es : List Entry) : Prop :=
  ∀ (n : ℕ) (e : Entry), es[n]? = some e → Fresh window (es.take n) e.opId

/-- The ids of the last entries, with their sequence numbers. -/
def recent (window : ℕ) (es : List Entry) : List (OpId × ℕ) :=
  (es.rtake window).map fun e => (e.opId, e.seq)

section Spaced

variable {window n : ℕ} {e : Entry} {es : List Entry} {id : OpId}

theorem map_fst_recent : (recent window es).map Prod.fst = (es.rtake window).map Entry.opId := by
  rw [recent, List.map_map]
  rfl

theorem length_recent : (recent window es).length = min es.length window := by
  rw [recent, List.length_map, List.rtake, List.length_drop]
  omega

theorem spaced_nil : Spaced window [] := fun n e h => by simp at h

theorem spaced_concat : Spaced window (es ++ [e]) ↔ Spaced window es ∧ Fresh window es e.opId := by
  constructor
  · intro h
    refine ⟨fun n e' hat => ?_, ?_⟩
    · have hlt := (List.getElem?_eq_some_iff.1 hat).1
      have hlater := h n e' (by rwa [List.getElem?_append_left hlt])
      rwa [List.take_append_of_le_length hlt.le] at hlater
    · have hlast := h es.length e List.getElem?_concat_length
      rwa [List.take_left] at hlast
  · rintro ⟨h, hfresh⟩ n e' hat
    by_cases hlt : n < es.length
    · rw [List.getElem?_append_left hlt] at hat
      rw [List.take_append_of_le_length hlt.le]
      exact h n e' hat
    · have hlen := (List.getElem?_eq_some_iff.1 hat).1
      rw [List.length_append, List.length_singleton] at hlen
      obtain rfl : n = es.length := by omega
      rw [List.getElem?_concat_length] at hat
      cases hat
      rwa [List.take_left]

theorem Spaced.take (h : Spaced window es) (n : ℕ) : Spaced window (es.take n) := by
  intro m e hat
  rw [List.getElem?_take] at hat
  split at hat
  · rename_i hlt
    rw [List.take_take, Nat.min_eq_left hlt.le]
    exact h m e hat
  · cases hat

/-- The ids of the last entries are distinct. -/
theorem Spaced.nodup (h : Spaced window es) : ((es.rtake window).map Entry.opId).Nodup := by
  induction es using List.reverseRecOn with
  | nil => simp [List.rtake]
  | append_singleton es e ih =>
    obtain ⟨hspaced, hfresh⟩ := spaced_concat.1 h
    cases window with
    | zero => simp [List.rtake]
    | succ k =>
      have hsub : (es.rtake k).map Entry.opId <:+ (es.rtake (k + 1)).map Entry.opId := by
        refine List.IsSuffix.map _ ?_
        rw [List.rtake, List.rtake]
        exact List.drop_suffix_drop_left _ (Nat.sub_le_sub_left (Nat.le_succ k) _)
      rw [List.rtake_concat_succ, List.map_append, List.map_singleton, ← List.concat_eq_append]
      exact ((ih hspaced).sublist hsub.sublist).concat fun hmem => hfresh (hsub.subset hmem)

/-- One more entry is the last of the recent ones. -/
theorem rtake_recent (hwindow : 0 < window) :
    (recent window es ++ [(e.opId, e.seq)]).rtake window = recent window (es ++ [e]) := by
  obtain ⟨k, rfl⟩ := Nat.exists_eq_succ_of_ne_zero hwindow.ne'
  rw [List.rtake_concat_succ, recent, recent, List.rtake_concat_succ, List.map_append,
    List.map_singleton]
  congr 1
  rw [List.rtake, List.length_map, ← List.map_drop, List.rtake, List.drop_drop, List.length_drop,
    List.rtake]
  congr 2
  omega

/-- Entries with one id have `window` entries between them. -/
theorem spaced_iff : Spaced window es ↔ ∀ (i j : ℕ) (a b : Entry), i < j → es[i]? = some a →
    es[j]? = some b → a.opId = b.opId → window < j - i := by
  have hmem {j : ℕ} {id : OpId} (hj : j ≤ es.length) :
      id ∈ ((es.take j).rtake window).map Entry.opId ↔
        ∃ (i : ℕ) (a : Entry), i < j ∧ j - i ≤ window ∧ es[i]? = some a ∧ a.opId = id := by
    rw [List.mem_map]
    constructor
    · rintro ⟨a, ha, rfl⟩
      obtain ⟨m, hm⟩ := List.mem_iff_getElem?.1 ha
      rw [List.rtake, List.getElem?_drop, List.length_take, Nat.min_eq_left hj,
        List.getElem?_take] at hm
      split at hm
      · exact ⟨_, a, ‹_›, by omega, hm, rfl⟩
      · cases hm
    · rintro ⟨i, a, hlt, hle, hat, rfl⟩
      refine ⟨a, List.mem_iff_getElem?.2 ⟨i - (j - window), ?_⟩, rfl⟩
      rw [List.rtake, List.getElem?_drop, List.length_take, Nat.min_eq_left hj,
        List.getElem?_take, if_pos (by omega), ← hat]
      congr 1
      omega
  constructor
  · intro h i j a b hij ha hb heq
    by_contra hclose
    have hj := (List.getElem?_eq_some_iff.1 hb).1.le
    exact h j b hb ((hmem hj).2 ⟨i, a, hij, Nat.le_of_not_lt hclose, ha, heq⟩)
  · intro h j b hb hid
    have hj := (List.getElem?_eq_some_iff.1 hb).1.le
    obtain ⟨i, a, hij, hle, ha, heq⟩ := (hmem hj).1 hid
    exact absurd (h i j a b hij ha hb heq) (Nat.not_lt.2 hle)

end Spaced

end Index

end DistrHnsw
