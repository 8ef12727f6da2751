import DistrHnsw.Lib.Heap
import Mathlib.Data.List.Sort

/-!
# The least elements of a list

`Least rank k seen kept` says that `kept` holds the `k` least of the elements seen so far.  An
element is taken in as long as there is room, and afterwards in place of the greatest that is kept.
-/

namespace DistrHnsw

variable {α β : Type} [LinearOrder β] {rank : α → β} {k : ℕ} {seen kept : List α} {x top : α}

/-! ## Sorting -/

/-- The elements in the order of their ranks. -/
def sortBy (rank : α → β) (l : List α) : List α := l.mergeSort fun a b => decide (rank a ≤ rank b)

theorem perm_sortBy (l : List α) : (sortBy rank l).Perm l := List.mergeSort_perm l _

theorem pairwise_sortBy (l : List α) : (sortBy rank l).Pairwise fun a b => rank a ≤ rank b := by
  have h : (sortBy rank l).Pairwise fun a b => decide (rank a ≤ rank b) = true := by
    apply List.pairwise_mergeSort
    · simpa using fun a b c => le_trans
    · simpa using fun a b => le_total (rank a) (rank b)
  simpa using h

/-- A list of elements with distinct ranks can be sorted in one way only. -/
theorem eq_of_pairwise_rank {xs ys : List α} (h : xs.Perm ys)
    (hinj : ∀ a ∈ ys, ∀ b ∈ ys, rank a = rank b → a = b)
    (hxs : xs.Pairwise fun a b => rank a ≤ rank b) (hys : ys.Pairwise fun a b => rank a ≤ rank b) :
    xs = ys := by
  apply List.Perm.eq_of_pairwise _ hxs hys h
  intro a b ha hb hab hba
  exact hinj a (h.mem_iff.1 ha) b hb (le_antisymm hab hba)

theorem sortBy_eq_of_perm {xs ys : List α} (h : xs.Perm ys)
    (hinj : ∀ a ∈ ys, ∀ b ∈ ys, rank a = rank b → a = b) : sortBy rank xs = sortBy rank ys := by
  have hmem (a : α) : a ∈ sortBy rank ys ↔ a ∈ ys := (perm_sortBy ys).mem_iff
  apply eq_of_pairwise_rank _ _ (pairwise_sortBy xs) (pairwise_sortBy ys)
  · exact (perm_sortBy xs).trans (h.trans (perm_sortBy ys).symm)
  · intro a ha b hb
    exact hinj a ((hmem a).1 ha) b ((hmem b).1 hb)

/-- The last of a sorted list is its greatest element. -/
theorem getLast_sortBy {l : List α} {a : α}
    (hinj : ∀ b ∈ l, rank b = rank a → b = a) (ha : a ∈ l) :
    (sortBy rank l).getLast? = some a ↔ ∀ b ∈ l, rank b ≤ rank a := by
  have hmem (b : α) : b ∈ sortBy rank l ↔ b ∈ l := (perm_sortBy l).mem_iff
  have hgreatest (last : α) (hlast : (sortBy rank l).getLast? = some last) :
      last ∈ l ∧ ∀ b ∈ l, rank b ≤ rank last := by
    obtain ⟨front, hfront⟩ := List.getLast?_eq_some_iff.1 hlast
    have hsorted : (sortBy rank l).Pairwise fun a b => rank a ≤ rank b := pairwise_sortBy l
    rw [hfront, List.pairwise_append] at hsorted
    refine ⟨(hmem last).1 (by simp [hfront]), fun b hb => ?_⟩
    have hb := (hmem b).2 hb
    rw [hfront] at hb
    rcases List.mem_append.1 hb with hb | hb
    · exact hsorted.2.2 b hb last List.mem_cons_self
    · rw [List.mem_singleton.1 hb]
  constructor
  · exact fun hlast => (hgreatest a hlast).2
  · intro hle
    cases hlast : (sortBy rank l).getLast? with
    | none =>
      rw [List.getLast?_eq_none_iff] at hlast
      rw [← hmem, hlast] at ha
      cases ha
    | some last =>
      obtain ⟨hlastMem, hlastLe⟩ := hgreatest last hlast
      rw [hinj last hlastMem (le_antisymm (hle last hlastMem) (hlastLe a ha))]

/-! ## Keeping the least -/

/-- The `k` least of the elements seen are kept, all of them while there are no more. -/
def Least (rank : α → β) (k : ℕ) (seen kept : List α) : Prop :=
  ∃ left, (kept ++ left).Perm seen ∧ kept.length = min k seen.length ∧
    ∀ a ∈ kept, ∀ b ∈ left, rank a ≤ rank b

theorem least_nil : Least rank k [] [] := ⟨[], List.Perm.refl _, by simp, by simp⟩

theorem Least.length_eq (h : Least rank k seen kept) : kept.length = min k seen.length := by
  obtain ⟨left, -, hlen, -⟩ := h
  exact hlen

/-- An element that finds room. -/
theorem Least.insert (h : Least rank k seen kept) (hroom : kept.length < k) :
    Least rank k (seen ++ [x]) (x :: kept) := by
  obtain ⟨left, hperm, hlen, -⟩ := h
  have hleft : left = [] := by
    have := hperm.length_eq
    rw [List.length_append] at this
    exact List.eq_nil_of_length_eq_zero (by omega)
  subst hleft
  rw [List.append_nil] at hperm
  refine ⟨[], ?_, ?_, by simp⟩
  · rw [List.append_nil]
    exact (hperm.cons x).trans (List.perm_append_singleton x seen).symm
  · rw [List.length_cons, List.length_append, List.length_singleton]
    omega

/-- An element that is not less than the greatest that is kept. -/
theorem Least.skip (h : Least rank k seen kept) (hfull : k ≤ kept.length)
    (hx : ∀ a ∈ kept, rank a ≤ rank x) : Least rank k (seen ++ [x]) kept := by
  obtain ⟨left, hperm, hlen, hle⟩ := h
  refine ⟨x :: left, ?_, ?_, fun a ha b hb => ?_⟩
  · exact List.perm_middle.trans ((hperm.cons x).trans (List.perm_append_singleton x seen).symm)
  · rw [List.length_append, List.length_singleton]
    omega
  · rcases List.mem_cons.1 hb with rfl | hb
    · exact hx a ha
    · exact hle a ha b hb

/-- An element in place of the greatest that is kept. -/
theorem Least.replace {rest : List α} (h : Least rank k seen kept) (hfull : k ≤ kept.length)
    (hpop : (top :: rest).Perm kept) (htop : ∀ a ∈ kept, rank a ≤ rank top)
    (hx : rank x < rank top) : Least rank k (seen ++ [x]) (x :: rest) := by
  obtain ⟨left, hperm, hlen, hle⟩ := h
  have hrest (a : α) (ha : a ∈ rest) : a ∈ kept := hpop.subset (List.mem_cons_of_mem top ha)
  have hmem : top ∈ kept := hpop.subset List.mem_cons_self
  refine ⟨top :: left, ?_, ?_, fun a ha b hb => ?_⟩
  · have hall : (rest ++ top :: left).Perm seen :=
      List.perm_middle.trans ((hpop.append_right left).trans hperm)
    exact (hall.cons x).trans (List.perm_append_singleton x seen).symm
  · have := hpop.length_eq
    rw [List.length_cons] at this
    rw [List.length_cons, List.length_append, List.length_singleton]
    omega
  · have hbound : ∀ b ∈ top :: left, rank top ≤ rank b := by
      intro b hb
      rcases List.mem_cons.1 hb with rfl | hb
      · exact le_rfl
      · exact hle top hmem b hb
    rcases List.mem_cons.1 ha with rfl | ha
    · exact hx.le.trans (hbound b hb)
    · exact (htop a (hrest a ha)).trans (hbound b hb)

/-- What is kept are the first `k` of the elements in order. -/
theorem Least.sortBy_eq (h : Least rank k seen kept)
    (hinj : ∀ a ∈ seen, ∀ b ∈ seen, rank a = rank b → a = b) :
    sortBy rank kept = (sortBy rank seen).take k := by
  obtain ⟨left, hperm, hlen, hle⟩ := h
  have hsorted : sortBy rank kept ++ sortBy rank left = sortBy rank seen := by
    have hperm' : (sortBy rank kept ++ sortBy rank left).Perm seen :=
      ((perm_sortBy kept).append (perm_sortBy left)).trans hperm
    have hmem (a : α) : a ∈ sortBy rank seen ↔ a ∈ seen := (perm_sortBy seen).mem_iff
    apply eq_of_pairwise_rank (hperm'.trans (perm_sortBy seen).symm) _ _ (pairwise_sortBy seen)
    · intro a ha b hb
      exact hinj a ((hmem a).1 ha) b ((hmem b).1 hb)
    · apply List.pairwise_append.2
      refine ⟨pairwise_sortBy kept, pairwise_sortBy left, fun a ha b hb => ?_⟩
      exact hle a ((perm_sortBy kept).mem_iff.1 ha) b ((perm_sortBy left).mem_iff.1 hb)
  have hlen' : (sortBy rank kept).length = min k seen.length := by
    rw [(perm_sortBy kept).length_eq, hlen]
  rw [← hsorted]
  by_cases hfull : k ≤ seen.length
  · rw [List.take_left' (by omega)]
  · have hleft : sortBy rank left = [] := by
      have := hperm.length_eq
      rw [List.length_append] at this
      apply List.eq_nil_of_length_eq_zero
      rw [(perm_sortBy left).length_eq]
      omega
    rw [hleft, List.append_nil, List.take_of_length_le (by omega)]

/-- The greatest of the elements comes last. -/
theorem getLast?_sortBy {l : List α} (htop : top ∈ l) (hmax : ∀ a ∈ l, rank a ≤ rank top)
    (hinj : ∀ a ∈ l, ∀ b ∈ l, rank a = rank b → a = b) : (sortBy rank l).getLast? = some top := by
  have hmem (a : α) : a ∈ sortBy rank l ↔ a ∈ l := (perm_sortBy l).mem_iff
  obtain ⟨init, last, hsplit⟩ : ∃ init last, sortBy rank l = init ++ [last] := by
    apply (List.eq_nil_or_concat' _).resolve_left
    exact List.ne_nil_of_mem ((hmem top).2 htop)
  have hlast : last ∈ l := (hmem last).1 (by simp [hsplit])
  have hle : rank top ≤ rank last := by
    have hpair : (sortBy rank l).Pairwise fun a b => rank a ≤ rank b := pairwise_sortBy l
    have htop' := (hmem top).2 htop
    rw [hsplit] at hpair htop'
    rcases List.mem_append.1 htop' with hinit | hlast'
    · exact (List.pairwise_append.1 hpair).2.2 top hinit last List.mem_cons_self
    · rw [List.mem_singleton.1 hlast']
  rw [hsplit, List.getLast?_append_of_ne_nil _ (by simp),
    hinj top htop last hlast (le_antisymm hle (hmax last hlast))]
  rfl

/-! ## Heaps -/

/-- What is taken out of a heap is its greatest element. -/
theorem rank_le_of_popMax {exceeds : α → α → Bool} {heap rest : List α}
    (hexceeds : ∀ a b, exceeds a b = true ↔ rank b < rank a)
    (h : popMax exceeds heap = some (top, rest)) : ∀ a ∈ heap, rank a ≤ rank top := by
  induction heap generalizing top rest with
  | nil => cases h
  | cons b heap ih =>
    unfold popMax at h
    split at h
    · rename_i hnone
      cases h
      rw [popMax_eq_none.1 hnone]
      simp
    · rename_i top' others hsome
      split at h
      · rename_i hgt
        cases h
        intro a ha
        rcases List.mem_cons.1 ha with rfl | ha
        · exact le_rfl
        · exact (ih hsome a ha).trans ((hexceeds _ _).1 hgt).le
      · rename_i hgt
        cases h
        intro a ha
        rcases List.mem_cons.1 ha with rfl | ha
        · exact le_of_not_gt fun hlt => hgt ((hexceeds _ _).2 hlt)
        · exact ih hsome a ha

end DistrHnsw
