import Mathlib.Data.List.Perm.Basic

/-!
# Heaps

A heap is the list of its elements in no particular order; `popMax` takes out an element that no
other exceeds.
-/

namespace DistrHnsw

variable {α : Type}

/-- The greatest element (the last of several) and the others. -/
def popMax (exceeds : α → α → Bool) : List α → Option (α × List α)
  | [] => none
  | a :: rest =>
    match popMax exceeds rest with
    | none => some (a, [])
    | some (top, others) => if exceeds a top then some (a, rest) else some (top, a :: others)

/-- The greatest element. -/
def peekMax (exceeds : α → α → Bool) (heap : List α) : Option α :=
  (popMax exceeds heap).map Prod.fst

variable {exceeds : α → α → Bool} {heap rest : List α} {top : α}

theorem popMax_eq_none : popMax exceeds heap = none ↔ heap = [] := by
  cases heap with
  | nil => simp [popMax]
  | cons a heap =>
    unfold popMax
    split
    · simp
    · split <;> simp

/-- Taking out the greatest element only rearranges the heap. -/
theorem perm_of_popMax (h : popMax exceeds heap = some (top, rest)) : (top :: rest).Perm heap := by
  induction heap generalizing top rest with
  | nil => cases h
  | cons a heap ih =>
    unfold popMax at h
    split at h
    · rename_i hnone
      cases h
      rw [popMax_eq_none.1 hnone]
    · rename_i top' others hsome
      split at h
      · cases h
        exact List.Perm.refl _
      · cases h
        exact (List.Perm.swap a top others).trans ((ih hsome).cons a)

/-- A part of a list without repeats, in any order. -/
theorem nodup_of_subperm {xs ys : List α} (h : xs.Subperm ys) (hys : ys.Nodup) : xs.Nodup := by
  obtain ⟨zs, hperm, hsub⟩ := h
  exact hperm.nodup_iff.1 (hys.sublist hsub)

theorem mem_of_popMax (h : popMax exceeds heap = some (top, rest)) {a : α} :
    a ∈ heap ↔ a = top ∨ a ∈ rest := by
  rw [← (perm_of_popMax h).mem_iff, List.mem_cons]

theorem length_of_popMax (h : popMax exceeds heap = some (top, rest)) :
    heap.length = rest.length + 1 := by
  rw [← (perm_of_popMax h).length_eq, List.length_cons]

end DistrHnsw
