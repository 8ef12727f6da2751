import Mathlib.Data.List.Forall2

/-!
# Two lists item by item

What related lists of one length share: members, images under functions that agree on related items,
and the number of items with a property.
-/

namespace DistrHnsw

namespace Matched

variable {α β γ : Type} {R : α → β → Prop} {xs : List α} {ys : List β}

theorem mem_right (h : List.Forall₂ R xs ys) : ∀ y ∈ ys, ∃ x ∈ xs, R x y := by
  induction h with
  | nil => exact fun _ hy => absurd hy List.not_mem_nil
  | cons hfirst _ ih =>
    intro y hy
    rcases List.mem_cons.1 hy with rfl | hy
    · exact ⟨_, List.mem_cons_self, hfirst⟩
    · obtain ⟨x, hx, hxy⟩ := ih y hy
      exact ⟨x, List.mem_cons_of_mem _ hx, hxy⟩

theorem mem_left (h : List.Forall₂ R xs ys) : ∀ x ∈ xs, ∃ y ∈ ys, R x y :=
  mem_right h.flip

theorem map_eq (h : List.Forall₂ R xs ys) {f : α → γ} {g : β → γ} (hfg : ∀ x y, R x y → f x = g y) :
    xs.map f = ys.map g := by
  induction h with
  | nil => rfl
  | cons hfirst _ ih => rw [List.map_cons, List.map_cons, hfg _ _ hfirst, ih]

theorem length_filter_eq (h : List.Forall₂ R xs ys) {p : α → Bool} {q : β → Bool}
    (hpq : ∀ x y, R x y → p x = q y) : (xs.filter p).length = (ys.filter q).length := by
  induction h with
  | nil => rfl
  | @cons x y xs ys hfirst _ ih =>
    rw [List.filter_cons, List.filter_cons, hpq x y hfirst]
    cases q y with
    | true => exact congrArg (· + 1) ih
    | false => exact ih

/-- Every item has a related one. -/
theorem exists_of_total (h : ∀ x ∈ xs, ∃ y, R x y) : ∃ ys, List.Forall₂ R xs ys := by
  induction xs with
  | nil => exact ⟨[], .nil⟩
  | cons x xs ih =>
    obtain ⟨y, hy⟩ := h x List.mem_cons_self
    obtain ⟨ys, hys⟩ := ih fun x hx => h x (List.mem_cons_of_mem _ hx)
    exact ⟨y :: ys, .cons hy hys⟩

end Matched

end DistrHnsw
