import Mathlib.Logic.Function.Basic

/-!
# Partial inverses

Two partial functions that undo each other, as an index and the rows it points to.  They stay
inverse when a row is added for a key in place of the one it had, when a key gives up its row, and
when the rows are renumbered.
-/

namespace DistrHnsw

variable {α β γ : Type}

/-- `f` sends a key to a row exactly when `g` sends the row to the key. -/
def Inverse (f : α → Option β) (g : β → Option α) : Prop :=
  ∀ a b, f a = some b ↔ g b = some a

namespace Inverse

variable {f : α → Option β} {g : β → Option α}

/-- A key has one row. -/
theorem row_unique (h : Inverse f g) {a : α} {b b' : β} (hb : g b = some a) (hb' : g b' = some a) :
    b = b' :=
  Option.some.inj (((h a b).2 hb).symm.trans ((h a b').2 hb'))

/-- A key moves to a row that nobody had. -/
theorem replace [DecidableEq α] [DecidableEq β] (h : Inverse f g) {b : β} (a : α)
    (hb : g b = none) : Inverse (Function.update f a (some b)) fun b' =>
      if b' = b then some a else if f a = some b' then none else g b' := by
  intro a' b'
  dsimp only
  by_cases ha : a' = a
  · subst ha
    rw [Function.update_self]
    by_cases hrow : b' = b
    · simp [hrow]
    · rw [if_neg hrow]
      have hne : b ≠ b' := Ne.symm hrow
      split
      · simp [hne]
      · rename_i hold
        simpa [hne] using mt (h a' b').2 hold
  · rw [Function.update_of_ne ha, h a' b']
    by_cases hrow : b' = b
    · subst hrow
      rw [hb, if_pos rfl]
      simp [Ne.symm ha]
    · rw [if_neg hrow]
      split
      · rename_i hold
        rw [(h a b').1 hold]
        simp [Ne.symm ha]
      · exact Iff.rfl

/-- A key gives up its row. -/
theorem erase [DecidableEq α] [DecidableEq β] (h : Inverse f g) (a : α) :
    Inverse (Function.update f a none) fun b' => if f a = some b' then none else g b' := by
  intro a' b'
  dsimp only
  by_cases ha : a' = a
  · subst ha
    rw [Function.update_self]
    split
    · simp
    · rename_i hold
      simpa using mt (h a' b').2 hold
  · rw [Function.update_of_ne ha, h a' b']
    split
    · rename_i hold
      rw [(h a b').1 hold]
      simp [Ne.symm ha]
    · exact Iff.rfl

/-- Rows that are renumbered. -/
theorem trans {f' : β → Option γ} {g' : γ → Option β} (h : Inverse f g) (h' : Inverse f' g') :
    Inverse (fun a => (f a).bind f') fun c => (g' c).bind g := by
  intro a c
  simp only [Option.bind_eq_some_iff, h a, ← h' _ c]
  exact exists_congr fun b => And.comm

end Inverse

end DistrHnsw
