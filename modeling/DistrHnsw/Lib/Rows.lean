import Mathlib.Algebra.GroupWithZero.Nat
import Mathlib.Algebra.Ring.Int.Defs
import Mathlib.Data.List.Basic
import Mathlib.Data.List.Dedup

/-!
# Rows of a table by key

The rows with one key, and what statements that append a row or change the rows of one key make of
them.
-/

namespace DistrHnsw

variable {α κ β : Type} [DecidableEq κ]

/-- The rows whose key is `k`. -/
def rowsOf (key : α → κ) (k : κ) (rows : List α) : List α := rows.filter fun row => key row == k

variable {key : α → κ} {k k₀ : κ} {rows rows' : List α}

theorem mem_rowsOf {row : α} : row ∈ rowsOf key k rows ↔ row ∈ rows ∧ key row = k := by
  simp [rowsOf]

theorem rowsOf_eq_nil : rowsOf key k rows = [] ↔ ∀ row ∈ rows, key row ≠ k := by
  simp [rowsOf]

theorem rowsOf_append : rowsOf key k (rows ++ rows') = rowsOf key k rows ++ rowsOf key k rows' :=
  List.filter_append ..

theorem rowsOf_all (h : ∀ row ∈ rows, key row = k) : rowsOf key k rows = rows :=
  List.filter_eq_self.2 fun row hrow => by simp [h row hrow]

theorem rowsOf_append_of_ne (h : ∀ row ∈ rows', key row ≠ k) :
    rowsOf key k (rows ++ rows') = rowsOf key k rows := by
  rw [rowsOf_append, rowsOf_eq_nil.2 h, List.append_nil]

/-- A change that keeps keys is made to the rows of each key. -/
theorem rowsOf_map {f : α → α} (hf : ∀ row, key (f row) = key row) :
    rowsOf key k (rows.map f) = (rowsOf key k rows).map f := by
  unfold rowsOf
  rw [List.filter_map]
  congr 2
  funext row
  simp only [Function.comp, hf]

theorem rowsOf_map_eq {f : α → α} (hf : ∀ row, key (f row) = key row)
    (hsame : ∀ row ∈ rows, key row = k → f row = row) :
    rowsOf key k (rows.map f) = rowsOf key k rows := by
  rw [rowsOf_map hf]
  refine (List.map_congr_left fun row hrow => ?_).trans (List.map_id _)
  exact hsame row (mem_rowsOf.1 hrow).1 (mem_rowsOf.1 hrow).2

/-- Changing the rows of one key. -/
theorem rowsOf_update {f : α → α} (hf : ∀ row, key (f row) = key row) :
    rowsOf key k (rows.map fun row => if key row = k₀ then f row else row) =
      if k = k₀ then (rowsOf key k rows).map f else rowsOf key k rows := by
  have hkeys : ∀ row, key (if key row = k₀ then f row else row) = key row := fun row => by
    split
    · exact hf row
    · rfl
  split
  · next h =>
    rw [rowsOf_map hkeys]
    refine List.map_congr_left fun row hrow => if_pos ?_
    rw [← h]
    exact (mem_rowsOf.1 hrow).2
  · next h => exact rowsOf_map_eq hkeys fun row _ hrow => if_neg (hrow ▸ h)

omit [DecidableEq κ] in
/-- Rows that differ pairwise in a key agree only when they are the same. -/
theorem eq_of_key {key : α → κ} {R : α → α → Prop} {rows : List α}
    (h : rows.Pairwise R) (hR : ∀ a b, R a b → key a ≠ key b) {a b : α} (ha : a ∈ rows)
    (hb : b ∈ rows) (hkey : key a = key b) : a = b := by
  have hnodup : (rows.map key).Nodup := List.pairwise_map.2 (h.imp fun {a b} hab => hR a b hab)
  exact List.inj_on_of_nodup_map hnodup ha hb hkey

/-- The rows of a key that one row has. -/
theorem rowsOf_eq_singleton {row : α}
    (hnodup : (rows.map key).Nodup) (hrow : row ∈ rows) : rowsOf key (key row) rows = [row] := by
  induction rows with
  | nil => exact absurd hrow List.not_mem_nil
  | cons other rows ih =>
    rw [List.map_cons, List.nodup_cons] at hnodup
    unfold rowsOf at ih ⊢
    rcases List.mem_cons.1 hrow with rfl | hmem
    · have hrest : rowsOf key (key row) rows = [] := rowsOf_eq_nil.2 fun b hb hkey =>
        hnodup.1 (hkey ▸ List.mem_map_of_mem hb)
      unfold rowsOf at hrest
      rw [List.filter_cons_of_pos (by simp), hrest]
    · have hne : key other ≠ key row := fun hkey =>
        hnodup.1 (hkey ▸ List.mem_map_of_mem hmem)
      rw [List.filter_cons_of_neg (by simpa using hne)]
      exact ih hnodup.2 hmem

/-- A list of images is the image of a list. -/
theorem exists_map_eq {f : α → β} {P : α → Prop} {l : List β}
    (h : ∀ b ∈ l, ∃ a, f a = b ∧ P a) : ∃ l' : List α, l'.map f = l ∧ ∀ a ∈ l', P a := by
  induction l with
  | nil => exact ⟨[], rfl, fun _ h => absurd h List.not_mem_nil⟩
  | cons b l ih =>
    obtain ⟨a, rfl, ha⟩ := h b List.mem_cons_self
    obtain ⟨l', rfl, hl'⟩ := ih fun b hb => h b (List.mem_cons_of_mem _ hb)
    refine ⟨a :: l', rfl, fun c hc => ?_⟩
    rcases List.mem_cons.1 hc with rfl | hc
    · exact ha
    · exact hl' c hc

/-- Two values at least once a list without repetitions is that long. -/
theorem two_le_dedup_length {l : List κ} (h : 2 ≤ l.dedup.length) : ∃ a ∈ l, ∃ b ∈ l, a ≠ b := by
  match hl : l.dedup, h with
  | a :: b :: rest, _ =>
    have hnodup := List.nodup_dedup l
    rw [hl] at hnodup
    have ha : a ∈ l.dedup := by simp [hl]
    have hb : b ∈ l.dedup := by simp [hl]
    refine ⟨a, List.mem_dedup.1 ha, b, List.mem_dedup.1 hb, fun hab => ?_⟩
    exact (List.nodup_cons.1 hnodup).1 (hab ▸ List.mem_cons_self)

/-- Two different members are counted twice. -/
theorem two_le_dedup_of_ne {l : List κ} {a b : κ} (ha : a ∈ l) (hb : b ∈ l) (hne : a ≠ b) :
    2 ≤ l.dedup.length := by
  have ha := List.mem_dedup.2 ha
  have hb := List.mem_dedup.2 hb
  match hl : l.dedup with
  | [] =>
    rw [hl] at ha
    exact absurd ha List.not_mem_nil
  | [only] =>
    rw [hl, List.mem_singleton] at ha hb
    exact absurd (ha.trans hb.symm) hne
  | first :: second :: rest =>
    rw [List.length_cons, List.length_cons]
    omega

end DistrHnsw
