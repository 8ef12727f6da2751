import DistrHnsw.Lib.Bytes
import Mathlib.Tactic.Ring

/-!
# Blocks of a flat buffer

Lists of bounded length kept side by side in one buffer: block `b` of width `w` starts at `b * w`.
`overwrite` copies values over a range; reading a block back gives them, and the other blocks stay.
-/

namespace DistrHnsw

variable {α : Type}

/-- Copy `ys` over the range that starts at `start`, when it lies inside. -/
def overwrite (xs : List α) (start : ℕ) (ys : List α) : Option (List α) :=
  if start + ys.length ≤ xs.length then some (xs.take start ++ ys ++ xs.drop (start + ys.length))
  else none

theorem overwrite_of_le {xs ys : List α} {start : ℕ} (h : start + ys.length ≤ xs.length) :
    overwrite xs start ys = some (xs.take start ++ ys ++ xs.drop (start + ys.length)) := if_pos h

variable {xs ys xs' : List α} {start : ℕ}

theorem length_of_overwrite (h : overwrite xs start ys = some xs') : xs'.length = xs.length := by
  unfold overwrite at h
  split at h
  · cases h
    simp only [List.length_append, List.length_take, List.length_drop]
    omega
  · cases h

/-- What stands at a position after the copy. -/
theorem getElem?_of_overwrite (h : overwrite xs start ys = some xs') (i : ℕ) :
    xs'[i]? = if start ≤ i ∧ i < start + ys.length then ys[i - start]? else xs[i]? := by
  unfold overwrite at h
  split at h
  · rename_i hle
    cases h
    have hstart : (xs.take start).length = start := by
      rw [List.length_take]
      omega
    split
    · rw [List.getElem?_append_left (by rw [List.length_append]; omega),
        List.getElem?_append_right (by omega), hstart]
    · rename_i hout
      rw [not_and, Nat.not_lt] at hout
      by_cases hlt : i < start
      · rw [List.getElem?_append_left (by rw [List.length_append]; omega),
          List.getElem?_append_left (by omega), List.getElem?_take_of_lt hlt]
      · have hge := hout (Nat.le_of_not_lt hlt)
        rw [List.getElem?_append_right (by rw [List.length_append]; omega), List.length_append,
          hstart, List.getElem?_drop, Nat.add_sub_cancel' hge]
  · cases h

/-- A range read after the copy, when it lies in the copied one. -/
theorem slice_overwrite_inside (h : overwrite xs start ys = some xs') {len : ℕ}
    (hlen : len ≤ ys.length) : slice xs' start len = some (ys.take len) := by
  have hle : start + ys.length ≤ xs.length := by
    unfold overwrite at h
    split at h
    · assumption
    · cases h
  rw [slice_of_le (by rw [length_of_overwrite h]; omega)]
  congr 1
  apply List.ext_getElem?
  intro i
  rw [List.getElem?_take, List.getElem?_take]
  split
  · rw [List.getElem?_drop, getElem?_of_overwrite h, if_pos (by omega), Nat.add_sub_cancel_left]
  · rfl

/-- A range read after the copy, when it does not meet the copied one. -/
theorem slice_overwrite_outside (h : overwrite xs start ys = some xs') {at_ len : ℕ}
    (hout : at_ + len ≤ start ∨ start + ys.length ≤ at_) : slice xs' at_ len = slice xs at_ len := by
  have hlen := length_of_overwrite h
  unfold slice
  rw [hlen]
  split
  · congr 1
    apply List.ext_getElem?
    intro i
    rw [List.getElem?_take, List.getElem?_take]
    split
    · rw [List.getElem?_drop, List.getElem?_drop, getElem?_of_overwrite h, if_neg (by omega)]
    · rfl
  · rfl

/-- A range that ends with the copied values. -/
theorem slice_overwrite_extend {offset : ℕ} (h : overwrite xs (start + offset) ys = some xs') :
    slice xs' start (offset + ys.length) = some ((xs.drop start).take offset ++ ys) := by
  have hlen := length_of_overwrite h
  have hle : start + offset + ys.length ≤ xs.length := by
    unfold overwrite at h
    split at h
    · assumption
    · cases h
  have hfront : ((xs.drop start).take offset).length = offset := by
    rw [List.length_take, List.length_drop]
    omega
  rw [slice_of_le (by omega)]
  congr 1
  apply List.ext_getElem?
  intro i
  rw [List.getElem?_take]
  by_cases hi : i < offset
  · rw [if_pos (by omega), List.getElem?_drop, getElem?_of_overwrite h, if_neg (by omega),
      List.getElem?_append_left (by omega), List.getElem?_take_of_lt hi, List.getElem?_drop]
  · rw [List.getElem?_append_right (by omega), hfront]
    split
    · rw [List.getElem?_drop, getElem?_of_overwrite h, if_pos (by omega)]
      congr 1
      omega
    · rw [List.getElem?_eq_none (by omega)]

/-- A range read after something is added behind the buffer. -/
theorem slice_append_left {len : ℕ} (h : start + len ≤ xs.length) (ys : List α) :
    slice (xs ++ ys) start len = slice xs start len := by
  rw [slice_of_le h, slice_of_le (by rw [List.length_append]; omega)]
  congr 1
  rw [List.drop_append, List.take_append_of_le_length]
  rw [List.length_drop]
  omega

/-! ## Blocks -/

/-- A block lies inside a buffer of `n` blocks. -/
theorem block_le {b n w : ℕ} (h : b < n) : b * w + w ≤ n * w := by
  calc b * w + w = (b + 1) * w := by ring
    _ ≤ n * w := Nat.mul_le_mul_right w h

/-- Different blocks do not meet. -/
theorem block_disjoint {b b' w k k' : ℕ} (h : b ≠ b') (hk : k ≤ w) (hk' : k' ≤ w) :
    b * w + k ≤ b' * w ∨ b' * w + k' ≤ b * w := by
  rcases Nat.lt_or_gt_of_ne h with hlt | hgt
  · have := block_le (w := w) hlt
    omega
  · have := block_le (w := w) hgt
    omega

/-- Reading one of equally long blocks. -/
theorem slice_flatMap {β : Type} {write : β → List α} {w : ℕ} {l : List β}
    (h : ∀ b ∈ l, (write b).length = w) (front back : List α) {i : ℕ} (hi : i < l.length) :
    slice (front ++ l.flatMap write ++ back) (front.length + i * w) w = some (write l[i]) := by
  have hsplit : l = l.take i ++ l[i] :: l.drop (i + 1) := by
    rw [← List.drop_eq_getElem_cons hi, List.take_append_drop]
  have hlen : ((l.take i).flatMap write).length = i * w := by
    have hconst : ((l.take i).map fun b => (write b).length) = List.replicate i w := by
      apply List.eq_replicate_iff.2
      refine ⟨by rw [List.length_map, List.length_take]; omega, fun n hn => ?_⟩
      obtain ⟨b, hb, rfl⟩ := List.mem_map.1 hn
      exact h b (List.mem_of_mem_take hb)
    rw [List.length_flatMap, hconst, List.sum_replicate_nat]
  have hall : front ++ l.flatMap write ++ back = (front ++ (l.take i).flatMap write) ++ write l[i] ++
      ((l.drop (i + 1)).flatMap write ++ back) := by
    conv_lhs => rw [hsplit]
    simp only [List.flatMap_append, List.flatMap_cons, List.append_assoc]
  have hone := slice_append (front ++ (l.take i).flatMap write) (write l[i])
    ((l.drop (i + 1)).flatMap write ++ back)
  rw [List.length_append, hlen, h l[i] (List.getElem_mem hi)] at hone
  rw [hall]
  exact hone

/-- The front of a range. -/
theorem slice_front {len : ℕ} (h : slice xs start len = some ys) {n : ℕ} (hn : n ≤ len) :
    slice xs start n = some (ys.take n) := by
  obtain ⟨hle, rfl⟩ := slice_eq_some h
  rw [slice_of_le (by omega), List.take_take, Nat.min_eq_left hn]

/-- A block that starts with a list is read as the list. -/
theorem slice_flatten {w i : ℕ} {blocks : List (List α)} (h : ∀ b ∈ blocks, b.length = w)
    {list pad : List α} (hi : blocks[i]? = some (list ++ pad)) :
    slice blocks.flatten (i * w) list.length = some list := by
  obtain ⟨hlt, heq⟩ := List.getElem?_eq_some_iff.1 hi
  have hblock := @slice_flatMap _ _ id w blocks h [] [] _ hlt
  have hlen : list.length ≤ w := by
    rw [← h _ (List.mem_of_getElem? hi), List.length_append]
    exact Nat.le_add_right _ _
  rw [List.nil_append, List.append_nil, List.length_nil, Nat.zero_add, List.flatMap_id, id, heq]
    at hblock
  rw [slice_front hblock hlen, List.take_left]

theorem length_flatten_blocks {w : ℕ} {blocks : List (List α)} (h : ∀ b ∈ blocks, b.length = w) :
    blocks.flatten.length = blocks.length * w := by
  have hconst : blocks.map List.length = List.replicate blocks.length w :=
    List.eq_replicate_iff.2 ⟨List.length_map _, fun n hn => by
      obtain ⟨b, hb, rfl⟩ := List.mem_map.1 hn
      exact h b hb⟩
  rw [List.length_flatten, hconst, List.sum_replicate_nat]

/-- One value of a range is replaced. -/
theorem slice_set_inside {len i : ℕ} {a : α} (h : slice xs start len = some ys) :
    slice (xs.set (start + i) a) start len = some (ys.set i a) := by
  obtain ⟨hle, rfl⟩ := slice_eq_some h
  rw [slice_of_le (by rwa [List.length_set])]
  congr 1
  apply List.ext_getElem?
  intro j
  grind

theorem slice_set_outside {len i : ℕ} {a : α} (h : i < start ∨ start + len ≤ i) :
    slice (xs.set i a) start len = slice xs start len := by
  unfold slice
  rw [List.length_set]
  split
  · congr 1
    apply List.ext_getElem?
    intro j
    grind
  · rfl

end DistrHnsw
