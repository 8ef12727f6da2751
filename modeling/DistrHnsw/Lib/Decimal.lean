import Mathlib.Algebra.GroupWithZero.Nat
import Mathlib.Algebra.Ring.Int.Defs
import Mathlib.Data.Int.Notation
import Mathlib.Tactic.Common

/-!
# Decimal numbers of a fixed width

Numbers are written with zeros in front up to a width, and read with an optional sign.  What is
written is read back, and numbers of one width are in the order of their texts.
-/

namespace DistrHnsw

namespace Decimal

/-- The number with zeros in front; a sign takes one of the places. -/
def padded (width : ℕ) (n : ℤ) : List Char :=
  if n < 0 then '-' :: (Nat.toDigits 10 n.natAbs).leftpad (width - 1) '0'
  else (Nat.toDigits 10 n.natAbs).leftpad width '0'

def parseDigits (text : List Char) : Option ℕ :=
  if text ≠ [] ∧ text.all Char.isDigit then some (Nat.ofDigitChars 10 text 0) else none

def parse : List Char → Option ℤ
  | '+' :: digits => (parseDigits digits).map fun n => (n : ℤ)
  | '-' :: digits => (parseDigits digits).map fun n => -(n : ℤ)
  | digits => (parseDigits digits).map fun n => (n : ℤ)

section

variable {width n m : ℕ}

theorem padded_natCast (width n : ℕ) :
    padded width n = (Nat.toDigits 10 n).leftpad width '0' := by
  unfold padded
  rw [if_neg (by omega), Int.natAbs_natCast]

theorem isDigit_of_mem_padded {c : Char} (h : c ∈ padded width n) : c.isDigit = true := by
  rw [padded_natCast] at h
  unfold List.leftpad at h
  rcases List.mem_append.1 h with hzero | hdigit
  · rw [List.eq_of_mem_replicate hzero]
    rfl
  · exact Nat.isDigit_of_mem_toDigits (by decide) (by decide) hdigit

theorem length_padded (hwidth : 0 < width) (h : n < 10 ^ width) : (padded width n).length = width := by
  have hdigits := (Nat.length_toDigits_le_iff (by decide) hwidth).2 h
  rw [padded_natCast]
  unfold List.leftpad
  rw [List.length_append, List.length_replicate]
  omega

theorem ofDigitChars_padded (width n : ℕ) : Nat.ofDigitChars 10 (padded width n) 0 = n := by
  rw [padded_natCast]
  unfold List.leftpad
  rw [Nat.ofDigitChars_append, Nat.ofDigitChars_replicate_zero, Nat.mul_zero]
  exact Nat.ofDigitChars_ten_toDigits

/-- Texts of one width determine their numbers. -/
theorem padded_inj {width : ℕ} {n m : ℤ} (h : padded width n = padded width m) : n = m := by
  have hnegative {k : ℤ} (hk : k < 0) :
      padded width k = '-' :: padded (width - 1) (k.natAbs : ℤ) := by
    rw [padded_natCast]
    exact if_pos hk
  have hsign {k l : ℤ} (hk : k < 0) (hl : 0 ≤ l) : padded width k ≠ padded width l := by
    intro heq
    lift l to ℕ using hl
    have hdash : '-' ∈ padded width l := by
      rw [← heq, hnegative hk]
      exact List.mem_cons_self
    cases isDigit_of_mem_padded hdash
  have hvalue {width a b : ℕ} (heq : padded width a = padded width b) : a = b := by
    rw [← ofDigitChars_padded width a, ← ofDigitChars_padded width b, heq]
  rcases Int.lt_or_le n 0 with hn | hn <;> rcases Int.lt_or_le m 0 with hm | hm
  · rw [hnegative hn, hnegative hm] at h
    have hsame := hvalue (List.cons.inj h).2
    omega
  · exact absurd h (hsign hn hm)
  · exact absurd h.symm (hsign hm hn)
  · lift n to ℕ using hn
    lift m to ℕ using hm
    rw [hvalue h]

/-- What is written is read back. -/
theorem parse_padded (hwidth : 0 < width) (h : n < 10 ^ width) :
    parse (padded width n) = some (n : ℤ) := by
  have hlen := length_padded hwidth h
  have hdigit : ∀ c ∈ padded width n, c.isDigit = true := fun c => isDigit_of_mem_padded
  have hparse : parseDigits (padded width n) = some n := by
    unfold parseDigits
    have hne : padded width n ≠ [] := by
      intro hnil
      rw [hnil] at hlen
      exact absurd hlen (Nat.ne_of_lt hwidth)
    rw [if_pos ⟨hne, List.all_eq_true.2 hdigit⟩, ofDigitChars_padded]
  unfold parse
  split
  · next heq =>
    have := hdigit '+' (heq ▸ List.mem_cons_self)
    cases this
  · next heq =>
    have := hdigit '-' (heq ▸ List.mem_cons_self)
    cases this
  · rw [hparse]
    rfl

end

/-! ## The order of texts -/

theorem toNat_of_isDigit {c : Char} (h : c.isDigit = true) : 48 ≤ c.toNat ∧ c.toNat ≤ 57 := by
  simp only [Char.isDigit, Bool.and_eq_true, decide_eq_true_eq] at h
  exact ⟨UInt32.le_iff_toNat_le.1 h.1, UInt32.le_iff_toNat_le.1 h.2⟩

theorem ofDigitChars_cons_eq (c : Char) (text : List Char) : Nat.ofDigitChars 10 (c :: text) 0 =
    10 ^ text.length * (c.toNat - 48) + Nat.ofDigitChars 10 text 0 := by
  rw [Nat.ofDigitChars_cons, Nat.ofDigitChars_eq_ofDigitChars_zero, Nat.mul_zero, Nat.zero_add]
  rfl

theorem ofDigitChars_lt {text : List Char} (h : ∀ c ∈ text, c.isDigit = true) :
    Nat.ofDigitChars 10 text 0 < 10 ^ text.length := by
  induction text with
  | nil => decide
  | cons c text ih =>
    have hrest := ih fun c hc => h c (List.mem_cons_of_mem _ hc)
    have hc := toNat_of_isDigit (h c List.mem_cons_self)
    have hvalue : 10 ^ text.length * (c.toNat - 48) ≤ 10 ^ text.length * 9 :=
      Nat.mul_le_mul_left _ (by omega)
    rw [ofDigitChars_cons_eq, List.length_cons, Nat.pow_succ]
    omega

/-- Digits of equal number compare as the numbers they stand for. -/
theorem lt_of_ofDigitChars_lt {text text' : List Char} (hlen : text.length = text'.length)
    (h : ∀ c ∈ text, c.isDigit = true) (h' : ∀ c ∈ text', c.isDigit = true)
    (hlt : Nat.ofDigitChars 10 text 0 < Nat.ofDigitChars 10 text' 0) : text < text' := by
  induction text generalizing text' with
  | nil =>
    rw [List.length_eq_zero_iff.1 hlen.symm] at hlt
    exact absurd hlt (Nat.lt_irrefl _)
  | cons c text ih =>
    cases text' with
    | nil => cases hlen
    | cons c' text' =>
      have hrest : text.length = text'.length := Nat.succ.inj hlen
      have hdigits := fun d hd => h d (List.mem_cons_of_mem _ hd)
      have hdigits' := fun d hd => h' d (List.mem_cons_of_mem _ hd)
      have hc := toNat_of_isDigit (h c List.mem_cons_self)
      have hc' := toNat_of_isDigit (h' c' List.mem_cons_self)
      have hbound' := ofDigitChars_lt hdigits'
      rw [ofDigitChars_cons_eq, ofDigitChars_cons_eq, hrest] at hlt
      rcases Nat.lt_trichotomy c.toNat c'.toNat with hless | hsame | hmore
      · exact List.Lex.rel hless
      · obtain rfl : c = c' := Char.toNat_inj.1 hsame
        exact List.Lex.cons (ih hrest hdigits hdigits' (by omega))
      · exfalso
        have hvalue : 10 ^ text'.length * (c'.toNat - 48 + 1) ≤ 10 ^ text'.length * (c.toNat - 48) :=
          Nat.mul_le_mul_left _ (by omega)
        rw [Nat.mul_add, Nat.mul_one] at hvalue
        omega

theorem padded_lt_padded {width n m : ℕ} (hwidth : 0 < width) (hm : m < 10 ^ width) (h : n < m) :
    padded width n < padded width m := by
  have hlen := length_padded hwidth (Nat.lt_trans h hm)
  refine lt_of_ofDigitChars_lt ?_ (fun _ => isDigit_of_mem_padded) (fun _ => isDigit_of_mem_padded) ?_
  · rw [hlen, length_padded hwidth hm]
  · rwa [ofDigitChars_padded, ofDigitChars_padded]

/-- Texts of equal length in front decide. -/
theorem append_lt_append {front front' : List Char} (hlen : front.length = front'.length)
    (h : front < front') (rest rest' : List Char) : front ++ rest < front' ++ rest' := by
  induction front generalizing front' with
  | nil =>
    rw [List.length_eq_zero_iff.1 hlen.symm] at h
    exact absurd h (List.lt_irrefl _)
  | cons c front ih =>
    cases front' with
    | nil => cases hlen
    | cons c' front' =>
      cases h with
      | rel hless => exact List.Lex.rel hless
      | cons hrest => exact List.Lex.cons (ih (Nat.succ.inj hlen) hrest)

theorem append_lt_append_left {rest rest' : List Char} (front : List Char) (h : rest < rest') :
    front ++ rest < front ++ rest' := by
  induction front with
  | nil => exact h
  | cons c front ih => exact List.Lex.cons ih

end Decimal

end DistrHnsw
