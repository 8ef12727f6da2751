import Mathlib.Algebra.GroupWithZero.Nat
import Mathlib.Algebra.Ring.Int.Defs
import Mathlib.Data.Int.Notation
import Mathlib.Logic.Function.Iterate
import Mathlib.Tactic.Common

/-!
# The Gregorian calendar

Dates with the day after and the day before, and from these the date of a number of days since the
first of January 1970, in either direction.  A function is that date when it starts there and goes to
the next day with each step.
-/

namespace DistrHnsw

structure Date where
  year : ℤ
  month : ℤ
  day : ℤ
  deriving DecidableEq, Repr

namespace Date

def IsLeap (year : ℤ) : Prop := year % 4 = 0 ∧ (year % 100 ≠ 0 ∨ year % 400 = 0)

instance (year : ℤ) : Decidable (IsLeap year) := inferInstanceAs (Decidable (_ ∧ _))

def daysIn (year month : ℤ) : ℤ :=
  if month = 2 then if IsLeap year then 29 else 28
  else if month = 4 ∨ month = 6 ∨ month = 9 ∨ month = 11 then 30 else 31

/-- A day of its month. -/
structure Valid (date : Date) : Prop where
  month_pos : 1 ≤ date.month
  month_le : date.month ≤ 12
  day_pos : 1 ≤ date.day
  day_le : date.day ≤ daysIn date.year date.month

def tomorrow (date : Date) : Date :=
  if date.day < daysIn date.year date.month then { date with day := date.day + 1 }
  else if date.month < 12 then ⟨date.year, date.month + 1, 1⟩
  else ⟨date.year + 1, 1, 1⟩

def yesterday (date : Date) : Date :=
  if 1 < date.day then { date with day := date.day - 1 }
  else if 1 < date.month then ⟨date.year, date.month - 1, daysIn date.year (date.month - 1)⟩
  else ⟨date.year - 1, 12, 31⟩

def epoch : Date := ⟨1970, 1, 1⟩

/-- The date some days after the epoch, or before it. -/
def ofDays : ℤ → Date
  | .ofNat n => tomorrow^[n] epoch
  | .negSucc n => yesterday^[n + 1] epoch

theorem daysIn_pos (year month : ℤ) : 28 ≤ daysIn year month := by
  unfold daysIn
  split_ifs <;> omega

theorem daysIn_le (year month : ℤ) : daysIn year month ≤ 31 := by
  unfold daysIn
  split_ifs <;> omega

theorem Valid.tomorrow {date : Date} (h : date.Valid) : date.tomorrow.Valid := by
  have hpos := daysIn_pos
  obtain ⟨hmonth, hmonth', hday, hday'⟩ := h
  unfold Date.tomorrow
  split_ifs with hlast hyear
  · exact ⟨hmonth, hmonth', by dsimp only; omega, by dsimp only; omega⟩
  · have hlength := hpos date.year (date.month + 1)
    exact ⟨by dsimp only; omega, by dsimp only; omega, Int.le_refl 1, by dsimp only; omega⟩
  · have hlength := hpos (date.year + 1) 1
    exact ⟨Int.le_refl 1, by dsimp only; omega, Int.le_refl 1, by dsimp only; omega⟩

theorem yesterday_tomorrow {date : Date} (h : date.Valid) : date.tomorrow.yesterday = date := by
  obtain ⟨year, month, day⟩ := date
  obtain ⟨hmonth, hmonth', hday, hday'⟩ := h
  dsimp only at hmonth hmonth' hday hday'
  unfold Date.tomorrow
  split_ifs with hlast hyear
  · have hmore : 1 < day + 1 := by omega
    unfold yesterday
    rw [if_pos hmore]
    simp
  · dsimp only at hlast hyear
    have hmore : 1 < month + 1 := by omega
    have hlength : daysIn year month = day := by omega
    unfold yesterday
    rw [if_neg (Int.lt_irrefl 1), if_pos hmore]
    simp [hlength]
  · dsimp only at hlast hyear
    obtain rfl : month = 12 := by omega
    have hlength : daysIn year 12 = 31 := rfl
    obtain rfl : day = 31 := by omega
    unfold yesterday
    rw [if_neg (Int.lt_irrefl 1), if_neg (Int.lt_irrefl 1)]
    simp

/-- Starting at the epoch and going on by a day with each step there is only one way. -/
theorem eq_ofDays {f : ℤ → Date} (hvalid : ∀ n, (f n).Valid) (hstart : f 0 = epoch)
    (hstep : ∀ n, f (n + 1) = (f n).tomorrow) (n : ℤ) : f n = ofDays n := by
  have hback (n : ℤ) : f (n - 1) = (f n).yesterday := by
    have := hstep (n - 1)
    rw [Int.sub_add_cancel] at this
    rw [this, yesterday_tomorrow (hvalid _)]
  cases n with
  | ofNat n =>
    induction n with
    | zero => exact hstart
    | succ n ih =>
      show f ((n : ℤ) + 1) = Date.tomorrow^[n + 1] epoch
      rw [hstep, Function.iterate_succ_apply']
      exact congrArg Date.tomorrow ih
  | negSucc n =>
    induction n with
    | zero =>
      show f (0 - 1) = Date.yesterday^[1] epoch
      rw [hback, hstart]
      rfl
    | succ n ih =>
      show f (Int.negSucc n - 1) = Date.yesterday^[n + 2] epoch
      rw [hback, Function.iterate_succ_apply']
      exact congrArg Date.yesterday ih

/-! ## The order of dates -/

def Before (a b : Date) : Prop :=
  a.year < b.year ∨ a.year = b.year ∧ (a.month < b.month ∨ a.month = b.month ∧ a.day < b.day)

theorem Before.trans {a b c : Date} (h : Before a b) (h' : Before b c) : Before a c := by
  unfold Before at *
  omega

theorem before_tomorrow (date : Date) : Before date date.tomorrow := by
  unfold Before tomorrow
  split_ifs <;> dsimp only <;> omega

/-- What goes to the next day with each step goes forward. -/
theorem before_of_lt {f : ℤ → Date} (hstep : ∀ n, f (n + 1) = (f n).tomorrow) {n m : ℤ} (h : n < m) :
    Before (f n) (f m) := by
  obtain ⟨k, hk⟩ := Int.eq_ofNat_of_zero_le (Int.sub_nonneg_of_le h)
  obtain rfl : m = n + 1 + k := by omega
  induction k with
  | zero =>
    rw [Int.ofNat_zero, Int.add_zero, hstep]
    exact before_tomorrow _
  | succ k ih =>
    refine (ih (by omega) (by omega)).trans ?_
    rw [show n + 1 + ((k + 1 : ℕ) : ℤ) = n + 1 + k + 1 by omega, hstep]
    exact before_tomorrow _

end Date

end DistrHnsw
