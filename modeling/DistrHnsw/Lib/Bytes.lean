import Mathlib.Algebra.GroupWithZero.Nat
import Mathlib.Algebra.Ring.Int.Defs
import Mathlib.Data.List.Basic
import Mathlib.Tactic.Common

/-!
# Byte strings and little-endian words

`toLeBytes w n` writes the low `w` bytes of `n`, least significant first; `fromLeBytes` reads them
back.  `Fixed n` is a byte string of length exactly `n` (identifiers, digests).  `takeBytes` is the
bounds-checked read every parser is built from, and `slice` the bounds-checked subrange.
-/

namespace DistrHnsw

/-- A byte string. -/
abbrev Bytes := List UInt8

/-- A byte string of length exactly `n`. -/
abbrev Fixed (n : ℕ) := { bytes : Bytes // bytes.length = n }

instance (n : ℕ) : Inhabited (Fixed n) := ⟨⟨List.replicate n 0, List.length_replicate⟩⟩

/-! ## 64-bit counters -/

/-- One more; wraps at the end of the range. -/
def succ64 (n : ℕ) : ℕ := (n + 1) % 2 ^ 64

/-- One less; wraps at zero. -/
def pred64 (n : ℕ) : ℕ := if n = 0 then 2 ^ 64 - 1 else n - 1

theorem succ64_of_lt {n : ℕ} (h : n + 1 < 2 ^ 64) : succ64 n = n + 1 := Nat.mod_eq_of_lt h

theorem pred64_succ (n : ℕ) : pred64 (n + 1) = n := rfl

/-! ## Little-endian words -/

/-- The low `w` bytes of `n`, least significant first. -/
def toLeBytes : ℕ → ℕ → Bytes
  | 0, _ => []
  | w + 1, n => UInt8.ofNat n :: toLeBytes w (n / 256)

/-- The number whose little-endian bytes are given. -/
def fromLeBytes : Bytes → ℕ
  | [] => 0
  | b :: bs => b.toNat + 256 * fromLeBytes bs

@[simp] theorem length_toLeBytes (w n : ℕ) : (toLeBytes w n).length = w := by
  induction w generalizing n with
  | zero => rfl
  | succ w ih => simp [toLeBytes, ih]

theorem fromLeBytes_lt (bs : Bytes) : fromLeBytes bs < 256 ^ bs.length := by
  induction bs with
  | nil => simp [fromLeBytes]
  | cons b bs ih =>
    have hb := b.toNat_lt
    simp only [fromLeBytes, List.length_cons, Nat.pow_succ]
    omega

theorem fromLeBytes_toLeBytes_mod (w n : ℕ) : fromLeBytes (toLeBytes w n) = n % 256 ^ w := by
  induction w generalizing n with
  | zero => simp [toLeBytes, fromLeBytes, Nat.mod_one]
  | succ w ih =>
    simp only [toLeBytes, fromLeBytes, ih, UInt8.toNat_ofNat']
    have hpow : 256 ^ (w + 1) = 256 * 256 ^ w := by rw [Nat.pow_succ, Nat.mul_comm]
    rw [hpow, Nat.mod_mul]

/-- A word that fits its width is read back unchanged. -/
theorem fromLeBytes_toLeBytes {w n : ℕ} (h : n < 256 ^ w) : fromLeBytes (toLeBytes w n) = n := by
  rw [fromLeBytes_toLeBytes_mod, Nat.mod_eq_of_lt h]

/-- Every byte string is the little-endian form of the number it reads as. -/
theorem toLeBytes_fromLeBytes (bs : Bytes) : toLeBytes bs.length (fromLeBytes bs) = bs := by
  induction bs with
  | nil => rfl
  | cons b bs ih =>
    have hb := b.toNat_lt
    have hdiv : (b.toNat + 256 * fromLeBytes bs) / 256 = fromLeBytes bs := by omega
    have hmod : UInt8.ofNat (b.toNat + 256 * fromLeBytes bs) = b := by
      apply UInt8.toNat_inj.1
      rw [UInt8.toNat_ofNat']
      omega
    simp only [List.length_cons, toLeBytes, fromLeBytes, hdiv, hmod, ih]

theorem toLeBytes_fromLeBytes_of_length {w : ℕ} {bs : Bytes} (h : bs.length = w) :
    toLeBytes w (fromLeBytes bs) = bs := by
  rw [← h, toLeBytes_fromLeBytes]

theorem toLeBytes_inj {w n m : ℕ} (hn : n < 256 ^ w) (hm : m < 256 ^ w)
    (h : toLeBytes w n = toLeBytes w m) : n = m := by
  rw [← fromLeBytes_toLeBytes hn, h, fromLeBytes_toLeBytes hm]

/-! ## Checked reads -/

/-- The first `n` bytes and the rest, when there are that many. -/
def takeBytes (n : ℕ) (bytes : Bytes) : Option (Bytes × Bytes) :=
  if bytes.length < n then none else some (bytes.take n, bytes.drop n)

theorem takeBytes_append (front rest : Bytes) :
    takeBytes front.length (front ++ rest) = some (front, rest) := by
  simp [takeBytes]

theorem takeBytes_append_of_length {n : ℕ} {front : Bytes} (h : front.length = n) (rest : Bytes) :
    takeBytes n (front ++ rest) = some (front, rest) := by
  subst h; exact takeBytes_append front rest

@[simp] theorem takeBytes_zero (bytes : Bytes) : takeBytes 0 bytes = some ([], bytes) := by
  simp [takeBytes]

theorem takeBytes_eq_some {n : ℕ} {bytes front rest : Bytes}
    (h : takeBytes n bytes = some (front, rest)) : bytes = front ++ rest ∧ front.length = n := by
  unfold takeBytes at h
  split at h
  · cases h
  · rename_i hlen
    cases h
    exact ⟨(List.take_append_drop n bytes).symm, by simp; omega⟩

/-- The bytes from `start` to `start + len`, when the range lies inside the string. -/
def slice {α : Type} (xs : List α) (start len : ℕ) : Option (List α) :=
  if start + len ≤ xs.length then some ((xs.drop start).take len) else none

theorem slice_eq_some {α : Type} {xs ys : List α} {start len : ℕ}
    (h : slice xs start len = some ys) :
    start + len ≤ xs.length ∧ ys = (xs.drop start).take len := by
  unfold slice at h
  split at h
  · cases h; exact ⟨‹_›, rfl⟩
  · cases h

theorem slice_of_le {α : Type} {xs : List α} {start len : ℕ} (h : start + len ≤ xs.length) :
    slice xs start len = some ((xs.drop start).take len) := if_pos h

theorem slice_length {α : Type} {xs ys : List α} {start len : ℕ}
    (h : slice xs start len = some ys) : ys.length = len := by
  obtain ⟨hle, rfl⟩ := slice_eq_some h
  simp; omega

theorem slice_append {α : Type} (front middle back : List α) :
    slice (front ++ middle ++ back) front.length middle.length = some middle := by
  rw [slice_of_le (by simp), List.append_assoc, List.drop_left, List.take_left]

end DistrHnsw
