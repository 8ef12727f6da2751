import Mathlib.Algebra.GroupWithZero.Nat
import Mathlib.Algebra.Ring.Int.Defs
import Mathlib.Data.Int.Notation
import Mathlib.Tactic.Common

/-!
# Facts about the float model

Truncation of a `Float` and rounding to the `binary32` format, by the positions of leading digits.
-/

namespace DistrHnsw

open Float.Model (Format UnpackedFloat)
open Float.Model.UnpackedFloat (ExtendedMantissa Sign)

theorem mantissa_shiftRight (em : ExtendedMantissa) (n : ℕ) :
    (em >>> n).mantissa = em.mantissa / 2 ^ n := by
  induction n generalizing em with
  | zero =>
    show em.mantissa = _
    simp
  | succ n ih =>
    show (em >>> n).mantissa / 2 = _
    rw [ih, Nat.div_div_eq_div_mul, Nat.pow_succ]

/-- The mantissa of an unpacked number fits the format. -/
theorem mantissa_lt_of_unpack {spec : Format} {b : BitVec spec.numBits} {s : Sign} {m : ℕ} {e : ℤ}
    {hm : 0 < m} (h : UnpackedFloat.unpack spec b = .finite s m e hm) :
    m < 2 ^ spec.mantissaBits := by
  have hbits : spec.mantissaBits = 1 + spec.mantissaBitsWithoutImplicit := rfl
  unfold UnpackedFloat.unpack at h
  extract_lets at h
  rw [ite_eq_iff] at h
  obtain ⟨-, h⟩ | ⟨-, h⟩ := h
  · rw [ite_eq_iff] at h
    obtain ⟨-, h⟩ | ⟨-, h⟩ := h <;> cases h
  rw [ite_eq_iff] at h
  obtain ⟨-, h⟩ | ⟨-, h⟩ := h
  · rw [dite_eq_iff] at h
    obtain ⟨_, h⟩ | ⟨_, h⟩ := h
    · cases h
    · have hmantissa := (UnpackedFloat.finite.inj h).2.1
      rw [← hmantissa, hbits]
      exact Nat.lt_of_lt_of_le (BitVec.isLt _) (Nat.pow_le_pow_right (by decide) (Nat.le_add_left _ _))
  · have hmantissa := (UnpackedFloat.finite.inj h).2.1
    rw [← hmantissa, hbits]
    exact BitVec.isLt _

/-! ## Truncation -/

theorem roundToInt_of_neg {m : ℕ} {e : ℤ} (h : e ≤ 0) :
    UnpackedFloat.roundToInt .positive m e = (m / 2 ^ (-e).toNat : ℕ) := by
  have hshift : UnpackedFloat.decreaseExponent m e 0 = (m, e) := by
    have hzero : (e - 0).toNat = 0 := by omega
    unfold UnpackedFloat.decreaseExponent
    rw [hzero]
    simp
  have hneg : (0 - e).toNat = (-e).toNat := by rw [Int.zero_sub]
  unfold UnpackedFloat.roundToInt
  rw [hshift]
  show (((ExtendedMantissa.ofMantissaAndAccuracy m .exact) >>> (0 - e).toNat).mantissa : ℤ) = _
  rw [mantissa_shiftRight, hneg]
  rfl

theorem unpack_thirtyOne :
    (31.0 : Float).toModel.unpack = .finite .positive (31 * 2 ^ 48) (-48) (by decide) := rfl

theorem roundToInt_lt_thirtyOne {m : ℕ} {e : ℤ} (hm : m < 2 ^ 53)
    (h : e < -48 ∨ e = -48 ∧ m < 31 * 2 ^ 48) : UnpackedFloat.roundToInt .positive m e ≤ 31 := by
  rw [roundToInt_of_neg (by omega)]
  rcases h with h | ⟨rfl, h⟩
  · have hpow : 2 ^ 49 ≤ 2 ^ (-e).toNat := Nat.pow_le_pow_right (by decide) (by omega)
    have hdiv : m / 2 ^ (-e).toNat ≤ m / 2 ^ 49 := Nat.div_le_div_left hpow (by decide)
    omega
  · show ((m / 2 ^ 48 : ℕ) : ℤ) ≤ 31
    omega

/-- A number below 31 is truncated to at most 31. -/
theorem toUInt8_le_of_lt {x : Float} (h : x < 31.0) : x.toUInt8.toNat ≤ 31 := by
  have hcmp : x.toModel.unpack.compare (31.0 : Float).toModel.unpack = some .lt := by
    have hlt : x.lt 31.0 = true := h
    unfold Float.lt at hlt
    exact beq_iff_eq.1 (of_decide_eq_true hlt)
  have hfits {s : Sign} {m : ℕ} {e : ℤ} {hm : 0 < m}
      (hu : x.toModel.unpack = .finite s m e hm) : m < 2 ^ 53 :=
    @mantissa_lt_of_unpack .binary64 x.toModel.toBits.toBitVec _ _ _ _ hu
  have hclamp (n : ℤ) (hn : n ≤ 31) : (UInt8.ofNatClamp n.toNat).toNat ≤ 31 := by
    rw [UInt8.toNat_ofNatClamp_of_lt (show n.toNat < 256 by omega)]
    omega
  rw [unpack_thirtyOne] at hcmp
  show (UnpackedFloat.toUInt8 x.toModel.unpack).toNat ≤ 31
  generalize x.toModel.unpack = u at hcmp hfits
  apply hclamp
  cases u with
  | notANumber => cases hcmp
  | infinity s =>
    cases s with
    | negative => exact (show (0 : ℤ) ≤ 31 by decide)
    | positive => cases hcmp
  | zero s => exact (show (0 : ℤ) ≤ 31 by decide)
  | finite s m e hm =>
    cases s with
    | negative =>
      show -(_ : ℤ) ≤ 31
      omega
    | positive =>
      have hthen : (compare e (-48)).then (compare m (31 * 2 ^ 48)) = .lt := Option.some.inj hcmp
      refine roundToInt_lt_thirtyOne (hfits rfl) ?_
      rcases Ordering.then_eq_lt.1 hthen with hlt | ⟨heq, hlt⟩
      · exact .inl (Int.compare_eq_lt.1 hlt)
      · exact .inr ⟨Int.compare_eq_eq.1 heq, Nat.compare_eq_lt.1 hlt⟩

theorem toUInt8_thirtyOne : (31.0 : Float).toUInt8 = 31 := by decide +kernel

end DistrHnsw
