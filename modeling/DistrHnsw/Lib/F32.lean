import Mathlib.Data.Int.Notation
import DistrHnsw.Lib.Bytes

/-!
# Single precision values as bit patterns

A stored `f32` is its bit pattern, so that writing and reading one keeps every payload of a value
that is not a number.  Classification and comparison read the pattern: without the sign bit,
patterns are ordered as the numbers they stand for.  Arithmetic goes through `Float32`, whose
logical model is the IEEE 754 `binary32` format; a result that is not a number is the canonical
quiet pattern.
-/

namespace DistrHnsw

/-- A single precision value, by its bit pattern. -/
@[ext]
structure F32 where
  bits : UInt32
  deriving DecidableEq, Repr, Inhabited

namespace F32

open Float.Model (Format UnpackedFloat)

def toFloat (x : F32) : Float32 := Float32.ofBits x.bits

def ofFloat (x : Float32) : F32 := ⟨x.toBits⟩

def zero : F32 := ⟨0⟩

def one : F32 := ⟨0x3F800000⟩

/-- The neutral element of a sum of floats. -/
def negZero : F32 := ⟨0x80000000⟩

/-! ## Classification and comparison -/

/-- The pattern without the sign bit. -/
def magnitude (x : F32) : ℕ := x.bits.toNat % 2 ^ 31

def isNegative (x : F32) : Bool := decide (2 ^ 31 ≤ x.bits.toNat)

def isFinite (x : F32) : Bool := decide (x.magnitude < 0x7F800000)

def isNan (x : F32) : Bool := decide (0x7F800000 < x.magnitude)

/-- The place of a number in the order of numbers; the two zeros share theirs. -/
def position (x : F32) : ℤ := if x.isNegative then -x.magnitude else x.magnitude

/-- The comparison of numbers: none when one of the two is not a number. -/
def partialCmp (x y : F32) : Option Ordering :=
  if x.isNan ∨ y.isNan then none else some (compare x.position y.position)

def lt (x y : F32) : Bool := x.partialCmp y == some .lt

def eq (x y : F32) : Bool := x.partialCmp y == some .eq

/-! ## Arithmetic -/

instance : Add F32 := ⟨fun x y => ofFloat (x.toFloat + y.toFloat)⟩

instance : Sub F32 := ⟨fun x y => ofFloat (x.toFloat - y.toFloat)⟩

instance : Mul F32 := ⟨fun x y => ofFloat (x.toFloat * y.toFloat)⟩

instance : Div F32 := ⟨fun x y => ofFloat (x.toFloat / y.toFloat)⟩

/-- Negation flips the sign bit, also of a value that is not a number. -/
instance : Neg F32 := ⟨fun x => ⟨x.bits ^^^ 0x80000000⟩⟩

def abs (x : F32) : F32 := ⟨x.bits &&& 0x7FFFFFFF⟩

def sqrt (x : F32) : F32 := ofFloat x.toFloat.sqrt

/-- The nearest integer, halves away from zero. -/
def roundUnpacked : UnpackedFloat → UnpackedFloat
  | .finite sign mantissa exponent _ =>
    if 0 ≤ exponent then UnpackedFloat.round .binary32 sign mantissa exponent
    else
      let nearest := (2 * mantissa + 2 ^ (-exponent).toNat) / 2 ^ ((-exponent).toNat + 1)
      if nearest = 0 then .zero sign else UnpackedFloat.round .binary32 sign nearest 0
  | special => special

def round (x : F32) : F32 :=
  ofFloat (.ofModel (.pack (roundUnpacked x.toFloat.toModel.unpack)))

/-- The larger of two values; the other one when one is not a number. -/
def max (x y : F32) : F32 := if x.isNan || x.lt y then y else x

/-- Restrict to `low ..= high`; a value that is not a number stays. -/
def clamp (x low high : F32) : F32 := if x.lt low then low else if high.lt x then high else x

/-- The nearest value of an integer. -/
def ofInt (n : ℤ) : F32 :=
  ofFloat (.ofModel (.pack (UnpackedFloat.normalize .binary32 n 0 .positive)))

/-- Truncation to eight bits, clamped; zero for a value that is not a number. -/
def toInt8 (x : F32) : Int8 := x.toFloat.toInt8

/-- The sum of a list, from the left. -/
def sum (xs : List F32) : F32 := xs.foldl (· + ·) negZero

/-! ## Little-endian storage -/

/-- The four bytes of the value. -/
def toLe (x : F32) : Bytes := toLeBytes 4 x.bits.toNat

def ofLe (bytes : Bytes) : F32 := ⟨UInt32.ofNat (fromLeBytes bytes)⟩

@[simp] theorem length_toLe (x : F32) : x.toLe.length = 4 := length_toLeBytes _ _

@[simp] theorem ofLe_toLe (x : F32) : ofLe x.toLe = x := by
  have hx : x.bits.toNat < 256 ^ 4 := x.bits.toNat_lt
  ext1
  simp [ofLe, toLe, fromLeBytes_toLeBytes hx]

theorem toLe_ofLe {bytes : Bytes} (h : bytes.length = 4) : (ofLe bytes).toLe = bytes := by
  have hlt : fromLeBytes bytes < 2 ^ 32 := by
    have := fromLeBytes_lt bytes
    rwa [h] at this
  rw [toLe, ofLe, UInt32.toNat_ofNat_of_lt' hlt, ← h, toLeBytes_fromLeBytes]

/-- Values in order, four bytes each. -/
def manyToLe (xs : List F32) : Bytes := xs.flatMap toLe

/-- The values of consecutive four-byte groups; a shorter rest is ignored. -/
def manyOfLe : Bytes → List F32
  | a :: b :: c :: d :: rest => ofLe [a, b, c, d] :: manyOfLe rest
  | _ => []

@[simp] theorem length_manyToLe (xs : List F32) : (manyToLe xs).length = 4 * xs.length := by
  induction xs with
  | nil => rfl
  | cons x xs ih =>
    simp only [manyToLe, List.flatMap_cons, List.length_append, length_toLe, List.length_cons]
      at ih ⊢
    omega

theorem manyOfLe_append {front : Bytes} (h : front.length = 4) (rest : Bytes) :
    manyOfLe (front ++ rest) = ofLe front :: manyOfLe rest := by
  match front, h with
  | [a, b, c, d], _ => rfl

@[simp] theorem manyOfLe_manyToLe (xs : List F32) : manyOfLe (manyToLe xs) = xs := by
  induction xs with
  | nil => rfl
  | cons x xs ih =>
    show manyOfLe (x.toLe ++ manyToLe xs) = x :: xs
    rw [manyOfLe_append (length_toLe x), ofLe_toLe, ih]

/-- Whole groups are written back as they were read. -/
theorem manyToLe_manyOfLe {n : ℕ} {bytes : Bytes} (h : bytes.length = n * 4) :
    manyToLe (manyOfLe bytes) = bytes := by
  induction n generalizing bytes with
  | zero =>
    have : bytes = [] := by simpa using h
    subst this
    rfl
  | succ n ih =>
    have hfront : (bytes.take 4).length = 4 := by
      rw [List.length_take]
      omega
    have hrest : (bytes.drop 4).length = n * 4 := by
      rw [List.length_drop]
      omega
    rw [← List.take_append_drop 4 bytes, manyOfLe_append hfront]
    show (ofLe (bytes.take 4)).toLe ++ manyToLe (manyOfLe (bytes.drop 4)) = _
    rw [toLe_ofLe hfront, ih hrest]

theorem length_manyOfLe (bytes : Bytes) : (manyOfLe bytes).length = bytes.length / 4 := by
  induction bytes using manyOfLe.induct with
  | case1 a b c d rest ih =>
    simp only [manyOfLe, List.length_cons, ih]
    omega
  | case2 bytes short =>
    have hlt : bytes.length < 4 := by
      match bytes, short with
      | [], _ | [_], _ | [_, _], _ | [_, _, _], _ => simp
      | a :: b :: c :: d :: rest, short => exact absurd rfl (short a b c d rest)
    unfold manyOfLe
    split
    · exact absurd rfl (short _ _ _ _ _)
    · simp; omega

end F32

end DistrHnsw
