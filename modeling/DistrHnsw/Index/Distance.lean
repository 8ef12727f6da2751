import DistrHnsw.Lib.F32

/-!
# Distance kernels

Distances of full-precision vectors and of their eight-bit copies, and the normalization of
`cosine` collections.  A kernel adds its terms in eight lanes, then the lanes, then the rest of the
vectors, as the source does.
-/

namespace DistrHnsw

namespace Index

/-- Distance metric of a collection. -/
inductive Metric where
  | cosine
  | dot
  | l2
  deriving DecidableEq, Repr

namespace Metric

def parse (value : String) : Option Metric :=
  if value = "cosine" ∨ value = "angular" then some .cosine
  else if value = "dot" ∨ value = "ip" then some .dot
  else if value = "l2" ∨ value = "euclidean" then some .l2
  else none

def asStr : Metric → String
  | cosine => "cosine"
  | dot => "dot"
  | l2 => "l2"

/-- Whether vectors are unit-normalized before storage and query. -/
def normalizes : Metric → Bool
  | cosine => true
  | dot | l2 => false

@[simp] theorem parse_asStr (metric : Metric) : parse metric.asStr = some metric := by
  cases metric <;> decide

end Metric

/-! ## Full precision -/

def lanes : ℕ := 8

/-- The full chunks of `n` values. -/
def chunks {α : Type} (n : ℕ) (xs : List α) : List (List α) :=
  (List.range (xs.length / n)).map fun i => (xs.drop (i * n)).take n

/-- The values behind the last full chunk. -/
def remainder {α : Type} (n : ℕ) (xs : List α) : List α := xs.drop (xs.length / n * n)

/-- Sum of a term over two vectors, lane by lane. -/
def accumulate (term : F32 → F32 → F32) (a b : List F32) : F32 :=
  let acc := ((chunks lanes a).zip (chunks lanes b)).foldl
    (fun acc (x, y) => acc.zipWith (· + ·) (x.zipWith term y)) (List.replicate lanes .zero)
  ((remainder lanes a).zip (remainder lanes b)).foldl (fun sum (x, y) => sum + term x y)
    (F32.sum acc)

def dot (a b : List F32) : F32 := accumulate (· * ·) a b

def l2Squared (a b : List F32) : F32 := accumulate (fun x y => (x - y) * (x - y)) a b

/-- Distance for `metric`; cosine assumes unit-normalized vectors. -/
def distance (metric : Metric) (a b : List F32) : F32 :=
  match metric with
  | .cosine => F32.one - dot a b
  | .dot => -dot a b
  | .l2 => l2Squared a b

/-- Unit-normalize; a vector without a positive finite norm stays and is reported. -/
def normalize (vector : List F32) : Bool × List F32 :=
  let norm := (dot vector vector).sqrt
  if norm.eq .zero || !norm.isFinite then (false, vector)
  else
    let inverse := F32.one / norm
    (true, vector.map (· * inverse))

@[simp] theorem length_normalize (vector : List F32) :
    (normalize vector).2.length = vector.length := by
  unfold normalize
  dsimp only
  split <;> simp

/-! ## Eight bits -/

/-- A quantized vector. -/
structure QuantizedQuery where
  codes : List Int8
  scale : F32
  normSq : F32
  deriving DecidableEq

/-- Quantize one vector: `scale = max|x| / 127`, `q = round(x / scale)`. -/
def quantize (vector : List F32) : QuantizedQuery :=
  let max : F32 := vector.foldl (fun m x => F32.max m x.abs) F32.zero
  let normSq := F32.sum (vector.map fun x => x * x)
  if max.eq .zero then ⟨List.replicate vector.length 0, .zero, normSq⟩
  else
    let scale := max / .ofInt 127
    let inverse := F32.one / scale
    ⟨vector.map fun x => ((x * inverse).round.clamp (.ofInt (-127)) (.ofInt 127)).toInt8, scale,
      normSq⟩

@[simp] theorem length_codes_quantize (vector : List F32) :
    (quantize vector).codes.length = vector.length := by
  unfold quantize
  dsimp only
  split <;> simp

/-- Integer dot product in 32 bits. -/
def dotI8 (a b : List Int8) : Int32 :=
  (a.zipWith (fun x y => x.toInt32 * y.toInt32) b).foldl (· + ·) 0

/-- Approximate distance between a quantized query and a stored row. -/
def distanceI8 (metric : Metric) (query : QuantizedQuery) (codes : List Int8)
    (scale normSq : F32) : F32 :=
  let dot := query.scale * scale * .ofInt (dotI8 query.codes codes).toInt
  match metric with
  | .cosine => F32.one - dot
  | .dot => -dot
  | .l2 => (query.normSq + normSq - .ofInt 2 * dot).max .zero

end Index

end DistrHnsw
