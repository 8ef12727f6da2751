import DistrHnsw.Index.Distance
import DistrHnsw.Lib.Result

/-!
# Vector storage

`FlatVectors` holds the full-precision rows, those served from a mapped snapshot in front of those
on the heap; a row of another width cannot be built.  `QuantizedVectors` holds the eight-bit copies
in one buffer, with a scale and a squared norm for each row.
-/

namespace DistrHnsw

namespace Index

inductive VectorError where
  | zeroDims
  | ragged (len dims : ℕ)
  | wrongDims (expected actual : ℕ)
  | nonFinite
  | mappedRegionOutOfBounds
  | mappedRegionMisaligned
  deriving DecidableEq, Repr

/-! ## Full precision -/

/-- Vectors of one dimensionality; row `i` holds the vector of slot `i`. -/
@[ext]
structure FlatVectors where
  dims : ℕ
  /-- Rows served from a memory map. -/
  base : List (List F32)
  /-- Rows appended since, on the heap. -/
  tail : List (List F32)
  width : ∀ row ∈ base ++ tail, row.length = dims

namespace FlatVectors

def new (dims : ℕ) : FlatVectors := ⟨dims, [], [], by simp⟩

/-- Rows served from a memory map. -/
def fromMapped (dims : ℕ) (rows : List (List F32)) (width : ∀ row ∈ rows, row.length = dims) :
    FlatVectors := ⟨dims, rows, [], by simpa using width⟩

def rows (v : FlatVectors) : List (List F32) := v.base ++ v.tail

def len (v : FlatVectors) : ℕ := v.rows.length

def get (v : FlatVectors) (id : ℕ) : Option (List F32) := v.rows[id]?

/-- Bytes of vector data on the heap. -/
def residentBytes (v : FlatVectors) : ℕ := v.tail.length * v.dims * 4

/-- What a row is stored as: normalized for cosine collections. -/
def stored (vector : List F32) (metric : Metric) : List F32 :=
  if metric.normalizes then (normalize vector).2 else vector

theorem length_stored (vector : List F32) (metric : Metric) :
    (stored vector metric).length = vector.length := by
  unfold stored
  split <;> simp

/-- Append a row and return its id. -/
def push (v : FlatVectors) (vector : List F32) (metric : Metric) :
    Except VectorError (ℕ × FlatVectors) :=
  if h : vector.length ≠ v.dims then .error (.wrongDims v.dims vector.length)
  else if vector.any fun value => !value.isFinite then .error .nonFinite
  else .ok (v.len, { v with
    tail := v.tail ++ [stored vector metric]
    width := by
      intro row hrow
      rw [← List.append_assoc, List.mem_append, List.mem_singleton] at hrow
      rcases hrow with hrow | rfl
      · exact v.width row hrow
      · rw [length_stored]
        exact not_not.1 h })

@[simp] theorem rows_new (dims : ℕ) : (new dims).rows = [] := rfl

@[simp] theorem len_new (dims : ℕ) : (new dims).len = 0 := rfl

@[simp] theorem rows_fromMapped {dims : ℕ} {rows : List (List F32)}
    (width : ∀ row ∈ rows, row.length = dims) : (fromMapped dims rows width).rows = rows := by
  simp [fromMapped, FlatVectors.rows]

theorem get_of_lt {v : FlatVectors} {id : ℕ} (h : id < v.len) : ∃ row, v.get id = some row :=
  ⟨_, List.getElem?_eq_getElem h⟩

theorem width_rows (v : FlatVectors) {row : List F32} (h : row ∈ v.rows) : row.length = v.dims :=
  v.width row h

/-- A push succeeds on a finite vector of the right width and adds one row. -/
theorem push_eq_ok {v v' : FlatVectors} {vector : List F32} {metric : Metric} {id : ℕ} :
    v.push vector metric = .ok (id, v') ↔
      vector.length = v.dims ∧ (∀ value ∈ vector, value.isFinite = true) ∧ id = v.len ∧
        v'.dims = v.dims ∧ v'.base = v.base ∧ v'.tail = v.tail ++ [stored vector metric] := by
  unfold push
  split
  · rename_i hdims
    simp [hdims]
  · rename_i hdims
    split
    · rename_i hany
      obtain ⟨value, hmem, hvalue⟩ := List.any_eq_true.1 hany
      refine ⟨nofun, fun ⟨_, hfinite, _⟩ => ?_⟩
      rw [hfinite value hmem] at hvalue
      cases hvalue
    · rename_i hany
      have hfinite : ∀ value ∈ vector, value.isFinite = true := by simpa using hany
      simp only [Except.ok.injEq, Prod.mk.injEq, not_not.1 hdims, true_and, FlatVectors.ext_iff]
      constructor
      · rintro ⟨rfl, hd, hb, ht⟩
        exact ⟨hfinite, rfl, hd.symm, hb.symm, ht.symm⟩
      · rintro ⟨-, rfl, hd, hb, ht⟩
        exact ⟨rfl, hd.symm, hb.symm, ht.symm⟩

theorem exists_push (v : FlatVectors) {vector : List F32} (metric : Metric)
    (hdims : vector.length = v.dims) (hfinite : ∀ value ∈ vector, value.isFinite = true) :
    ∃ v', v.push vector metric = .ok (v.len, v') := by
  refine ⟨⟨v.dims, v.base, v.tail ++ [stored vector metric], ?_⟩,
    push_eq_ok.2 ⟨hdims, hfinite, rfl, rfl, rfl, rfl⟩⟩
  intro row hrow
  rw [← List.append_assoc, List.mem_append, List.mem_singleton] at hrow
  rcases hrow with hrow | rfl
  · exact v.width row hrow
  · rw [length_stored]
    exact hdims

theorem rows_of_push {v v' : FlatVectors} {vector : List F32} {metric : Metric} {id : ℕ}
    (h : v.push vector metric = .ok (id, v')) :
    id = v.len ∧ v'.dims = v.dims ∧ v'.rows = v.rows ++ [stored vector metric] := by
  obtain ⟨-, -, hid, hdims, hbase, htail⟩ := push_eq_ok.1 h
  exact ⟨hid, hdims, by simp [rows, hbase, htail]⟩

end FlatVectors

/-! ## Eight bits -/

/-- Eight-bit copies of one dimensionality. -/
@[ext]
structure QuantizedVectors where
  dims : ℕ
  data : List Int8
  scales : List F32
  normsSq : List F32
  deriving DecidableEq

namespace QuantizedVectors

def new (dims : ℕ) : QuantizedVectors := ⟨dims, [], [], []⟩

def len (q : QuantizedVectors) : ℕ := q.scales.length

def pushQuantized (q : QuantizedVectors) (row : QuantizedQuery) : QuantizedVectors :=
  { q with data := q.data ++ row.codes, scales := q.scales ++ [row.scale],
           normsSq := q.normsSq ++ [row.normSq] }

def push (q : QuantizedVectors) (vector : List F32) : QuantizedVectors :=
  q.pushQuantized (quantize vector)

/-- Rebuild from serialized parts. -/
def fromParts (dims : ℕ) (data : List Int8) (scales normsSq : List F32) :
    Option QuantizedVectors :=
  if dims = 0 ∨ data.length ≠ scales.length * dims ∨ scales.length ≠ normsSq.length then none
  else some ⟨dims, data, scales, normsSq⟩

def accountedBytes (q : QuantizedVectors) : ℕ :=
  q.data.length + q.scales.length * 4 + q.normsSq.length * 4

/-- `slots` rows of `dims` codes each, with their scalars. -/
structure Shaped (q : QuantizedVectors) (width slots : ℕ) : Prop where
  dims : q.dims = width
  data : q.data.length = slots * width
  scales : q.scales.length = slots
  normsSq : q.normsSq.length = slots

theorem shaped_new (dims : ℕ) : (new dims).Shaped dims 0 := ⟨rfl, by simp [new], rfl, rfl⟩

theorem Shaped.pushQuantized {q : QuantizedVectors} {dims slots : ℕ} (h : q.Shaped dims slots)
    {row : QuantizedQuery} (hrow : row.codes.length = dims) :
    (q.pushQuantized row).Shaped dims (slots + 1) where
  dims := h.dims
  data := by simp [QuantizedVectors.pushQuantized, h.data, hrow, Nat.succ_mul]
  scales := by simp [QuantizedVectors.pushQuantized, h.scales]
  normsSq := by simp [QuantizedVectors.pushQuantized, h.normsSq]

theorem Shaped.push {q : QuantizedVectors} {dims slots : ℕ} (h : q.Shaped dims slots)
    {vector : List F32} (hlen : vector.length = dims) : (q.push vector).Shaped dims (slots + 1) :=
  h.pushQuantized (by rw [length_codes_quantize, hlen])

/-- Parts are accepted exactly when they have the shape of some number of rows. -/
theorem fromParts_eq_some {dims : ℕ} {data : List Int8} {scales normsSq : List F32}
    {q : QuantizedVectors} :
    fromParts dims data scales normsSq = some q ↔
      dims ≠ 0 ∧ q = ⟨dims, data, scales, normsSq⟩ ∧ q.Shaped dims scales.length := by
  unfold fromParts
  split
  · rename_i hbad
    refine ⟨nofun, fun ⟨hdims, hq, hshape⟩ => ?_⟩
    subst hq
    have hdata := hshape.data
    have hnorms := hshape.normsSq
    simp only at hdata hnorms
    rcases hbad with hbad | hbad | hbad
    · exact absurd hbad hdims
    · exact absurd hdata hbad
    · exact absurd hnorms.symm hbad
  · rename_i hgood
    simp only [not_or, not_not] at hgood
    obtain ⟨hdims, hdata, hnorms⟩ := hgood
    simp only [Option.some.injEq]
    constructor
    · rintro rfl
      exact ⟨hdims, rfl, ⟨rfl, hdata, rfl, hnorms.symm⟩⟩
    · rintro ⟨-, rfl, -⟩
      rfl

end QuantizedVectors

end Index

end DistrHnsw
