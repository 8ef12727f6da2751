import DistrHnsw.Index.Search
import DistrHnsw.Lib.Flat
import DistrHnsw.Lib.Rounding

/-!
# The graph in memory

`Hnsw` holds the rows, the levels and the neighbour lists in the flat buffers of the source; every
access is checked, so that an index outside a buffer is the result `Fault.bounds`.  Slots are
append-only; deletes are tombstones that stay linked for routing but are never returned.
-/

namespace DistrHnsw

namespace Index

/-! ## Checked access -/

section Access

variable {α : Type}

def index (xs : List α) (i : ℕ) : Checked α :=
  match xs[i]? with
  | some a => .ok a
  | none => .error .bounds

def range (xs : List α) (start len : ℕ) : Checked (List α) :=
  match slice xs start len with
  | some ys => .ok ys
  | none => .error .bounds

def setAt (xs : List α) (i : ℕ) (a : α) : Checked (List α) :=
  if i < xs.length then .ok (xs.set i a) else .error .bounds

def copyFromSlice (xs : List α) (start : ℕ) (ys : List α) : Checked (List α) :=
  match overwrite xs start ys with
  | some xs => .ok xs
  | none => .error .bounds

/-- The value of an option that is said to be there. -/
def expect (what : String) : Option α → Checked α
  | some a => .ok a
  | none => .error (.assertion what)

end Access

/-! ## Words of tombstone bits -/

/-- Bit `slot % 64` of word `slot / 64`; clear outside the words. -/
def testBit (words : List UInt64) (slot : ℕ) : Bool :=
  match words[slot / 64]? with
  | some word => word.toNat.testBit (slot % 64)
  | none => false

/-- `word | 1 << (slot & 63)`. -/
def setBit (word : UInt64) (slot : ℕ) : UInt64 := word ||| 1 <<< UInt64.ofNat (slot % 64)

/-! ## The graph -/

structure HnswParams where
  /-- Max neighbours per node on upper levels. -/
  m : ℕ
  /-- Max neighbours on level 0. -/
  m0 : ℕ
  efConstruction : ℕ
  /-- Seed mixed with the slot to draw levels. -/
  seed : UInt64
  deriving DecidableEq, Repr

/-- The graph structure without the rows. -/
structure GraphParts where
  /-- Level of each slot. -/
  levels : List UInt8
  /-- Level-0 neighbour lists: `m0` entries per slot, `level0Len` used. -/
  level0 : List Slot
  level0Len : List UInt8
  /-- Upper-level lists per slot: `levels[slot] * m` entries, counts per level. -/
  upper : List (List Slot)
  upperLen : List (List UInt8)
  tombstones : List UInt64
  tombstoneCount : ℕ
  entry : Option Slot
  maxLevel : UInt8
  deriving DecidableEq, Repr

structure Hnsw extends GraphParts where
  params : HnswParams
  metric : Metric
  vectors : FlatVectors
  quantized : QuantizedVectors

/-- Deterministic level of a slot: splitmix64 over seed and slot, mapped to a geometric draw with
multiplier `1 / ln m`. -/
def levelFor (params : HnswParams) (slot : Slot) : UInt8 :=
  let x := (params.seed * 0x9E3779B97F4A7C15) ^^^ (slot.toUInt64 + 0x6A09E667F3BCC909)
  let x := x + 0x9E3779B97F4A7C15
  let x := (x ^^^ (x >>> 30)) * 0xBF58476D1CE4E5B9
  let x := (x ^^^ (x >>> 27)) * 0x94D049BB133111EB
  let x := x ^^^ (x >>> 31)
  let unit := ((x >>> 11).toFloat + 1.0) / (((1 : UInt64) <<< 53).toFloat + 1.0)
  let multiplier := 1.0 / (Float.ofNat params.m).log
  let level := (-unit.log * multiplier).floor
  (if level < 31.0 then level else 31.0).toUInt8

theorem levelFor_le (params : HnswParams) (slot : Slot) : (levelFor params slot).toNat ≤ 31 := by
  unfold levelFor
  dsimp only
  split
  · exact toUInt8_le_of_lt ‹_›
  · rw [toUInt8_thirtyOne]
    decide

/-! ## Neighbour selection -/

/-- The row of a slot. -/
def rowOf (vectors : FlatVectors) (what : String) (slot : Slot) : Checked (List F32) :=
  expect what (vectors.get slot.toNat)

/-- Distance of a query to the row of a slot. -/
def distanceTo (metric : Metric) (vectors : FlatVectors) (query : List F32) (slot : Slot) :
    Checked F32 := do
  let row ← rowOf vectors "slot" slot
  return distance metric query row

/-- Take a candidate when it is closer to the query than to every selected neighbour. -/
def selectStep (metric : Metric) (vectors : FlatVectors) (m : ℕ)
    (lists : List Slot × List Slot) (candidate : Far) : Checked (List Slot × List Slot) :=
  if lists.1.length ≥ m then .ok lists
  else do
    let candidateVector ← rowOf vectors "slot" candidate.slot
    let closerToSelected ← lists.1.anyM fun s => do
      let d ← distanceTo metric vectors candidateVector s
      return d.lt candidate.distance
    return if closerToSelected then (lists.1, lists.2 ++ [candidate.slot])
      else (lists.1 ++ [candidate.slot], lists.2)

/-- HNSW Algorithm 4, with backfill from the pruned candidates. -/
def selectHeuristic (metric : Metric) (vectors : FlatVectors) (candidates : List Far) (m : ℕ) :
    Checked (List Slot) := do
  let (selected, pruned) ← (candidates.mergeSort Far.le).foldlM (selectStep metric vectors m) ([], [])
  return selected ++ pruned.take (m - selected.length)

namespace Hnsw

def new (dims : ℕ) (metric : Metric) (params : HnswParams) : Hnsw where
  params := params
  metric := metric
  vectors := .new dims
  quantized := .new dims
  levels := []
  level0 := []
  level0Len := []
  upper := []
  upperLen := []
  tombstones := []
  tombstoneCount := 0
  entry := none
  maxLevel := 0

variable (g : Hnsw)

def dims : ℕ := g.vectors.dims

def len : ℕ := g.levels.length

def liveLen : ℕ := g.len - g.tombstoneCount

/-! ## Tombstones -/

def isTombstoned (slot : Slot) : Bool := testBit g.tombstones slot.toNat

/-- Mask a slot from results; whether it was not masked before. -/
def tombstone (slot : Slot) : Checked (Bool × Hnsw) :=
  if slot.toNat < g.len then do
    let word ← index g.tombstones (slot.toNat / 64)
    if word.toNat.testBit (slot.toNat % 64) then .ok (false, g)
    else do
      let tombstones ← setAt g.tombstones (slot.toNat / 64) (setBit word slot.toNat)
      return (true, { g with tombstones, tombstoneCount := g.tombstoneCount + 1 })
  else .error (.assertion "slot out of range")

/-! ## Neighbour lists -/

def capacity (level : ℕ) : ℕ := if level = 0 then g.params.m0 else g.params.m

def neighbours (slot : Slot) (level : ℕ) : Checked (List Slot) :=
  if level = 0 then do
    let len ← index g.level0Len slot.toNat
    range g.level0 (slot.toNat * g.params.m0) len.toNat
  else do
    let lens ← index g.upperLen slot.toNat
    let len ← index lens (level - 1)
    let links ← index g.upper slot.toNat
    range links ((level - 1) * g.params.m) len.toNat

/-- Write `list` from position `offset` of a slot's list on and set the list's length. -/
def writeLinks (slot : Slot) (level offset : ℕ) (list : List Slot) (len : UInt8) :
    Checked Hnsw :=
  if level = 0 then do
    let level0 ← copyFromSlice g.level0 (slot.toNat * g.params.m0 + offset) list
    let level0Len ← setAt g.level0Len slot.toNat len
    return { g with level0, level0Len }
  else do
    let links ← index g.upper slot.toNat
    let links ← copyFromSlice links ((level - 1) * g.params.m + offset) list
    let upper ← setAt g.upper slot.toNat links
    let lens ← index g.upperLen slot.toNat
    let lens ← setAt lens (level - 1) len
    let upperLen ← setAt g.upperLen slot.toNat lens
    return { g with upper, upperLen }

def setNeighbours (slot : Slot) (level : ℕ) (list : List Slot) : Checked Hnsw :=
  g.writeLinks slot level 0 list (.ofNat list.length)

/-- Add `slot` to `neighbour`'s list, pruning with the heuristic when the list is full. -/
def linkBack (slot : Slot) (level : ℕ) (neighbour : Slot) : Checked Hnsw := do
  let current ← g.neighbours neighbour level
  if current.length < g.capacity level then
    g.writeLinks neighbour level current.length [slot] (.ofNat (current.length + 1))
  else do
    let base ← rowOf g.vectors "slot" neighbour
    let candidates ← (current ++ [slot]).mapM fun s => do
      let d ← distanceTo g.metric g.vectors base s
      return (⟨d, s⟩ : Far)
    let selected ← selectHeuristic g.metric g.vectors candidates (g.capacity level)
    g.setNeighbours neighbour level selected

/-! ## Insertion -/

/-- Greedy descent through the levels above `level`. -/
def descend (dist : Slot → Checked F32) (entry : Slot) (level : ℕ) : Checked Slot :=
  (List.range' (level + 1) (g.maxLevel.toNat - level)).reverse.foldlM
    (fun entry level => greedyClosest (g.neighbours · level) dist g.len entry) entry

/-- Search, select and link on one level; the candidates are the next level's entry points. -/
def linkLevel (slot : Slot) (query : List F32) (state : Hnsw × List Slot) (level : ℕ) :
    Checked (Hnsw × List Slot) := do
  let g := state.1
  let candidates ← searchLayer (g.neighbours · level) (distanceTo g.metric g.vectors query) g.len
    state.2 g.params.efConstruction fun _ => true
  let selected ← selectHeuristic g.metric g.vectors candidates (g.capacity level)
  let linked ← g.setNeighbours slot level selected
  let linked ← selected.foldlM (fun g neighbour => g.linkBack slot level neighbour) linked
  return (linked, candidates.map Far.slot)

/-- Append a slot without links. -/
def grow (vectors : FlatVectors) (row : List F32) (level : UInt8) : Hnsw :=
  { g with
    vectors
    quantized := g.quantized.push row
    levels := g.levels ++ [level]
    level0 := g.level0 ++ List.replicate g.params.m0 0
    level0Len := g.level0Len ++ [0]
    upper := g.upper ++ [List.replicate (level.toNat * g.params.m) 0]
    upperLen := g.upperLen ++ [List.replicate level.toNat 0]
    tombstones :=
      if g.tombstones.length * 64 < g.levels.length + 1 then g.tombstones ++ [0]
      else g.tombstones }

/-- Link the newest slot from the top level it shares with the graph down to level 0. -/
def link (slot : Slot) (level : UInt8) (entry : Slot) (query : List F32) : Checked Hnsw := do
  let entry ← g.descend (distanceTo g.metric g.vectors query) entry level.toNat
  let top := min level.toNat g.maxLevel.toNat
  let (linked, _) ← (List.range (top + 1)).reverse.foldlM (linkLevel slot query) (g, [entry])
  return if level > g.maxLevel then { linked with entry := some slot, maxLevel := level }
    else linked

/-- The id of a new row as a slot. -/
def toSlot (id : ℕ) : Checked Slot :=
  if id < 2 ^ 32 then .ok (.ofNat id) else .error (.assertion "partition slot space exhausted")

/-- Insert a vector and return its slot. -/
def insert (vector : List F32) : Checked (Slot × Hnsw) := do
  let (id, vectors) ← (g.vectors.push vector g.metric).mapError .vector
  let slot ← toSlot id
  let row ← rowOf vectors "just pushed" slot
  let level := levelFor g.params slot
  let grown := g.grow vectors row level
  match g.entry with
  | none => .ok (slot, { grown with entry := some slot, maxLevel := level })
  | some entry => do
    let linked ← grown.link slot level entry row
    return (slot, linked)

/-! ## Rebuilding -/

def graphParts : GraphParts := g.toGraphParts

/-- The shape checks of a rebuilt graph. -/
def partsFit (params : HnswParams) (vectors : FlatVectors) (quantized : QuantizedVectors)
    (parts : GraphParts) : Bool :=
  let slots := vectors.len
  decide (quantized.len = slots ∧ parts.levels.length = slots ∧ parts.level0Len.length = slots ∧
    parts.level0.length = slots * params.m0 ∧ parts.upper.length = slots ∧
    parts.upperLen.length = slots ∧ parts.tombstones.length = (slots + 63) / 64) &&
  ((parts.levels.zip (parts.upper.zip parts.upperLen)).all fun (level, links, lens) =>
    decide (links.length = level.toNat * params.m ∧ lens.length = level.toNat)) &&
  match parts.entry with
  | some entry => decide (entry.toNat < slots)
  | none => decide (slots = 0)

/-- Rebuild a graph from serialized parts. -/
def fromParts (params : HnswParams) (metric : Metric) (vectors : FlatVectors)
    (quantized : QuantizedVectors) (parts : GraphParts) : Option Hnsw :=
  if partsFit params vectors quantized parts then some ⟨parts, params, metric, vectors, quantized⟩
  else none

/-- Serve the originals from other rows of the same shape; whether they fit. -/
def replaceVectors (vectors : FlatVectors) : Bool × Hnsw :=
  if vectors.dims ≠ g.vectors.dims ∨ vectors.len ≠ g.vectors.len then (false, g)
  else (true, { g with vectors })

/-- Bytes of the structure on the heap. -/
def accountedBytes : ℕ :=
  let vectors := g.vectors.residentBytes + g.quantized.accountedBytes
  let level0 := g.level0.length * 4 + g.level0Len.length
  let upper := (g.upper.map fun list => list.length * 4 + 24).sum +
    (g.upperLen.map fun list => list.length + 24).sum
  vectors + level0 + upper + g.levels.length + g.tombstones.length * 8

end Hnsw

end Index

end DistrHnsw
