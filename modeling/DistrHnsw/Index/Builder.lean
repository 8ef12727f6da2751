import DistrHnsw.Index.Hnsw
import DistrHnsw.Lib.Together
import Mathlib.Data.List.Sort

/-!
# The parallel builder

Each slot is inserted by a program of its own over neighbour lists that all of them share.  A list is
read or updated under its lock, in one atomic step; between two steps of one insertion others may go
on.  Chunks of insertions run one after the other, and the finished lists are copied into the flat
buffers of a graph, where a repair gives every slot a level-0 in-link.
-/

namespace DistrHnsw

namespace Index

/-! ## Shared lists -/

/-- Neighbour lists, each under a lock of its own. -/
structure LockedLinks where
  /-- One list per slot for level 0. -/
  level0 : List (List Slot)
  /-- Upper lists per slot, one per level above 0. -/
  upper : List (List (List Slot))
  deriving DecidableEq

namespace LockedLinks

def new (levels : List UInt8) : LockedLinks where
  level0 := levels.map fun _ => []
  upper := levels.map fun level => List.replicate level.toNat []

variable (links : LockedLinks)

def list (slot : Slot) (level : ℕ) : Checked (List Slot) :=
  if level = 0 then index links.level0 slot.toNat
  else do
    let lists ← index links.upper slot.toNat
    index lists (level - 1)

def setList (slot : Slot) (level : ℕ) (list : List Slot) : Checked LockedLinks :=
  if level = 0 then do
    let level0 ← setAt links.level0 slot.toNat list
    return { links with level0 }
  else do
    let lists ← index links.upper slot.toNat
    let lists ← setAt lists (level - 1) list
    let upper ← setAt links.upper slot.toNat lists
    return { links with upper }

end LockedLinks

/-- An update of one list under its lock. -/
inductive LinkWrite where
  /-- Put the selected neighbours into the slot's own list. -/
  | own (slot : Slot) (level : ℕ) (selected : List Slot)
  /-- Add the slot to the list of a neighbour. -/
  | back (slot : Slot) (level : ℕ) (neighbour : Slot)
  deriving DecidableEq

/-- Candidates by distance; the sort is one that a run of the builder can be evaluated with. -/
def sortFar (candidates : List Far) : List Far := candidates.insertionSort fun a b => a.le b = true

theorem perm_sortFar (candidates : List Far) : (sortFar candidates).Perm candidates :=
  List.perm_insertionSort _ candidates

/-- What all insertions read and none changes. -/
structure BuildCore where
  metric : Metric
  vectors : FlatVectors
  params : HnswParams

namespace BuildCore

variable (core : BuildCore)

def capacity (level : ℕ) : ℕ := if level = 0 then core.params.m0 else core.params.m

/-- Candidates with their distances to a row. -/
def far (row : List F32) (slots : List Slot) : Checked (List Far) :=
  slots.mapM fun s => do
    let d ← distanceTo core.metric core.vectors row s
    return (⟨d, s⟩ : Far)

/-- HNSW Algorithm 4, as on the sequential path. -/
def selectHeuristic (candidates : List Far) (m : ℕ) : Checked (List Slot) := do
  let (selected, pruned) ←
    (sortFar candidates).foldlM (selectStep core.metric core.vectors m) ([], [])
  return selected ++ pruned.take (m - selected.length)

def select (candidates : List Far) (level : ℕ) : Checked (List Slot) :=
  core.selectHeuristic candidates (core.capacity level)

/-- A slot's own list: others may have linked back to the slot already, so what is there is merged
with the selected neighbours and pruned. -/
def merge (slot : Slot) (level : ℕ) (selected own : List Slot) : Checked (List Slot) :=
  if own.isEmpty then .ok selected
  else do
    let query ← rowOf core.vectors "slot" slot
    let merged ← core.far query (selected ++ own.filter fun s => !selected.contains s)
    core.select merged level

/-- A neighbour's list with the slot, pruned when it is full. -/
def linkBack (slot : Slot) (level : ℕ) (neighbour : Slot) (list : List Slot) : Checked (List Slot) :=
  if list.length < core.capacity level then .ok (list ++ [slot])
  else do
    let base ← rowOf core.vectors "slot" neighbour
    let withNew ← core.far base (list ++ [slot])
    core.select withNew level

def perform (w : LinkWrite) (links : LockedLinks) : Checked LockedLinks :=
  match w with
  | .own slot level selected => do
    let own ← links.list slot level
    let own ← core.merge slot level selected own
    links.setList slot level own
  | .back slot level neighbour => do
    let list ← links.list neighbour level
    let list ← core.linkBack slot level neighbour list
    links.setList neighbour level list

/-- The lists that the insertions share. -/
abbrev world : World where
  Store := LockedLinks
  Write := LinkWrite
  Error := Fault
  Query := Empty
  Answer := nofun
  perform := core.perform

/-- A thread that panics stops. -/
instance threadFaults : MonadExceptOf Fault (Program core.world) where
  throw _ := .fail
  tryCatch thread _ := thread

/-- A copy of one list. -/
def snapshot (slot : Slot) (level : ℕ) : Program core.world (List Slot) := do
  let links ← Program.get
  check (LockedLinks.list links slot level)

def dist (query : List F32) (slot : Slot) : Program core.world F32 :=
  check (distanceTo core.metric core.vectors query slot)

/-- Search, select and link on one level; the candidates are the next level's entry points. -/
def insertLevel (slot : Slot) (query : List F32) (entries : List Slot) (level : ℕ) :
    Program core.world (List Slot) := do
  let candidates ← searchLayer (core.snapshot · level) (core.dist query) core.vectors.len entries
    core.params.efConstruction fun _ => true
  let selected ← check (core.select candidates level)
  Program.perform (.own slot level selected)
  forM selected fun neighbour => Program.perform (.back slot level neighbour)
  return candidates.map Far.slot

/-- Insert a slot: descend through the levels above its own, then link on the others. -/
def insert (slot : Slot) (level : ℕ) (entry : Slot) (maxLevel : ℕ) : Program core.world Unit := do
  let query ← check (rowOf core.vectors "slot" slot)
  let current ← (List.range' (level + 1) (maxLevel - level)).reverse.foldlM
    (fun current level =>
      greedyClosest (core.snapshot · level) (core.dist query) core.vectors.len current) entry
  let _ ← (List.range (min level maxLevel + 1)).reverse.foldlM (core.insertLevel slot query) [current]
  return ()

/-! ## Chunks of insertions -/

/-- The level of a slot. -/
def levelAt (levels : List UInt8) (slot : Slot) : ℕ := (levels.getD slot.toNat 0).toNat

/-- The insertions of a chunk, one thread for each slot. -/
def threads (levels : List UInt8) (entry : Slot) (maxLevel : ℕ) (chunk : List Slot) (slot : Slot) :
    Program core.world Unit :=
  if slot ∈ chunk then core.insert slot (levelAt levels slot) entry maxLevel else .done ()

/-- Every chunk is inserted, in any interleaving, before the next one starts. -/
inductive Inserted (levels : List UInt8) (entry : Slot) (maxLevel : ℕ) :
    List (List Slot) → LockedLinks → LockedLinks → Prop
  | done (links : LockedLinks) : Inserted levels entry maxLevel [] links links
  | chunk {chunk : List Slot} {rest : List (List Slot)} {links middle links' : LockedLinks}
      {past : List (Program.Event core.world)}
      (run : Program.Together (O := .any core.world) (core.threads levels entry maxLevel chunk)
        ⟨links, (), []⟩ (fun _ => .done ()) ⟨middle, (), past⟩)
      (later : Inserted levels entry maxLevel rest middle links') :
      Inserted levels entry maxLevel (chunk :: rest) links links'

end BuildCore

/-- The slots below a count, which is cut to 32 bits. -/
def slotRange (slots : ℕ) : List Slot := (List.range (slots % 2 ^ 32)).map UInt32.ofNat

/-- Chunks that double in size up to a limit. -/
def chunksOf : ℕ → ℕ → List Slot → List (List Slot)
  | _, _, [] => []
  | 0, _, _ => []
  | fuel + 1, size, order =>
    order.take size :: chunksOf fuel (min (size * 2) (2 ^ 16)) (order.drop size)

/-! ## The graph -/

/-- The slot of the highest level, the first of several. -/
def highest (levels : List UInt8) : Option (Slot × UInt8) :=
  levels.zipIdx.foldl (fun best (level, slot) =>
    match best with
    | some (first, top) => if level > top then some (.ofNat slot, level) else some (first, top)
    | none => some (.ofNat slot, level)) none

/-- A list at the start of its buffer. -/
def slotBuffer (capacity : ℕ) (list : List Slot) : Checked (List Slot) :=
  copyFromSlice (List.replicate capacity 0) 0 list

/-- The lists in flat buffers, with the rows and their quantized copies. -/
def compact (core : BuildCore) (levels : List UInt8) (entry : Slot) (maxLevel : UInt8)
    (links : LockedLinks) : Checked Hnsw := do
  let level0 ← links.level0.mapM (slotBuffer core.params.m0)
  let upper ← links.upper.mapM fun lists => do
    let lists ← lists.mapM (slotBuffer core.params.m)
    return lists.flatten
  return {
    params := core.params
    metric := core.metric
    vectors := core.vectors
    quantized := core.vectors.rows.foldl QuantizedVectors.push (.new core.vectors.dims)
    levels
    level0 := level0.flatten
    level0Len := links.level0.map fun list => .ofNat list.length
    upper
    upperLen := links.upper.map fun lists => lists.map fun list => .ofNat list.length
    tombstones := List.replicate ((core.vectors.len + 63) / 64) 0
    tombstoneCount := 0
    entry := some entry
    maxLevel }

/-! ## The repair -/

/-- How often each slot is named on level 0. -/
def inDegrees (g : Hnsw) : Checked (List ℕ) :=
  (slotRange g.len).foldlM (fun degrees slot => do
    let list ← g.neighbours slot 0
    list.foldlM (fun degrees n => do
      let degree ← index degrees n.toNat
      setAt degrees n.toNat (degree + 1)) degrees) (List.replicate g.len 0)

/-- The graph under repair with its in-degrees. -/
structure Repair where
  graph : Hnsw
  inDegree : List ℕ

namespace Repair

variable (r : Repair)

def degree (slot : Slot) : Checked ℕ := index r.inDegree slot.toNat

/-- The farthest of some links, the first of several. -/
def farthest : List (ℕ × F32) → Option (ℕ × F32)
  | [] => none
  | first :: rest => some (rest.foldl (fun best link =>
      if ((best.2.partialCmp link.2).getD .eq).then (compare link.1 best.1) = .gt then best else link)
      first)

/-- The farthest link of a full host to a slot that keeps another in-link. -/
def replaceable (host : Slot) (list : List Slot) : Checked (Option ℕ) := do
  let row ← rowOf r.graph.vectors "slot" host
  let links ← list.zipIdx.filterMapM fun (slot, i) => do
    let degree ← r.degree slot
    if degree > 1 then do
      let d ← distanceTo r.graph.metric r.graph.vectors row slot
      return some (i, d)
    else return none
  return (farthest links).map Prod.fst

/-- Give the orphan an in-link from the host, when it has room or a link to spare. -/
def tryHost (orphan host : Slot) : Checked (Option Repair) := do
  let list ← r.graph.neighbours host 0
  let start := host.toNat * r.graph.params.m0
  if list.length < r.graph.params.m0 then do
    let graph ← r.graph.writeLinks host 0 list.length [orphan] (.ofNat (list.length + 1))
    let degree ← r.degree orphan
    let inDegree ← setAt r.inDegree orphan.toNat (degree + 1)
    return some ⟨graph, inDegree⟩
  else
    match ← r.replaceable host list with
    | none => return none
    | some i => do
      let old ← index list i
      let degree ← r.degree old
      let inDegree ← setAt r.inDegree old.toNat (degree - 1)
      let level0 ← setAt r.graph.level0 (start + i) orphan
      let degree ← index inDegree orphan.toNat
      let inDegree ← setAt inDegree orphan.toNat (degree + 1)
      return some ⟨{ r.graph with level0 }, inDegree⟩

/-- Try the hosts in turn. -/
def adopt (orphan : Slot) : List Far → Checked Repair
  | [] => .ok r
  | host :: rest => do
    match ← r.tryHost orphan host.slot with
    | some repaired => return repaired
    | none => adopt orphan rest

/-- Look at one slot. -/
def visit (orphan : Slot) : Checked Repair := do
  let degree ← r.degree orphan
  if degree > 0 ∨ some orphan = r.graph.entry then return r
  else do
    let base ← rowOf r.graph.vectors "slot" orphan
    let list ← r.graph.neighbours orphan 0
    let hosts ← list.mapM fun s => do
      let d ← distanceTo r.graph.metric r.graph.vectors base s
      return (⟨d, s⟩ : Far)
    r.adopt orphan (sortFar hosts)

end Repair

/-- Give every slot without a level-0 in-link one. -/
def linkLevel0Orphans (g : Hnsw) : Checked Hnsw := do
  let inDegree ← inDegrees g
  let repaired ← (slotRange g.len).foldlM Repair.visit ⟨g, inDegree⟩
  return repaired.graph

/-- A graph that the parallel builder may return over some rows with given levels. -/
def Builds (core : BuildCore) (levels : List UInt8) (g : Hnsw) : Prop :=
  match highest levels with
  | none => g = .new core.vectors.dims core.metric core.params
  | some (entry, maxLevel) =>
    let order := (slotRange levels.length).filter (· ≠ entry)
    ∃ links built, core.Inserted levels entry maxLevel.toNat (chunksOf order.length 1 order)
        (.new levels) links ∧
      compact core levels entry maxLevel links = .ok built ∧ linkLevel0Orphans built = .ok g

/-- A graph that the parallel builder may return. -/
def BuildsParallel (vectors : FlatVectors) (metric : Metric) (params : HnswParams) (g : Hnsw) : Prop :=
  Builds ⟨metric, vectors, params⟩
    ((List.range vectors.len).map fun slot => levelFor params (.ofNat slot)) g

end Index

end DistrHnsw
