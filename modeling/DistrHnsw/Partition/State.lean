import DistrHnsw.Index.Query
import DistrHnsw.Partition.Config

/-!
# A partition in memory

Keys, slots, versions and the graph, and how an entry changes them: `apply` is shared by the live
path and by replay.  A search reads the same structures.
-/

namespace DistrHnsw

namespace Index

open Wal (Entry Operation WalWriter)

/-- Key to its position in the key table and its live slot, if any. -/
abbrev KeyMap := Bytes → Option (UInt32 × Option Slot)

structure Partition where
  config : PartitionConfig
  metric : Metric
  index : Hnsw
  /-- Every key ever seen, in first-seen order. -/
  keyTable : List Bytes
  keys : KeyMap
  slots : List SlotRecord
  idempotency : IdempotencyWindow
  /-- Absent only while history is replayed. -/
  wal : Option WalWriter
  highWater : ℕ
  snapshotHighWater : ℕ
  failpoint : Option Failpoint

structure SearchHit where
  key : Bytes
  distance : F32
  payload : Bytes
  slot : Slot
  deriving DecidableEq

namespace Partition

variable (p : Partition)

/-- The state before any history. -/
def empty (config : PartitionConfig) (metric : Metric) : Partition where
  config := config
  metric := metric
  index := .new config.dims metric config.params
  keyTable := []
  keys _ := none
  slots := []
  idempotency := .new config.idempotencyWindow
  wal := none
  highWater := 0
  snapshotHighWater := 0
  failpoint := none

def liveCount : ℕ := p.index.liveLen

/-- Live slot for an external key. -/
def slotForKey (key : Bytes) : Option Slot := (p.keys key).bind Prod.snd

/-- Heap-resident bytes under the published model. -/
def residentBytes : ℕ :=
  let payloads := (p.slots.map fun slot => slot.payload.length + 32).sum
  let keys := (p.keyTable.map fun key => key.length + 48).sum
  p.index.accountedBytes + payloads + keys + p.idempotency.order.length * 40

/-! ## Applying an entry -/

/-- A call of the graph. -/
def checked {α : Type} (x : Checked α) : Except PartitionError α := x.mapError .ofFault

/-- Mask a slot in the graph and in its record. -/
def tombstone (index : Hnsw) (slots : List SlotRecord) (slot : Slot) :
    Checked (Hnsw × List SlotRecord) := do
  let (_, masked) ← index.tombstone slot
  let record ← Index.index slots slot.toNat
  return (masked, slots.set slot.toNat { record with tombstone := true })

/-- Position of a key in the table, which takes in a key that it has never seen. -/
def keyPosition (key : Bytes) : UInt32 × List Bytes :=
  match p.keys key with
  | some (index, _) => (index, p.keyTable)
  | none => (.ofNat p.keyTable.length, p.keyTable ++ [key])

def applyUpsert (seq : ℕ) (key payload : Bytes) (vector : List F32) :
    Except PartitionError Partition :=
  if vector.length ≠ p.config.dims then
    .error (.vector (.wrongDims p.config.dims vector.length))
  else do
    let (slot, inserted) ← checked (p.index.insert vector)
    let (keyIndex, keyTable) := p.keyPosition key
    let (index, slots) ← match p.slotForKey key with
      | some previous => checked (tombstone inserted p.slots previous)
      | none => .ok (inserted, p.slots)
    return { p with
      index, keyTable
      keys := Function.update p.keys key (some (keyIndex, some slot))
      slots := slots ++ [⟨seq, false, keyIndex, payload⟩] }

def applyDelete (key : Bytes) : Except PartitionError Partition :=
  match p.keys key with
  | some (keyIndex, some previous) => do
    let (index, slots) ← checked (tombstone p.index p.slots previous)
    return { p with index, slots, keys := Function.update p.keys key (some (keyIndex, none)) }
  | _ => .ok p

/-- Apply an entry to the state in memory. -/
def apply (entry : Entry) : Except PartitionError Partition := do
  let applied ← match entry.operation with
    | .upsert key payload vector => p.applyUpsert entry.seq key payload vector
    | .delete key => p.applyDelete key
  return { applied with
    idempotency := applied.idempotency.record entry.opId entry.seq
    highWater := entry.seq }

/-! ## Searching -/

/-- Allowed sets of at most this many slots are answered exactly. -/
def filterCutover (ef : ℕ) : ℕ := min (200 * max ef 1) (2 ^ 64 - 1)

/-- A hit with its key and payload. -/
def describe (hit : Hit) : Checked SearchHit := do
  let slot : Slot := .ofNat hit.id
  let record ← Index.index p.slots slot.toNat
  let key ← Index.index p.keyTable record.keyIndex.toNat
  return ⟨key, hit.distance, record.payload, slot⟩

/-- Approximate top `k` over live records, with a filter over slots if one is given. -/
def search (query : List F32) (k ef : ℕ) (filter : Option Bitmap) :
    Except PartitionError (List SearchHit) :=
  if query.length ≠ p.config.dims then
    .error (.vector (.wrongDims p.config.dims query.length))
  else if query.any fun value => !value.isFinite then .error (.vector .nonFinite)
  else if k > maxK then .error (.queryLimit "k" k maxK)
  else if ef > maxEf then .error (.queryLimit "ef" ef maxEf)
  else if p.metric.normalizes && !(normalize query).1 then .error .zeroVector
  else do
    let q := FlatVectors.stored query p.metric
    let hits ← checked (match filter with
      | some allowed =>
        p.index.searchFiltered q k ef (.int8Default k) allowed (filterCutover ef)
      | none => p.index.searchWith q k ef (.int8Default k) none)
    checked (hits.mapM p.describe)

/-- Search with the default `ef` of the collection. -/
def searchDefault (query : List F32) (k : ℕ) (filter : Option Bitmap) :
    Except PartitionError (List SearchHit) := p.search query k p.config.efSearchOf filter

/-! ## Admission -/

/-- Refuse an upsert that would push the hot set past the budget without its headroom. -/
def admits (payloadLen : ℕ) : Except PartitionError Unit :=
  match p.config.ramBudgetBytes with
  | none => .ok ()
  | some budget =>
    let fraction := p.config.headroomFraction
    let fraction := if fraction < 0.0 then 0.0 else if 0.9 < fraction then 0.9 else fraction
    let headroom := (budget.toFloat * fraction).toUInt64.toNat
    let limit := budget - headroom
    let projected := p.residentBytes + p.config.hotBytesPerInsert payloadLen
    if projected > limit then
      .error (.overBudget p.residentBytes projected limit budget headroom)
    else .ok ()

end Partition

end Index

end DistrHnsw
