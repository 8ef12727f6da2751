import DistrHnsw.Index.Snapshot
import DistrHnsw.Wal.Writer

/-!
# Partition configuration, errors and the idempotency window

The static configuration kept in the manifest, the errors of a partition, and the window of recent
operation ids that makes a repeated operation return its first outcome.
-/

namespace DistrHnsw

namespace Index

def defaultIdempotencyWindow : ℕ := 1000000

/-- Largest `k` a search accepts. -/
def maxK : ℕ := 10000

/-- Largest `ef` that a search or a configuration accepts. -/
def maxEf : ℕ := 100000

/-- Static configuration, persisted in the manifest at creation. -/
structure PartitionConfig where
  id : Uuid
  dims : ℕ
  metric : String
  m : ℕ
  m0 : ℕ
  efConstruction : ℕ
  seed : UInt64
  idempotencyWindow : ℕ
  ramBudgetBytes : Option ℕ
  headroomFraction : Float
  compactionTombstoneRatio : Float
  efSearch : Option ℕ
  /-- History begins with a snapshot that is not in the log. -/
  baseSnapshot : Bool

/-- Named crash boundaries. -/
inductive Failpoint where
  | afterWalAppend
  | afterWalSync
  | afterApply
  | snapshotBeforeRename
  | snapshotAfterRename
  | compactionBeforeSwap
  deriving DecidableEq, Repr

inductive PartitionError where
  | alreadyExists
  | queryLimit (what : String) (value max : ℕ)
  | baseSnapshotUnavailable (rejected : ℕ)
  | manifest (what : String)
  | zeroVector
  | injected (point : Failpoint)
  | overBudget (resident projected admissible budget headroom : ℕ)
  | missingHistory (snapshotHighWater : ℕ) (firstWalSeq : Option ℕ)
  | vector (error : VectorError)
  | wal (error : Wal.WalError)
  | snapshot (error : SnapshotError)
  | io
  /-- The process panics. -/
  | fault (fault : Fault)
  deriving DecidableEq, Repr

/-- A refused vector is an error of the call; everything else the engine stops with is a panic. -/
def PartitionError.ofFault : Fault → PartitionError
  | .vector error => .vector error
  | other => .fault other

namespace PartitionConfig

def params (c : PartitionConfig) : HnswParams := ⟨c.m, c.m0, c.efConstruction, c.seed⟩

def metricOf (c : PartitionConfig) : Except PartitionError Metric :=
  match Metric.parse c.metric with
  | some metric => .ok metric
  | none => .error (.manifest "unknown metric")

/-- Reject configurations the formats or the graph cannot represent. -/
def validate (c : PartitionConfig) : Except PartitionError Unit := do
  let _ ← c.metricOf
  if c.dims = 0 ∨ c.dims > Wal.maxDims then .error (.manifest "dims must be between 1 and 65536")
  else if ¬(2 ≤ c.m ∧ c.m ≤ 255) then .error (.manifest "m must be between 2 and 255")
  else if c.m0 < c.m ∨ c.m0 > 255 then .error (.manifest "m0 must be between m and 255")
  else if c.efConstruction = 0 ∨ c.efConstruction > maxEf then
    .error (.manifest "ef_construction must be between 1 and 100000")
  else if c.efSearch.any fun ef => decide (ef = 0 ∨ ef > maxEf) then
    .error (.manifest "ef_search must be between 1 and 100000")
  else if c.idempotencyWindow = 0 then .error (.manifest "idempotency window must be positive")
  else if !(0.0 ≤ c.headroomFraction && c.headroomFraction ≤ 0.9) then
    .error (.manifest "headroom fraction must be between 0 and 0.9")
  else if !(c.compactionTombstoneRatio > 0.0 && c.compactionTombstoneRatio ≤ 1.0) then
    .error (.manifest "compaction tombstone ratio must be in (0, 1]")
  else .ok ()

def defaultEfSearch : Metric → ℕ
  | .cosine => 500
  | .dot | .l2 => 100

/-- The `ef` used when a query does not choose one. -/
def efSearchOf (c : PartitionConfig) : ℕ :=
  c.efSearch.getD (((Metric.parse c.metric).map defaultEfSearch).getD (defaultEfSearch .l2))

/-- Bytes an upsert adds to the hot set under the published model. -/
def hotBytesPerInsert (c : PartitionConfig) (payloadLen : ℕ) : ℕ :=
  let graph := 54 + 8 * c.m
  c.dims + 8 + graph + 80 + payloadLen

theorem validate_eq_ok {c : PartitionConfig} (h : c.validate = .ok ()) :
    (∃ metric, c.metricOf = .ok metric) ∧ 0 < c.dims ∧ c.dims ≤ Wal.maxDims ∧ 2 ≤ c.m ∧
      c.m ≤ c.m0 ∧ c.m0 ≤ 255 ∧ c.efConstruction ≤ maxEf ∧ 0 < c.idempotencyWindow := by
  unfold validate at h
  obtain ⟨metric, hmetric, h⟩ := bind_eq_ok.1 h
  simp only [guard_eq_ok] at h
  obtain ⟨hdims, hm, hm0, hef, -, hwindow, -⟩ := h
  exact ⟨⟨metric, hmetric⟩, by omega, by omega, by omega, by omega, by omega, by omega, by omega⟩

end PartitionConfig

/-! ## The idempotency window -/

structure IdempotencyWindow where
  capacity : ℕ
  order : List OpId
  seqs : OpId → Option ℕ

namespace IdempotencyWindow

def new (capacity : ℕ) : IdempotencyWindow := ⟨max capacity 1, [], fun _ => none⟩

def get (w : IdempotencyWindow) (opId : OpId) : Option ℕ := w.seqs opId

/-- Drop the oldest ids until the capacity is kept. -/
def evict (capacity : ℕ) : List OpId → (OpId → Option ℕ) → List OpId × (OpId → Option ℕ)
  | [], seqs => ([], seqs)
  | old :: order, seqs =>
    if (old :: order).length > capacity then evict capacity order (Function.update seqs old none)
    else (old :: order, seqs)

def record (w : IdempotencyWindow) (opId : OpId) (seq : ℕ) : IdempotencyWindow :=
  let order := if (w.seqs opId).isNone then w.order ++ [opId] else w.order
  let (order, seqs) := evict w.capacity order (Function.update w.seqs opId (some seq))
  { w with order, seqs }

/-- The ids with their sequence numbers, oldest first. -/
def entries (w : IdempotencyWindow) : List (OpId × ℕ) :=
  w.order.filterMap fun id => (w.seqs id).map fun seq => (id, seq)

end IdempotencyWindow

end Index

end DistrHnsw
