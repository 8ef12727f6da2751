import DistrHnsw.Partition.Disk

/-!
# Recovery and compaction

Recovery loads the newest verifiable snapshot and replays the log behind it, exactly once and in
order.  Compaction copies the live slots, rebuilds the graph over them, and replays what was logged
meanwhile.
-/

namespace DistrHnsw

namespace Index

open Wal (Entry Operation WalWriter SegmentRead readSegment)
open Device (orFail)

/-- What recovery found and did. -/
structure RecoveryReport where
  partitionId : Uuid
  snapshotUsed : Option ℕ
  snapshotHighWater : ℕ
  snapshotsRejected : List (ℕ × SnapshotError)
  walSegmentsRead : ℕ
  walEntriesReplayed : ℕ
  walEntriesSkipped : ℕ
  tornTailsTruncated : List (ℕ × ℕ)
  tornTailFound : Option (ℕ × ℕ)
  highWater : ℕ

/-- Live state captured at the rebuild point. -/
structure CompactionInput where
  rebuildPoint : ℕ
  metric : Metric
  params : HnswParams
  vectors : FlatVectors
  /-- Old slot of each new slot, in slot order. -/
  oldSlots : List Slot
  slots : List SlotRecord
  keyTable : List Bytes
  keys : KeyMap
  idempotency : List (OpId × ℕ)

/-- The frozen rebuild. -/
structure CompactionPlan where
  rebuildPoint : ℕ
  index : Hnsw
  keyTable : List Bytes
  keys : KeyMap
  slots : List SlotRecord
  idempotency : List (OpId × ℕ)

structure CompactionReport where
  rebuildPoint : ℕ
  caughtUpEntries : ℕ
  slotsBefore : ℕ
  tombstonesBefore : ℕ
  slotsAfter : ℕ
  snapshot : ℕ
  deriving DecidableEq

namespace IdempotencyWindow

/-- A window with some entries recorded in order. -/
def ofEntries (capacity : ℕ) (entries : List (OpId × ℕ)) : IdempotencyWindow :=
  entries.foldl (fun w entry => w.record entry.1 entry.2) (new capacity)

end IdempotencyWindow

/-! ## Recovery -/

section Recover

variable [Digests]

/-- The first file that loads, newest first, and the files rejected before it. -/
def newestSnapshot (id : Uuid) : List (ℕ × Bytes) →
    Option (ℕ × LoadedSnapshot) × List (ℕ × SnapshotError)
  | [] => (none, [])
  | (path, bytes) :: older =>
    match load bytes id with
    | .ok snapshot => (some (path, snapshot), [])
    | .error e =>
      let (loaded, rejected) := newestSnapshot id older
      (loaded, (path, e) :: rejected)

namespace Partition

omit [Digests] in
/-- The key table and the key map of a snapshot. -/
def keysOf (keys : List (Bytes × Slot)) : List Bytes × KeyMap :=
  (keys.map Prod.fst, (enumerate keys).foldl (fun map (i, key, live) =>
    Function.update map key (some (.ofNat i, if live = noSlot then none else some live)))
    fun _ => none)

omit [Digests] in
/-- The state that a snapshot holds. -/
def ofSnapshot (config : PartitionConfig) (metric : Metric) (s : LoadedSnapshot) :
    Except PartitionError Partition :=
  if s.dims ≠ config.dims ∨ s.metric ≠ metric then
    .error (.manifest "snapshot disagrees with manifest")
  else if s.params ≠ config.params then
    .error (.manifest "snapshot graph parameters disagree with manifest")
  else match Hnsw.fromParts s.params metric s.vectors s.quantized s.graph with
    | none => .error (.snapshot (.malformed "graph shape"))
    | some index =>
      let (keyTable, keys) := keysOf s.keys
      .ok { empty config metric with
        index, keyTable, keys
        slots := s.slots
        idempotency := .ofEntries config.idempotencyWindow s.idempotency
        highWater := s.highWater
        snapshotHighWater := s.highWater }

omit [Digests] in
/-- Replay one entry that the state does not hold yet. -/
def replayEntry (path : ℕ) (state : Partition × RecoveryReport) (entry : Entry) :
    Except PartitionError (Partition × RecoveryReport) :=
  let (p, report) := state
  if entry.seq ≤ p.highWater then
    .ok (p, { report with walEntriesSkipped := report.walEntriesSkipped + 1 })
  else if entry.seq ≠ p.highWater + 1 then
    .error (.wal (.sequenceGap path (p.highWater + 1) entry.seq))
  else do
    let p ← p.apply entry
    return (p, { report with walEntriesReplayed := report.walEntriesReplayed + 1 })

/-- The state of the replay: the partition, the report, whether some segment continues the snapshot,
and the last sequence number seen. -/
structure Replay where
  partition : Partition
  report : RecoveryReport
  sawHistory : Bool
  walEnd : Option ℕ

/-- Validate one segment and replay its entries. -/
def replaySegment (id : Uuid) (newest : ℕ) (state : Replay) (segment : ℕ × ℕ × Bytes) :
    Except PartitionError Replay := do
  let (position, first, bytes) := segment
  let report := { state.report with walSegmentsRead := state.report.walSegmentsRead + 1 }
  let read ← (readSegment first bytes id (position == newest)).mapError .wal
  let report := match read.tornTail with
    | some (offset, _) => { report with tornTailFound := some (first, offset) }
    | none => report
  let sawHistory := state.sawHistory || decide (first ≤ succ64 state.partition.highWater)
  let end_ := read.lastSeq.getD (first - 1)
  let walEnd := some (match state.walEnd with | none => end_ | some seen => max seen end_)
  let (partition, report) ← read.entries.foldlM (replayEntry first) (state.partition, report)
  return ⟨partition, report, sawHistory, walEnd⟩

/-- Rebuild the state of a directory without changing it. -/
def recover (manifest : Option PartitionConfig) (wal snap : Dir Bytes) :
    Except PartitionError (Partition × RecoveryReport) :=
  match manifest with
  | none => .error .io
  | some config => do
    config.validate
    let metric ← config.metricOf
    let (loaded, rejected) := newestSnapshot config.id snap.files.reverse
    let report : RecoveryReport := ⟨config.id, none, 0, rejected, 0, 0, 0, [], none, 0⟩
    let (partition, report) ← match loaded with
      | some (path, s) => do
        let partition ← ofSnapshot config metric s
        pure (partition, { report with snapshotUsed := some path, snapshotHighWater := s.highWater })
      | none =>
        if config.baseSnapshot then .error (.baseSnapshotUnavailable rejected.length)
        else .ok (empty config metric, report)
    let segments := wal.files
    let replay ← (enumerate segments).foldlM (replaySegment config.id (segments.length - 1))
      ⟨partition, report, decide (partition.highWater = 0 ∧ segments = []), none⟩
    if !replay.sawHistory || replay.walEnd.any (· < replay.report.snapshotHighWater) then
      .error (.missingHistory replay.report.snapshotHighWater (segments.head?.map Prod.fst))
    else return (replay.partition,
      { replay.report with highWater := replay.partition.highWater })

omit [Digests] in
/-- Remove a torn tail: cut the file, or remove a segment whose header was never written. -/
def truncateTornTail (wal : Device) (path offset : ℕ) : Except Wal.WalError Unit × Device :=
  if offset < Wal.headerLen then
    orFail (wal.remove path) .io fun wal => orFail wal.touch .io fun wal => (.ok (), wal)
  else
    orFail wal.touch .io fun wal => orFail (wal.truncate path offset) .io fun wal =>
      orFail wal.touch .io fun wal => (.ok (), wal)

/-- Recover a partition and open it for writes; a torn tail is cut only after the whole log was
validated. -/
def «open» (d : Disk) : Except PartitionError (Partition × RecoveryReport) × Disk :=
  match recover d.manifest d.wal.files d.snap.files with
  | .error e => (.error e, d)
  | .ok (p, report) =>
    let repaired := match report.tornTailFound with
      | some (path, offset) => truncateTornTail d.wal path offset
      | none => (.ok (), d.wal)
    match repaired with
    | (.error e, wal) => (.error (.wal e), { d with wal })
    | (.ok (), wal) =>
      let report := { report with
        tornTailFound := none
        tornTailsTruncated := report.tornTailsTruncated ++ report.tornTailFound.toList }
      match WalWriter.open wal p.config.id p.highWater with
      | (.error e, wal) => (.error (.wal e), { d with wal })
      | (.ok writer, wal) => (.ok ({ p with wal := some writer }, report), { d with wal })

/-- Verify a partition without changing it. -/
def inspect (d : Disk) : Except PartitionError RecoveryReport :=
  (recover d.manifest d.wal.files d.snap.files).map Prod.snd

/-! ## Creation -/

/-- Create an empty partition directory; fails when it has a manifest. -/
def create (d : Disk) (config : PartitionConfig) : Except PartitionError Partition × Disk :=
  match (do config.validate; config.metricOf : Except PartitionError Metric) with
  | .error e => (.error e, d)
  | .ok metric =>
    if d.manifest.isSome then (.error .alreadyExists, d)
    else
      let d := { d with manifest := some config }
      match WalWriter.open d.wal config.id 0 with
      | (.error e, wal) => (.error (.wal e), { d with wal })
      | (.ok writer, wal) => (.ok { empty config metric with wal := some writer }, { d with wal })

omit [Digests] in
/-- The key table, the key map and the records of a bulk load. -/
def bulkRows (keys : List Bytes) : Except PartitionError (KeyMap × List SlotRecord) :=
  (enumerate keys).foldlM (fun (map, slots) (slot, key) =>
    if (map key).isSome then .error (.manifest "bulk load keys must be unique")
    else .ok (Function.update map key (some (.ofNat slot, some (.ofNat slot))),
      slots ++ [⟨0, false, .ofNat slot, []⟩])) (fun _ => none, [])

/-- Create a partition from a fixed set of vectors, and persist it as a snapshot; `index` is what the
parallel builder returns over them. -/
def bulkLoad (d : Disk) (config : PartitionConfig) (vectors : FlatVectors) (keys : List Bytes)
    (index : Hnsw) : Except PartitionError (Partition × ℕ) × Disk :=
  match create d { config with baseSnapshot := true } with
  | (.error e, d) => (.error e, d)
  | (.ok p, d) =>
    if vectors.dims ≠ p.config.dims then
      (.error (.vector (.wrongDims p.config.dims vectors.dims)), d)
    else
      let keyTable := keys.take vectors.len
      match bulkRows keyTable with
      | .error e => (.error e, d)
      | .ok (keyMap, slots) =>
        if keyTable.length ≠ vectors.len then
          (.error (.manifest "bulk load needs one key per vector"), d)
        else
          match snapshot { p with index, keyTable, keys := keyMap, slots } d.snap with
          | (.error e, _, snap) => (.error e, { d with snap })
          | (.ok path, p, snap) => (.ok (p, path), { d with snap })

/-! ## Compaction -/

omit [Digests] in
/-- Copy one live slot. -/
def captureStep (p : Partition) (copied : FlatVectors × List Slot × List SlotRecord)
    (slot : ℕ × SlotRecord) : Except PartitionError (FlatVectors × List Slot × List SlotRecord) :=
  if slot.2.tombstone then .ok copied
  else match p.index.vectors.get slot.1 with
    | none => .error (.manifest "slot without vector")
    | some row => do
      let (_, vectors) ← (copied.1.push row .l2).mapError .vector
      return (vectors, copied.2.1 ++ [.ofNat slot.1], copied.2.2 ++ [slot.2])

omit [Digests] in
/-- Freeze the rebuild point and copy the live slots, in slot order. -/
def captureCompaction (p : Partition) : Except PartitionError CompactionInput := do
  let (vectors, oldSlots, slots) ←
    (enumerate p.slots).foldlM (captureStep p) (.new p.config.dims, [], [])
  return {
    rebuildPoint := p.highWater
    metric := p.metric
    params := p.config.params
    vectors, oldSlots, slots
    keyTable := p.keyTable
    keys := p.keys
    idempotency := p.idempotency.entries }

omit [Digests] in
/-- The new slot of each old one. -/
def oldToNew (oldSlots : List Slot) : Slot → Option Slot :=
  (enumerate oldSlots).foldl (fun map (new, old) => Function.update map old (some (.ofNat new)))
    fun _ => none

omit [Digests] in
/-- The plan over the graph that the parallel builder returns for the captured rows. -/
def build (input : CompactionInput) (index : Hnsw) : CompactionPlan where
  rebuildPoint := input.rebuildPoint
  index := index
  keyTable := input.keyTable
  keys key := (input.keys key).map fun (keyIndex, live) =>
    (keyIndex, live.bind (oldToNew input.oldSlots))
  slots := input.slots
  idempotency := input.idempotency

omit [Digests] in
/-- The rebuilt state, before it catches up. -/
def staged (p : Partition) (plan : CompactionPlan) : Partition :=
  { empty p.config p.metric with
    index := plan.index
    keyTable := plan.keyTable
    keys := plan.keys
    slots := plan.slots
    idempotency := .ofEntries p.config.idempotencyWindow plan.idempotency
    highWater := plan.rebuildPoint
    snapshotHighWater := p.snapshotHighWater }

omit [Digests] in
/-- Apply one entry that was acknowledged after the rebuild point. -/
def catchUpEntry (rebuildPoint highWater path : ℕ) (state : Partition × ℕ) (entry : Entry) :
    Except PartitionError (Partition × ℕ) :=
  if entry.seq ≤ rebuildPoint ∨ entry.seq > highWater then .ok state
  else if entry.seq ≠ state.1.highWater + 1 then
    .error (.wal (.sequenceGap path (state.1.highWater + 1) entry.seq))
  else do
    let p ← state.1.apply entry
    return (p, state.2 + 1)

def catchUpSegment (id : Uuid) (newest rebuildPoint highWater : ℕ) (state : Partition × ℕ)
    (segment : ℕ × ℕ × Bytes) : Except PartitionError (Partition × ℕ) :=
  let (position, first, bytes) := segment
  if first > highWater then .ok state
  else do
    let read ← (readSegment first bytes id (position == newest)).mapError .wal
    read.entries.foldlM (catchUpEntry rebuildPoint highWater first) state

/-- Catch up from the log, write the snapshot of the rebuilt state, and swap it in. -/
def finishCompaction (p : Partition) (d : Disk) (plan : CompactionPlan) :
    Except PartitionError CompactionReport × Partition × Disk :=
  let segments := d.wal.files.files
  match (enumerate segments).foldlM
      (catchUpSegment p.config.id (segments.length - 1) plan.rebuildPoint p.highWater)
      (p.staged plan, 0) with
  | .error e => (.error e, p, d)
  | .ok (staged, replayed) =>
    if staged.highWater ≠ p.highWater then
      (.error (.missingHistory staged.highWater (some p.highWater)), p, d)
    else match staged.snapshot d.snap with
      | (.error e, _, snap) => (.error e, p, { d with snap })
      | (.ok path, staged, snap) =>
        if p.failpoint = some .compactionBeforeSwap then
          (.error (.injected .compactionBeforeSwap), p, { d with snap })
        else
          let swapped := { p with
            index := staged.index
            keyTable := staged.keyTable
            keys := staged.keys
            slots := staged.slots
            idempotency := staged.idempotency
            snapshotHighWater := p.highWater }
          (.ok ⟨plan.rebuildPoint, replayed, p.slots.length, p.index.tombstoneCount,
            swapped.slots.length, path⟩, swapped, { d with snap })

end Partition

end Recover

end Index

end DistrHnsw
