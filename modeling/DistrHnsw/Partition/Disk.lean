import DistrHnsw.Partition.State

/-!
# A partition on disk

Mutations go through the log: an entry is appended, synced, applied, and only then acknowledged.
Snapshots are written beside the one they replace and renamed over it; segments of the log that a
snapshot covers can be removed.
-/

namespace DistrHnsw

namespace Index

open Wal (Entry Operation WalWriter)
open Device (orFail)

/-- Outcome of a mutation. -/
structure Applied where
  seq : ℕ
  /-- The operation id was already in the window and nothing was applied again. -/
  deduplicated : Bool
  deriving DecidableEq, Repr

/-- The directory of a partition. -/
structure Disk where
  manifest : Option PartitionConfig
  wal : Device
  snap : Device

section

variable [Digests]

/-- Write a snapshot beside the final name, sync it, and rename it unless the hook says no. -/
def writeWithHook (snap : Device) (input : SnapshotInput) (proceed : Bool) :
    Except SnapshotError ℕ × Device :=
  orFail snap.touch .io fun snap =>
  match encode input with
  | .error e => (.error e, snap)
  | .ok bytes =>
    orFail snap.touch .io fun snap =>
    orFail snap.touch .io fun snap =>
    if !proceed then (.error .io, snap)
    else
      orFail (snap.rename input.highWater bytes) .io fun snap =>
      orFail snap.touch .io fun snap =>
      (.ok input.highWater, snap)

end

namespace Partition

variable (p : Partition)

/-! ## Mutations -/

def poisoned : Partition := { p with wal := p.wal.map WalWriter.poison }

/-- Sync the entry and apply it. -/
def syncAndApply (wal : Device) (entry : Entry) : Except PartitionError Unit × Partition × Device :=
  if p.failpoint = some .afterWalAppend then (.error (.injected .afterWalAppend), p, wal)
  else match p.wal with
    | none => (.error (.fault (.assertion "writer is open after recovery")), p, wal)
    | some writer =>
      match writer.sync wal with
      | (.error e, writer, wal) => (.error (.wal e), { p with wal := some writer }, wal)
      | (.ok (), writer, wal) =>
        let p := { p with wal := some writer }
        if p.failpoint = some .afterWalSync then (.error (.injected .afterWalSync), p, wal)
        else match p.apply entry with
          | .error e => (.error e, p, wal)
          | .ok p => (.ok (), p, wal)

variable [Digests]

/-- Log one operation and apply it; whatever fails behind the append poisons the writer. -/
def mutate (wal : Device) (opId : OpId) (operation : Operation) :
    Except PartitionError Applied × Partition × Device :=
  match p.wal with
  | none => (.error (.fault (.assertion "writer is open after recovery")), p, wal)
  | some writer =>
    match writer.appendUnsynced wal opId operation with
    | (.error e, writer, wal) => (.error (.wal e), { p with wal := some writer }, wal)
    | (.ok seq, writer, wal) =>
      match syncAndApply { p with wal := some writer } wal ⟨seq, opId, operation⟩ with
      | (.error e, p, wal) => (.error e, p.poisoned, wal)
      | (.ok (), p, wal) =>
        if p.failpoint = some .afterApply then (.error (.injected .afterApply), p, wal)
        else (.ok ⟨seq, false⟩, p, wal)

def upsert (wal : Device) (opId : OpId) (key : Bytes) (vector : List F32) (payload : Bytes) :
    Except PartitionError Applied × Partition × Device :=
  match p.idempotency.get opId with
  | some seq => (.ok ⟨seq, true⟩, p, wal)
  | none =>
    if vector.length ≠ p.config.dims then
      (.error (.vector (.wrongDims p.config.dims vector.length)), p, wal)
    else if vector.any fun value => !value.isFinite then (.error (.vector .nonFinite), p, wal)
    else if p.metric.normalizes && !(normalize vector).1 then (.error .zeroVector, p, wal)
    else match p.admits payload.length with
      | .error e => (.error e, p, wal)
      | .ok () => p.mutate wal opId (.upsert key payload (FlatVectors.stored vector p.metric))

/-- Deleting an absent key succeeds and is logged. -/
def delete (wal : Device) (opId : OpId) (key : Bytes) :
    Except PartitionError Applied × Partition × Device :=
  match p.idempotency.get opId with
  | some seq => (.ok ⟨seq, true⟩, p, wal)
  | none => p.mutate wal opId (.delete key)

/-! ## Snapshots -/

omit [Digests] in
/-- What a snapshot of the state captures. -/
def snapshotInput : SnapshotInput where
  partitionId := p.config.id
  dims := p.config.dims
  metric := p.metric
  params := p.index.params
  highWater := p.highWater
  keys := p.keyTable.map fun key => (key, (p.slotForKey key).getD noSlot)
  slots := p.slots
  vectors := p.index.vectors
  quantized := p.index.quantized
  graph := p.index.graphParts
  idempotency := p.idempotency.entries

/-- The rows of a snapshot file. -/
def mapFile (snap : Dir Bytes) (path : ℕ) (id : Uuid) (dims slotCount : ℕ) :
    Except SnapshotError FlatVectors :=
  match snap.get? path with
  | some bytes => mapVectors bytes id dims slotCount
  | none => .error .io

/-- Write a snapshot at the high-water mark and serve the rows from it. -/
def snapshot (snap : Device) : Except PartitionError ℕ × Partition × Device :=
  match writeWithHook snap p.snapshotInput (p.failpoint ≠ some .snapshotBeforeRename) with
  | (.error e, snap) => (.error (.snapshot e), p, snap)
  | (.ok path, snap) =>
    let p := { p with snapshotHighWater := p.highWater }
    match mapFile snap.files path p.config.id p.config.dims p.slots.length with
    | .error e => (.error (.snapshot e), p, snap)
    | .ok mapped =>
      match p.index.replaceVectors mapped with
      | (false, _) => (.error (.snapshot (.malformed "f32 section shape")), p, snap)
      | (true, index) =>
        let p := { p with index }
        if p.failpoint = some .snapshotAfterRename then
          (.error (.injected .snapshotAfterRename), p, snap)
        else (.ok path, p, snap)

omit [Digests] in
/-- Remove segments that end at or below the mark, up to the last one and except the current one. -/
def removeCovered (snapshotHighWater : ℕ) (current : Option ℕ) :
    List ℕ → ℕ → Device → Except PartitionError ℕ × Device
  | first :: next :: rest, removed, wal =>
    if next ≤ snapshotHighWater + 1 ∧ some first ≠ current then
      orFail (wal.remove first) .io fun wal =>
        removeCovered snapshotHighWater current (next :: rest) (removed + 1) wal
    else removeCovered snapshotHighWater current (next :: rest) removed wal
  | _, removed, wal => (.ok removed, wal)

omit [Digests] in
/-- Remove segments wholly covered by the latest snapshot. -/
def truncateWalBelowSnapshot (wal : Device) : Except PartitionError ℕ × Device :=
  match removeCovered p.snapshotHighWater (p.wal.map WalWriter.path) wal.files.names 0 wal with
  | (.error e, wal) => (.error e, wal)
  | (.ok removed, wal) =>
    if removed > 0 then orFail wal.touch .io fun wal => (.ok removed, wal) else (.ok removed, wal)

end Partition

end Index

end DistrHnsw
