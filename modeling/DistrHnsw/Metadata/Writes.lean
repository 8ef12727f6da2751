import DistrHnsw.Metadata.Access

/-!
# Writes to the metadata

Each statement or transaction of the database that changes rows.  A transaction that fails is
rolled back.  `now` is the clock of the database when the write is performed.
-/

namespace DistrHnsw

namespace Metadata

def i64Max : ℕ := 9223372036854775807

def u64Max : ℕ := 18446744073709551615

def toI64 (value : ℕ) : Except MetadataError ℕ :=
  if value ≤ i64Max then .ok value else .error .numericOverflow

/-- `generation.checked_add(1)`. -/
def nextGeneration (generation : ℕ) : Except MetadataError ℕ :=
  if generation < u64Max then .ok (generation + 1) else .error .numericOverflow

/-- The row a statement must find. -/
def queryRow {α : Type} : Option α → Except MetadataError α
  | some row => .ok row
  | none => .error .sqlite

/-- Stop with an error unless the condition holds. -/
def ensure (condition : Bool) (error : MetadataError) : Except MetadataError Unit :=
  if condition then .ok () else .error error

structure NewChunk where
  ordinal : ℕ
  envelopeVersion : ℕ
  plaintextLen : ℕ
  plaintextHash : ℕ
  nonce : Bytes
  deriving DecidableEq, Repr

structure NewUpload where
  uploadId : UploadId
  idempotencyKey : IdempotencyKey
  requestFingerprint : ℕ
  fileId : FileId
  info : FileInfo
  chunks : List NewChunk
  deriving DecidableEq, Repr

structure NewDeleteOperation where
  operationId : OperationId
  idempotencyKey : IdempotencyKey
  fileId : FileId
  generation : ℕ
  deletedAt : Time
  markerHash : ObjectHash
  markerBytes : Bytes
  deriving DecidableEq, Repr

/-- One chunk of a decoded manifest. -/
structure ChunkRecord where
  ordinal : ℕ
  plaintextLen : ℕ
  nonce : Bytes
  ciphertextHash : ObjectHash
  ciphertextLen : ℕ
  deriving DecidableEq, Repr

structure DecodedManifest where
  fileId : FileId
  generation : ℕ
  info : FileInfo
  chunks : List ChunkRecord
  deriving DecidableEq, Repr

structure DeletionMarker where
  fileId : FileId
  generation : ℕ
  deletedAt : Time
  deriving DecidableEq, Repr

/-- An agent as configured: identifier and failure domain. -/
structure AgentTarget where
  id : AgentId
  failureDomain : Domain
  deriving DecidableEq, Repr

namespace Database

variable (db : Database)

/-! ## Statements -/

/-- Rows for which the key columns agree are refused. -/
def insertUpload (row : UploadRow) : Except MetadataError Database :=
  if db.uploads.any fun other => other.uploadId == row.uploadId ||
      other.idempotencyKey == row.idempotencyKey || other.fileId == row.fileId then .error .sqlite
  else .ok { db with uploads := db.uploads ++ [row] }

def insertUploadChunk (uploadId : UploadId) (chunk : NewChunk) : Except MetadataError Database :=
  if chunk.envelopeVersion ≠ envelopeVersion then
    .error (.unsupportedEnvelopeVersion chunk.envelopeVersion)
  else if db.uploadChunks.any fun other =>
      other.uploadId == uploadId && other.ordinal == chunk.ordinal then .error .sqlite
  else .ok { db with uploadChunks := db.uploadChunks ++
    [⟨uploadId, chunk.ordinal, chunk.envelopeVersion, chunk.plaintextLen, chunk.plaintextHash,
      chunk.nonce, none⟩] }

/-- Update the rows of an upload. -/
def updateUpload (id : UploadId) (f : UploadRow → UploadRow) : Database :=
  { db with uploads := db.uploads.map fun row => if row.uploadId = id then f row else row }

/-- Update the row of a file. -/
def updateFile (id : FileId) (f : FileRow → FileRow) : Database :=
  { db with files := db.files.map fun row => if row.fileId = id then f row else row }

def insertFile (row : FileRow) : Except MetadataError Database :=
  if row.generation = 0 ∨ db.files.any (fun other => other.fileId == row.fileId ||
      row.sourceUpload.isSome && other.sourceUpload == row.sourceUpload) then .error .sqlite
  else .ok { db with files := db.files ++ [row] }

/-- Insert the row, or update the file's row when there is one. -/
def upsertFile (row : FileRow) (f : FileRow → FileRow) : Except MetadataError Database :=
  if row.generation = 0 then .error .sqlite
  else if db.files.any (·.fileId == row.fileId) then .ok (db.updateFile row.fileId f)
  else db.insertFile row

def manifestAt (file : FileId) (generation : ℕ) : Option ManifestRow :=
  db.fileManifests.find? fun row => row.fileId == file && row.generation == generation

def insertManifest (row : ManifestRow) : Except MetadataError Database :=
  if row.generation = 0 ∨ (db.manifestAt row.fileId row.generation).isSome ∨
      db.fileManifests.any (·.hash == row.hash) then .error .sqlite
  else .ok { db with fileManifests := db.fileManifests ++ [row] }

/-- On a conflict of file and generation nothing is done. -/
def insertManifestOrIgnore (row : ManifestRow) : Except MetadataError Database :=
  if (db.manifestAt row.fileId row.generation).isSome then .ok db else db.insertManifest row

/-- Some chunk row has this file, generation and ordinal. -/
def hasChunkAt (row : FileChunkRow) : Bool :=
  db.fileChunks.any fun other => other.fileId == row.fileId &&
    other.generation == row.generation && other.ordinal == row.ordinal

def insertFileChunk (row : FileChunkRow) : Except MetadataError Database :=
  if db.hasChunkAt row then .error .sqlite
  else .ok { db with fileChunks := db.fileChunks ++ [row] }

def insertFileChunkOrIgnore (row : FileChunkRow) : Database :=
  if db.hasChunkAt row then db else { db with fileChunks := db.fileChunks ++ [row] }

def markerAt (file : FileId) (generation : ℕ) : Option MarkerRow :=
  db.deletionMarkers.find? fun row => row.fileId == file && row.generation == generation

/-- On a conflict of file and generation nothing is done. -/
def insertMarkerOrIgnore (row : MarkerRow) : Except MetadataError Database :=
  if row.generation = 0 then .error .sqlite
  else if (db.markerAt row.fileId row.generation).isSome then .ok db
  else if db.deletionMarkers.any (·.hash == row.hash) then .error .sqlite
  else .ok { db with deletionMarkers := db.deletionMarkers ++ [row] }

/-- Replace the marker of one generation. -/
def updateMarker (row : MarkerRow) : Except MetadataError Database :=
  if db.deletionMarkers.any fun other => other.hash == row.hash &&
      !(other.fileId == row.fileId && other.generation == row.generation) then .error .sqlite
  else .ok { db with deletionMarkers := db.deletionMarkers.map fun other =>
    if other.fileId = row.fileId ∧ other.generation = row.generation then row else other }

def bumpContentGeneration : Database := { db with contentGeneration := db.contentGeneration + 1 }

def clearRecoveryIssues (file : FileId) : Database :=
  { db with recoveryIssues := db.recoveryIssues.filter (·.fileId != file) }

def requireReplicaFloor (object : ObjectId) (minimumReplicas : ℕ) : Except MetadataError Unit :=
  ensure (decide (minimumReplicas ≤ db.confirmedDomains object))
    (.replicaFloorNotMet object.kind object.hash)

/-! ## Uploads -/

def createUpload (upload : NewUpload) (now : Time) : Except MetadataError Database := do
  let _ ← toI64 upload.info.plaintextSize
  let db ← db.insertUpload ⟨upload.uploadId, upload.idempotencyKey, upload.requestFingerprint,
    upload.fileId, upload.info, .staging, 1, none, now⟩
  upload.chunks.foldlM (fun db chunk => db.insertUploadChunk upload.uploadId chunk) db

def advanceUpload (id : UploadId) (next : UploadState) : Except MetadataError Database := do
  let upload ← queryRow (db.uploadById id)
  ensure (upload.state.permits next) (.illegalTransition upload.state next)
  return db.updateUpload id fun row => { row with state := next }

def setChunkObject (id : UploadId) (ordinal : ℕ) (hash : ObjectHash) (ciphertextLen : ℕ) :
    Except MetadataError Database := do
  let row ← queryRow (db.uploadChunks.find? fun row => row.uploadId == id && row.ordinal == ordinal)
  match row.object with
  | some existing =>
    ensure (existing == (hash, ciphertextLen)) .planConflict
    return db
  | none =>
    return { db with uploadChunks := db.uploadChunks.map fun row =>
      if row.uploadId = id ∧ row.ordinal = ordinal
      then { row with object := some (hash, ciphertextLen) } else row }

def setManifestPlan (id : UploadId) (hash : ObjectHash) (bytes : Bytes) :
    Except MetadataError Database := do
  let upload ← queryRow (db.uploadById id)
  if upload.state = .replicatingManifest then
    let existing ← queryRow upload.manifest
    ensure (existing == (hash, bytes)) .planConflict
    return db
  else
    ensure (upload.state == .replicatingChunks)
      (.illegalTransition upload.state .replicatingManifest)
    return db.updateUpload id fun row =>
      { row with manifest := some (hash, bytes), state := .replicatingManifest }

/-- The row a committed chunk gets. -/
def committedChunk (upload : UploadRow) (row : UploadChunkRow) : Except MetadataError FileChunkRow :=
  match row.object with
  | some (hash, len) => .ok ⟨upload.fileId, upload.generation, row.ordinal, row.envelopeVersion,
      row.plaintextLen, row.nonce, hash, len⟩
  | none => .error .missingChunkObject

/-- The floor of one planned chunk. -/
def requireChunkFloor (minimumReplicas : ℕ) (row : UploadChunkRow) : Except MetadataError Unit :=
  match row.object with
  | some (hash, _) => db.requireReplicaFloor ⟨.chunk, hash⟩ minimumReplicas
  | none => .error .missingChunkObject

def commitFile (id : UploadId) (minimumReplicas : ℕ) (now : Time) :
    Except MetadataError Database := do
  let upload ← queryRow (db.uploadById id)
  if upload.state = .committed then
    ensure (db.fileById upload.fileId).isSome .missingCommittedFile
    return db
  else
    ensure (upload.state == .replicatingManifest) (.illegalTransition upload.state .committed)
    match upload.manifest with
    | none => .error .missingManifest
    | some (manifestHash, _) =>
      db.requireReplicaFloor ⟨.manifest, manifestHash⟩ minimumReplicas
      (db.chunks id).forM (db.requireChunkFloor minimumReplicas)
      let generation ← toI64 upload.generation
      let _ ← toI64 upload.info.plaintextSize
      let rows ← (db.chunks id).mapM (committedChunk upload)
      let db ← db.insertFile ⟨upload.fileId, generation, .committed, some upload.info,
        some manifestHash, none, some upload.uploadId, none, now⟩
      let db ← db.insertManifest ⟨upload.fileId, generation, manifestHash, upload.info⟩
      let db ← rows.foldlM insertFileChunk db
      return (db.updateUpload id fun row => { row with state := .committed }).bumpContentGeneration

/-! ## Deletes -/

def createDeleteOperation (operation : NewDeleteOperation) : Except MetadataError Database :=
  match db.fileProjection operation.fileId with
  | none => .error (.missingFile operation.fileId)
  | some projection => do
    ensure (projection.state == .committed) (.fileNotCommitted operation.fileId)
    let generation ← nextGeneration projection.generation
    ensure (generation == operation.generation) (.generationConflict operation.fileId)
    let _ ← toI64 operation.generation
    -- One file generation has exactly one deletion marker.
    ensure (db.deleteOperations.all fun other => !(other.fileId == operation.fileId &&
        other.generation == operation.generation) || other.markerHash == operation.markerHash)
      (.generationConflict operation.fileId)
    ensure (db.deleteOperations.all fun other => other.operationId != operation.operationId &&
        other.idempotencyKey != operation.idempotencyKey) .sqlite
    return { db with deleteOperations := db.deleteOperations ++
      [⟨operation.operationId, operation.idempotencyKey, operation.fileId, operation.generation,
        operation.deletedAt, operation.markerHash, operation.markerBytes, .replicatingMarker⟩] }

def deleteOperationById (id : OperationId) : Option DeleteOperation :=
  db.deleteOperations.find? (·.operationId == id)

def commitDelete (id : OperationId) (minimumReplicas : ℕ) (now : Time) :
    Except MetadataError Database := do
  let operation ← queryRow (db.deleteOperationById id)
  if operation.state = .committed then return db
  else
    db.requireReplicaFloor ⟨.deletionMarker, operation.markerHash⟩ minimumReplicas
    let projection ← queryRow (db.fileProjection operation.fileId)
    ensure (decide (projection.generation ≤ operation.generation))
      (.generationConflict operation.fileId)
    ensure (projection.generation != operation.generation || projection.state == .deleted &&
      projection.deletionHash == some operation.markerHash) (.generationConflict operation.fileId)
    let db ← db.insertMarkerOrIgnore
      ⟨operation.fileId, operation.generation, operation.markerHash, operation.deletedAt⟩
    let marker ← queryRow (db.markerAt operation.fileId operation.generation)
    ensure (marker.hash == operation.markerHash) (.generationConflict operation.fileId)
    let db := db.updateFile operation.fileId fun row => { row with
      generation := operation.generation, state := .deleted,
      deletionHash := some operation.markerHash, deletedAt := some operation.deletedAt,
      updatedAt := now }
    let db := { db with deleteOperations := db.deleteOperations.map fun row : DeleteOperation =>
      if row.operationId = id then { row with state := .committed } else row }
    return db.bumpContentGeneration

/-! ## Recovery -/

/-- A projection of a later generation refuses the evidence. -/
def requireGeneration (file : FileId) (generation : ℕ) : Except MetadataError Unit :=
  ensure ((db.fileProjection file).all fun row => decide (row.generation ≤ generation))
    (.generationConflict file)

/-- The row of a chunk a manifest names. -/
def manifestChunk (manifest : DecodedManifest) (chunk : ChunkRecord) : FileChunkRow :=
  ⟨manifest.fileId, manifest.generation, chunk.ordinal, envelopeVersion, chunk.plaintextLen,
    chunk.nonce, chunk.ciphertextHash, chunk.ciphertextLen⟩

/-- Mark the upload of a recovered file committed and link the file to it. -/
def linkUpload (manifest : DecodedManifest) (hash : ObjectHash) (bytes : Bytes) :
    Except MetadataError Database :=
  match db.uploads.find? (·.fileId == manifest.fileId) with
  | none => .ok db
  | some upload =>
    if upload.state = .committed ∨ upload.generation ≠ manifest.generation then .ok db
    else if (db.files.any fun row => row.fileId == manifest.fileId && row.sourceUpload.isNone) ∧
        db.files.any (·.sourceUpload == some upload.uploadId) then .error .sqlite
    else
      .ok ((db.updateUpload upload.uploadId fun row =>
          { row with state := .committed, manifest := some (hash, bytes) }).updateFile
        manifest.fileId fun row =>
          { row with sourceUpload := row.sourceUpload.getD upload.uploadId })

def applyRecoveredManifest (manifest : DecodedManifest) (hash : ObjectHash) (bytes : Bytes)
    (now : Time) : Except MetadataError Database := do
  db.requireGeneration manifest.fileId manifest.generation
  let generation ← toI64 manifest.generation
  let _ ← toI64 manifest.info.plaintextSize
  let db ← db.insertManifestOrIgnore ⟨manifest.fileId, generation, hash, manifest.info⟩
  let persisted ← queryRow (db.manifestAt manifest.fileId generation)
  ensure (persisted.hash == hash) (.generationConflict manifest.fileId)
  let db := manifest.chunks.foldl
    (fun db chunk => db.insertFileChunkOrIgnore (manifestChunk manifest chunk)) db
  let db ← db.upsertFile
    ⟨manifest.fileId, generation, .committed, some manifest.info, some hash, none, none, none, now⟩
    fun row => { row with
      generation := generation, state := .committed, info := some manifest.info,
      manifestHash := some hash, deletionHash := none, deletedAt := none, updatedAt := now }
  let db ← db.linkUpload manifest hash bytes
  return (db.clearRecoveryIssues manifest.fileId).bumpContentGeneration

/-- Two markers of one generation record the same deletion: the survivor is adopted. -/
def adoptMarker (existing : Option FileRow) (persisted row : MarkerRow) :
    Except MetadataError Database :=
  if persisted.hash = row.hash then .ok db
  else do
    ensure (existing.any fun file => file.state == .deleted && file.generation == row.generation)
      (.generationConflict row.fileId)
    db.updateMarker row

def applyRecoveredDeletion (marker : DeletionMarker) (hash : ObjectHash) (now : Time) :
    Except MetadataError Database := do
  let existing := db.fileProjection marker.fileId
  db.requireGeneration marker.fileId marker.generation
  let generation ← toI64 marker.generation
  let db ← db.insertMarkerOrIgnore ⟨marker.fileId, generation, hash, marker.deletedAt⟩
  let persisted ← queryRow (db.markerAt marker.fileId generation)
  let db ← db.adoptMarker existing persisted ⟨marker.fileId, generation, hash, marker.deletedAt⟩
  let db ← db.upsertFile
    ⟨marker.fileId, generation, .deleted, none, none, some hash, none, some marker.deletedAt, now⟩
    fun row => { row with
      generation := generation, state := .deleted, deletionHash := some hash,
      deletedAt := some marker.deletedAt, updatedAt := now }
  return (db.clearRecoveryIssues marker.fileId).bumpContentGeneration

/-- The marker a blocked file keeps: the one given, else the one a deleted file already has. -/
def blockedMarker (file : FileId) (deletionHash : Option ObjectHash) : Option ObjectHash :=
  deletionHash.orElse fun _ =>
    ((db.fileProjection file).filter fun row => row.state == .deleted).bind (·.deletionHash)

def blockedState (deletionHash : Option ObjectHash) : FileState :=
  if deletionHash.isSome then .deleted else .recoveryBlocked

/-- The file is blocked already, for the same reason. -/
def blockedAlready (file : FileId) (generation : ℕ) (deletionHash : Option ObjectHash)
    (issue : String) : Bool :=
  let previous := db.recoveryIssues.find? fun row =>
    row.fileId == file && row.generation == generation
  previous.map (·.detail) == some issue && (db.fileProjection file).any fun row =>
    row.state == blockedState deletionHash && decide (generation ≤ row.generation) &&
      (deletionHash.isNone || row.deletionHash == deletionHash)

def markRecoveryBlocked (file : FileId) (generation : ℕ) (deletionHash : Option ObjectHash)
    (issue : String) (now : Time) : Except MetadataError Database := do
  let deletionHash := db.blockedMarker file deletionHash
  let state := blockedState deletionHash
  let generation ← toI64 generation
  if db.blockedAlready file generation deletionHash issue then return db
  else
    let db ← db.upsertFile ⟨file, generation, state, none, none, deletionHash, none, none, now⟩
      fun row => { row with
        generation := max row.generation generation, state := state,
        deletionHash := deletionHash.orElse fun _ => row.deletionHash, updatedAt := now }
    let db := db.clearRecoveryIssues file
    let db := { db with recoveryIssues :=
      db.recoveryIssues ++ [(⟨file, generation, issue⟩ : RecoveryIssue)] }
    return db.bumpContentGeneration

/-! ## Collection proofs -/

def recordGcProof (id : ProofId) (proof : NewGcProof) : Except MetadataError Database :=
  if db.gcProofs.any (·.proofId == id) then .error .sqlite
  else .ok { db with gcProofs := db.gcProofs ++ [⟨proof, id, .planned⟩] }

def finishGcProof (id : ProofId) (status : ProofStatus) : Database :=
  { db with gcProofs := db.gcProofs.map fun proof =>
    if proof.proofId = id ∧ proof.status = .planned then { proof with status := status } else proof }

/-! ## Incarnations and placements -/

def refuseInactiveIncarnation (agent : AgentId) (incarnation : IncarnationId) :
    Except MetadataError Unit :=
  match (db.incarnations.find? (·.incarnationId == incarnation)).map Incarnation.status with
  | some .retired => .error (.retiredIncarnation agent incarnation)
  | some .superseded => .error (.supersededIncarnation agent incarnation)
  | some .active => .ok ()
  | none => .ok ()

def insertIncarnation (row : Incarnation) : Except MetadataError Database :=
  if db.incarnations.any (fun other => other.incarnationId == row.incarnationId ||
      row.status == .active && other.status == .active && other.agentId == row.agentId) then
    .error .sqlite
  else .ok { db with incarnations := db.incarnations ++ [row] }

def updateIncarnation (id : IncarnationId) (f : Incarnation → Incarnation) : Database :=
  { db with incarnations := db.incarnations.map fun row =>
    if row.incarnationId = id then f row else row }

def observeAgentIncarnation (agent : AgentTarget) (incarnation : IncarnationId) :
    Except MetadataError Database := do
  db.refuseInactiveIncarnation agent.id incarnation
  let row : Incarnation := ⟨agent.id, incarnation, agent.failureDomain, .active⟩
  match db.incarnations.find? fun row => row.agentId == agent.id && row.status == .active with
  | some current =>
    if current.incarnationId = incarnation then
      return db.updateIncarnation incarnation fun row =>
        { row with failureDomain := agent.failureDomain }
    else
      (db.updateIncarnation current.incarnationId fun row =>
        { row with status := .superseded }).insertIncarnation row
  | none =>
    let db ← db.insertIncarnation row
    return { db with placements := db.placements.map fun placement =>
      if placement.agentId = agent.id ∧ placement.incarnationId = none
      then { placement with incarnationId := some incarnation } else placement }

/-- Update the placement of an object on an agent. -/
def updatePlacement (object : ObjectId) (agent : AgentId) (f : Placement → Placement) : Database :=
  { db with placements := db.placements.map fun row =>
    if row.object = object ∧ row.agentId = agent then f row else row }

def hasPlacement (object : ObjectId) (agent : AgentId) : Bool :=
  db.placements.any fun row => row.object == object && row.agentId == agent

def ensurePendingPlacement (object : ObjectId) (agent : AgentTarget) (incarnation : IncarnationId) :
    Database :=
  if db.hasPlacement object agent.id then
    db.updatePlacement object agent.id fun row =>
      if row.incarnationId = some incarnation then row
      else { row with
        failureDomain := agent.failureDomain, incarnationId := some incarnation,
        state := if row.incarnationId = none then row.state else .pending }
  else { db with placements :=
    db.placements ++ [⟨object, agent.id, agent.failureDomain, some incarnation, .pending⟩] }

def confirmPlacement (object : ObjectId) (agent : AgentId) : Except MetadataError Database :=
  if db.hasPlacement object agent then
    .ok (db.updatePlacement object agent fun row => { row with state := .confirmed })
  else .error .missingPlacement

def setPlacementState (object : ObjectId) (agent : AgentId) (state : PlacementState) :
    Except MetadataError Database :=
  if db.hasPlacement object agent then
    .ok (db.updatePlacement object agent fun row => { row with state := state })
  else .error .missingPlacement

/-- Persist what a verification found; the row is adopted for the incarnation first. -/
def setPlacementVerification (object : ObjectId) (agent : AgentTarget)
    (incarnation : IncarnationId) (state : PlacementState) : Except MetadataError Database :=
  if state = .pending then
    .error (.invalidPlacementState "verification cannot reset a placement to pending")
  else .ok ((db.ensurePendingPlacement object agent incarnation).updatePlacement object agent.id
    fun row => { row with state := state })

def activeIncarnationOf (agent : AgentId) : Option IncarnationId :=
  (db.incarnations.find? fun row => row.agentId == agent && row.status == .active).map
    (·.incarnationId)

/-- Retire the agent's active incarnation and orphan every placement it still holds. -/
def retireIncarnation (agent : AgentId) : Except MetadataError Database :=
  match db.activeIncarnationOf agent with
  | none => .error (.noActiveIncarnation agent)
  | some incarnation =>
    let db := db.updateIncarnation incarnation fun row => { row with status := .retired }
    .ok { db with placements := db.placements.map fun row =>
      if row.agentId = agent then { row with state := .orphaned } else row }

def deletePlacement (object : ObjectId) (agent : AgentId) : Database :=
  { db with placements := db.placements.filter fun row =>
    !(row.object == object && row.agentId == agent) }

def deletePlacements (object : ObjectId) : Database :=
  { db with placements := db.placements.filter (·.object != object) }

/-! ## Backup jobs -/

def createBackupJob (id : JobId) (target : TargetId) : Except MetadataError Database :=
  if db.backupJobs.any (·.jobId == id) then .error .sqlite
  else .ok { db with backupJobs := db.backupJobs ++ [⟨id, target, .running, none⟩] }

def finishBackupJob (id : JobId) (status : JobStatus) (report : Option BackupReport) :
    Except MetadataError Database :=
  if status = .running then .error (.invalidJobStatus "a job cannot finish as running")
  else if db.backupJobs.any fun job => job.jobId == id && job.status == .running then
    .ok { db with backupJobs := db.backupJobs.map fun job =>
      if job.jobId = id ∧ job.status = .running then { job with status := status, report := report }
      else job }
  else .error (.missingJob id)

def recordBackupObject (target : TargetId) (object : ObjectId) : Database :=
  if db.backupObjectVerified target object then db
  else { db with backupObjects := db.backupObjects ++ [(target, object)] }

def recordBackupSnapshot (row : BackupSnapshot) : Except MetadataError Database :=
  if db.backupSnapshots.any fun other => other.targetId == row.targetId && other.name == row.name
  then .error .sqlite
  else .ok { db with backupSnapshots := db.backupSnapshots ++ [row] }

end Database

/-! ## All writes -/

/-- One atomic write. -/
inductive Write where
  | createUpload (upload : NewUpload) (now : Time)
  | advanceUpload (id : UploadId) (next : UploadState)
  | setChunkObject (id : UploadId) (ordinal : ℕ) (hash : ObjectHash) (ciphertextLen : ℕ)
  | setManifestPlan (id : UploadId) (hash : ObjectHash) (bytes : Bytes)
  | commitFile (id : UploadId) (minimumReplicas : ℕ) (now : Time)
  | createDeleteOperation (operation : NewDeleteOperation)
  | commitDelete (id : OperationId) (minimumReplicas : ℕ) (now : Time)
  | applyRecoveredManifest (manifest : DecodedManifest) (hash : ObjectHash) (bytes : Bytes)
      (now : Time)
  | applyRecoveredDeletion (marker : DeletionMarker) (hash : ObjectHash) (now : Time)
  | markRecoveryBlocked (file : FileId) (generation : ℕ) (deletionHash : Option ObjectHash)
      (issue : String) (now : Time)
  | clearRecoveryPending
  | recordGcProof (id : ProofId) (proof : NewGcProof)
  | finishGcProof (id : ProofId) (status : ProofStatus)
  | observeAgentIncarnation (agent : AgentTarget) (incarnation : IncarnationId)
  | ensurePendingPlacement (object : ObjectId) (agent : AgentTarget) (incarnation : IncarnationId)
  | confirmPlacement (object : ObjectId) (agent : AgentId)
  | deletePlacement (object : ObjectId) (agent : AgentId)
  | deletePlacements (object : ObjectId)
  | setPlacementState (object : ObjectId) (agent : AgentId) (state : PlacementState)
  | setPlacementVerification (object : ObjectId) (agent : AgentTarget)
      (incarnation : IncarnationId) (state : PlacementState)
  | retireIncarnation (agent : AgentId)
  | setRecoveryPending (restoredAt : Time)
  | createBackupJob (id : JobId) (target : TargetId)
  | finishBackupJob (id : JobId) (status : JobStatus) (report : Option BackupReport)
  | recordBackupObject (target : TargetId) (object : ObjectId)
  | recordBackupSnapshot (row : BackupSnapshot)
  | access (w : AccessWrite)
  deriving DecidableEq, Repr

/-- What a write does. -/
def Write.perform (db : Database) : Write → Except MetadataError Database
  | .createUpload upload now => db.createUpload upload now
  | .advanceUpload id next => db.advanceUpload id next
  | .setChunkObject id ordinal hash ciphertextLen => db.setChunkObject id ordinal hash ciphertextLen
  | .setManifestPlan id hash bytes => db.setManifestPlan id hash bytes
  | .commitFile id minimumReplicas now => db.commitFile id minimumReplicas now
  | .createDeleteOperation operation => db.createDeleteOperation operation
  | .commitDelete id minimumReplicas now => db.commitDelete id minimumReplicas now
  | .applyRecoveredManifest manifest hash bytes now =>
    db.applyRecoveredManifest manifest hash bytes now
  | .applyRecoveredDeletion marker hash now => db.applyRecoveredDeletion marker hash now
  | .markRecoveryBlocked file generation deletionHash issue now =>
    db.markRecoveryBlocked file generation deletionHash issue now
  | .clearRecoveryPending => .ok { db with recoveryPending := none }
  | .recordGcProof id proof => db.recordGcProof id proof
  | .finishGcProof id status => .ok (db.finishGcProof id status)
  | .observeAgentIncarnation agent incarnation => db.observeAgentIncarnation agent incarnation
  | .ensurePendingPlacement object agent incarnation =>
    .ok (db.ensurePendingPlacement object agent incarnation)
  | .confirmPlacement object agent => db.confirmPlacement object agent
  | .deletePlacement object agent => .ok (db.deletePlacement object agent)
  | .deletePlacements object => .ok (db.deletePlacements object)
  | .setPlacementState object agent state => db.setPlacementState object agent state
  | .setPlacementVerification object agent incarnation state =>
    db.setPlacementVerification object agent incarnation state
  | .retireIncarnation agent => db.retireIncarnation agent
  | .setRecoveryPending restoredAt => .ok { db with recoveryPending := some restoredAt }
  | .createBackupJob id target => db.createBackupJob id target
  | .finishBackupJob id status report => db.finishBackupJob id status report
  | .recordBackupObject target object => .ok (db.recordBackupObject target object)
  | .recordBackupSnapshot row => db.recordBackupSnapshot row
  | .access w => do
    let access ← w.perform db.toAccess
    return { db with toAccess := access }

end Metadata

end DistrHnsw
