import DistrHnsw.Lib.Bytes
import DistrHnsw.Lib.Result
import Mathlib.Data.List.Sort

/-!
# The portal's metadata tables

Rows and queries of the SQLite database.  Identifiers and object hashes are numbers, in the order
of their text form.  `Tables` are the tables that uploads, deletes, recovery and garbage collection
write; `Holdings` are the observations about agents and backup targets, which scrubs, drains,
retirements and backup jobs write too; `Access` are the keys, joins and identities.
-/

namespace DistrHnsw

namespace Metadata

inductive ObjectKind where
  | chunk
  | manifest
  | deletionMarker
  deriving DecidableEq, Repr

abbrev ObjectHash := ℕ
abbrev FileId := ℕ
abbrev UploadId := ℕ
abbrev OperationId := ℕ
abbrev ProofId := ℕ
abbrev AgentId := ℕ
abbrev Domain := ℕ
abbrev IncarnationId := ℕ
abbrev TargetId := ℕ
abbrev IdempotencyKey := ℕ
abbrev JobId := ℕ
abbrev KeyId := ℕ
abbrev TokenHash := ℕ
abbrev UserId := ℕ
abbrev SessionId := ℕ

/-- Seconds since the epoch. -/
abbrev Time := ℤ

/-- Place of a kind's text in the order of texts. -/
def textRank : ObjectKind → ℕ
  | .chunk => 0
  | .deletionMarker => 1
  | .manifest => 2

def asStr : ObjectKind → String
  | .chunk => "chunk"
  | .manifest => "manifest"
  | .deletionMarker => "deletion_marker"

/-- What identifies a stored object. -/
structure ObjectId where
  kind : ObjectKind
  hash : ObjectHash
  deriving DecidableEq, Repr

/-- Kind and hash in a message. -/
def describe (object : ObjectId) : String := asStr object.kind ++ " " ++ toString object.hash

inductive UploadState where
  | staging
  | replicatingChunks
  | replicatingManifest
  | committed
  deriving DecidableEq, Repr

def UploadState.permits (current next : UploadState) : Bool :=
  current == next || match current, next with
    | .staging, .replicatingChunks => true
    | .replicatingChunks, .replicatingManifest => true
    | .replicatingManifest, .committed => true
    | _, _ => false

inductive FileState where
  | committed
  | deleted
  | recoveryBlocked
  deriving DecidableEq, Repr

inductive DeleteState where
  | replicatingMarker
  | committed
  deriving DecidableEq, Repr

inductive PlacementState where
  | pending
  | confirmed
  | missing
  | corrupt
  | orphaned
  deriving DecidableEq, Repr

inductive IncarnationStatus where
  | active
  | superseded
  | retired
  deriving DecidableEq, Repr

inductive ProofStatus where
  | planned
  | applied
  | stale
  deriving DecidableEq, Repr

inductive JobStatus where
  | running
  | complete
  | failed
  | interrupted
  deriving DecidableEq, Repr

inductive SigningKeyStatus where
  | active
  | retiring
  | revoked
  deriving DecidableEq, Repr

inductive MetadataError where
  | illegalTransition (current next : UploadState)
  | planConflict
  | missingPlacement
  | missingManifest
  | missingChunkObject
  | missingCommittedFile
  | missingDeletionMarker
  | missingFile (id : FileId)
  | fileNotCommitted (id : FileId)
  | generationConflict (id : FileId)
  | replicaFloorNotMet (kind : ObjectKind) (hash : ObjectHash)
  | retiredIncarnation (agentId : AgentId) (incarnationId : IncarnationId)
  | supersededIncarnation (agentId : AgentId) (incarnationId : IncarnationId)
  | numericOverflow
  | unsupportedEnvelopeVersion (version : ℕ)
  | noActiveIncarnation (agentId : AgentId)
  | invalidPlacementState (detail : String)
  | invalidJobStatus (detail : String)
  | missingJob (id : JobId)
  | invalidState (detail : String)
  | sqlite
  deriving DecidableEq, Repr

def envelopeVersion : ℕ := 1

/-! ## Rows -/

/-- Name and plaintext of a file, copied from upload to projection. -/
structure FileInfo where
  name : Bytes
  plaintextHash : ℕ
  plaintextSize : ℕ
  deriving DecidableEq, Repr

structure UploadRow where
  uploadId : UploadId
  idempotencyKey : IdempotencyKey
  requestFingerprint : ℕ
  fileId : FileId
  info : FileInfo
  state : UploadState
  generation : ℕ
  /-- Hash and bytes of the planned manifest, both or neither. -/
  manifest : Option (ObjectHash × Bytes)
  createdAt : Time
  deriving DecidableEq, Repr

structure UploadChunkRow where
  uploadId : UploadId
  ordinal : ℕ
  envelopeVersion : ℕ
  plaintextLen : ℕ
  plaintextHash : ℕ
  nonce : Bytes
  /-- Hash and length of the ciphertext, both or neither. -/
  object : Option (ObjectHash × ℕ)
  deriving DecidableEq, Repr

structure FileRow where
  fileId : FileId
  generation : ℕ
  state : FileState
  info : Option FileInfo
  manifestHash : Option ObjectHash
  deletionHash : Option ObjectHash
  sourceUpload : Option UploadId
  deletedAt : Option Time
  updatedAt : Time
  deriving DecidableEq, Repr

structure ManifestRow where
  fileId : FileId
  generation : ℕ
  hash : ObjectHash
  info : FileInfo
  deriving DecidableEq, Repr

structure FileChunkRow where
  fileId : FileId
  generation : ℕ
  ordinal : ℕ
  envelopeVersion : ℕ
  plaintextLen : ℕ
  nonce : Bytes
  hash : ObjectHash
  len : ℕ
  deriving DecidableEq, Repr

structure MarkerRow where
  fileId : FileId
  generation : ℕ
  hash : ObjectHash
  deletedAt : Time
  deriving DecidableEq, Repr

structure DeleteOperation where
  operationId : OperationId
  idempotencyKey : IdempotencyKey
  fileId : FileId
  generation : ℕ
  deletedAt : Time
  markerHash : ObjectHash
  markerBytes : Bytes
  state : DeleteState
  deriving DecidableEq, Repr

structure RecoveryIssue where
  fileId : FileId
  generation : ℕ
  detail : String
  deriving DecidableEq, Repr

/-- The active incarnations a proof was derived from. -/
abbrev IncarnationDigest := List (AgentId × IncarnationId)

/-- The complete observations a proof was derived from. -/
abbrev ObservationDigest := List (IncarnationId × ObjectKind × ℕ)

structure NewGcProof where
  object : ObjectId
  contentGeneration : ℕ
  incarnationDigest : IncarnationDigest
  observationDigest : ObservationDigest
  retentionSeconds : Time
  deriving DecidableEq, Repr

structure GcProof extends NewGcProof where
  proofId : ProofId
  status : ProofStatus
  deriving DecidableEq, Repr

structure Placement where
  object : ObjectId
  agentId : AgentId
  failureDomain : Domain
  incarnationId : Option IncarnationId
  state : PlacementState
  deriving DecidableEq, Repr

structure Incarnation where
  agentId : AgentId
  incarnationId : IncarnationId
  failureDomain : Domain
  status : IncarnationStatus
  deriving DecidableEq, Repr

/-- A complete observation of one namespace of one agent. -/
structure CompleteScan where
  agentId : AgentId
  incarnationId : IncarnationId
  kind : ObjectKind
  inventoryDigest : ℕ
  completedAt : Time
  deriving DecidableEq, Repr

/-- Time stamp and hash prefix that name a shipped snapshot. -/
structure SnapshotName where
  stamp : Time
  hashPrefix : ℕ
  deriving DecidableEq, Repr

structure SnapshotRecord where
  name : SnapshotName
  hash : ℕ
  deriving DecidableEq, Repr

/-- What a finished backup job counted. -/
structure BackupTotals where
  historyObjects : ℕ
  verifiedBefore : ℕ
  copiedNow : ℕ
  identicalOnTarget : ℕ
  failed : ℕ
  deriving DecidableEq, Repr

/-- Copies read again from the target. -/
structure IntegritySample where
  sampledAt : Time
  requested : ℕ
  sampled : ℕ
  valid : ℕ
  corrupt : List ObjectId
  missing : List ObjectId
  deriving DecidableEq, Repr

structure BackupReport where
  jobId : JobId
  targetId : TargetId
  totals : BackupTotals
  snapshot : Option SnapshotRecord
  /-- The snapshot was skipped because no content changed since the last one. -/
  snapshotSkippedIdentical : Bool
  backupLagSeconds : Time
  integritySample : Option IntegritySample
  issues : List String
  deriving DecidableEq, Repr

structure BackupJob where
  jobId : JobId
  targetId : TargetId
  status : JobStatus
  report : Option BackupReport
  deriving DecidableEq, Repr

/-- A shipped snapshot as the database remembers it. -/
structure BackupSnapshot where
  targetId : TargetId
  name : SnapshotName
  snapshotHash : ℕ
  contentGeneration : ℕ
  createdAt : Time
  jobId : JobId
  deriving DecidableEq, Repr

/-! ## Keys, joins and identities -/

/-- A grant-signing key; its seed is sealed under the master key. -/
structure SigningKeyRow where
  keyId : KeyId
  wrapId : ℕ
  publicKey : Bytes
  wrappedSeed : Bytes
  status : SigningKeyStatus
  deriving DecidableEq, Repr

structure GrantState where
  epoch : ℕ
  keySetVersion : ℕ
  deriving DecidableEq, Repr

structure AgentJoin where
  agentId : AgentId
  nodeStableId : Option String
  baseUrl : String
  deriving DecidableEq, Repr

structure JoinTokenRow where
  tokenHash : TokenHash
  agentId : AgentId
  expiresAt : Time
  usedAt : Option Time
  deriving DecidableEq, Repr

structure UserRow where
  userId : UserId
  displayName : String
  createdAt : Time
  disabledAt : Option Time
  deriving DecidableEq, Repr

/-- A login and the user it resolves to. -/
structure IdentityRow where
  externalId : String
  userId : UserId
  createdAt : Time
  deriving DecidableEq, Repr

structure SessionRow where
  sessionId : SessionId
  verifier : Bytes
  userId : UserId
  nodeStableId : String
  createdAt : Time
  lastSeenAt : Time
  expiresAt : Time
  revokedAt : Option Time
  revokeReason : Option String
  deriving DecidableEq, Repr

structure ApiKeyRow where
  keyId : KeyId
  userId : UserId
  name : String
  verifier : Bytes
  scopes : String
  nodeStableId : Option String
  createdAt : Time
  expiresAt : Option Time
  revokedAt : Option Time
  lastUsedAt : Option Time
  deriving DecidableEq, Repr

/-! ## The database -/

/-- Uploads, the file projection, its history and the collection proofs. -/
structure Tables where
  uploads : List UploadRow
  uploadChunks : List UploadChunkRow
  files : List FileRow
  fileManifests : List ManifestRow
  fileChunks : List FileChunkRow
  deletionMarkers : List MarkerRow
  deleteOperations : List DeleteOperation
  recoveryIssues : List RecoveryIssue
  gcProofs : List GcProof
  contentGeneration : ℕ
  recoveryPending : Option Time
  deriving DecidableEq, Repr

/-- Placements, incarnations, observations and backup records. -/
structure Holdings where
  placements : List Placement
  incarnations : List Incarnation
  scans : List CompleteScan
  backupJobs : List BackupJob
  backupObjects : List (TargetId × ObjectId)
  backupSnapshots : List BackupSnapshot
  deriving DecidableEq, Repr

/-- Keys, joins and identities. -/
structure Access where
  signingKeys : List SigningKeyRow
  grantState : GrantState
  agentJoins : List AgentJoin
  joinTokens : List JoinTokenRow
  users : List UserRow
  identities : List IdentityRow
  sessions : List SessionRow
  apiKeys : List ApiKeyRow
  deriving DecidableEq, Repr

structure Database extends Tables, Holdings, Access
  deriving DecidableEq, Repr

/-- A newly created database. -/
def Database.new : Database where
  uploads := []
  uploadChunks := []
  files := []
  fileManifests := []
  fileChunks := []
  deletionMarkers := []
  deleteOperations := []
  recoveryIssues := []
  gcProofs := []
  contentGeneration := 0
  recoveryPending := none
  placements := []
  incarnations := []
  scans := []
  backupJobs := []
  backupObjects := []
  backupSnapshots := []
  signingKeys := []
  grantState := ⟨1, 1⟩
  agentJoins := []
  joinTokens := []
  users := []
  identities := []
  sessions := []
  apiKeys := []

namespace Database

variable (db : Database)

/-! ## Queries -/

def uploadByIdempotency (key : IdempotencyKey) : Option UploadRow :=
  db.uploads.find? (·.idempotencyKey == key)

def uploadById (id : UploadId) : Option UploadRow := db.uploads.find? (·.uploadId == id)

/-- The chunk plan of an upload, by ordinal. -/
def chunks (id : UploadId) : List UploadChunkRow :=
  (db.uploadChunks.filter (·.uploadId == id)).insertionSort fun a b => a.ordinal ≤ b.ordinal

def fileProjection (id : FileId) : Option FileRow := db.files.find? (·.fileId == id)

/-- The file, when it is committed. -/
def fileById (id : FileId) : Option FileRow :=
  db.files.find? fun file => file.fileId == id && file.state == .committed

def deleteByIdempotency (key : IdempotencyKey) : Option DeleteOperation :=
  db.deleteOperations.find? (·.idempotencyKey == key)

/-- The marker a pending or finished delete of this generation already minted. -/
def pendingDeleteMarker (file : FileId) (generation : ℕ) : Option (Time × ObjectHash × Bytes) :=
  (db.deleteOperations.find? fun op => op.fileId == file && op.generation == generation).map
    fun op => (op.deletedAt, op.markerHash, op.markerBytes)

def activeIncarnation (id : IncarnationId) : Bool :=
  db.incarnations.any fun row => row.incarnationId == id && row.status == .active

/-- Confirmed, and not by an incarnation that is no longer active. -/
def liveConfirmed (row : Placement) : Bool :=
  row.state == .confirmed && row.incarnationId.all db.activeIncarnation

def placementConfirmed (object : ObjectId) (agent : AgentId) : Bool :=
  db.placements.any fun row => row.object == object && row.agentId == agent && db.liveConfirmed row

def confirmedAgents (object : ObjectId) : List AgentId :=
  (db.placements.filter fun row => row.object == object && db.liveConfirmed row).map (·.agentId)

/-- In how many failure domains the object has live confirmed placements. -/
def confirmedDomains (object : ObjectId) : ℕ :=
  ((db.placements.filter fun row => row.object == object && db.liveConfirmed row).map
    (·.failureDomain)).dedup.length

def allPlacements (object : ObjectId) : List Placement :=
  db.placements.filter (·.object == object)

/-- Deleted files with generation and time of deletion. -/
def deletedFiles : List (FileId × ℕ × Time) :=
  ((db.files.filter (·.state == .deleted)).insertionSort fun a b => a.fileId ≤ b.fileId).filterMap
    fun file => file.deletedAt.map fun deletedAt => (file.fileId, file.generation, deletedAt)

def supersededManifests (file : FileId) (generation : ℕ) : List ObjectId :=
  (db.fileManifests.filter fun row => row.fileId == file && decide (row.generation < generation)).map
    fun row => ⟨.manifest, row.hash⟩

def supersededChunks (file : FileId) (generation : ℕ) : List ObjectId :=
  (db.fileChunks.filter fun row => row.fileId == file && decide (row.generation < generation)).map
    fun row => ⟨.chunk, row.hash⟩

/-- Manifests and chunks of the generations below `generation`. -/
def supersededObjects (file : FileId) (generation : ℕ) : List ObjectId :=
  db.supersededManifests file generation ++ db.supersededChunks file generation

def plannedManifest (upload : UploadRow) : List ObjectId :=
  (upload.manifest.map fun (hash, _) => ⟨.manifest, hash⟩).toList

def plannedChunks (upload : UploadId) : List ObjectId :=
  (db.uploadChunks.filter (·.uploadId == upload)).filterMap
    fun row => row.object.map fun (hash, _) => ⟨.chunk, hash⟩

/-- The objects an upload has planned so far. -/
def plannedObjects (upload : UploadRow) : List ObjectId :=
  plannedManifest upload ++ db.plannedChunks upload.uploadId

/-- Uncommitted uploads created at or before `cutoff`. -/
def expiredUploads (cutoff : Time) : List UploadRow :=
  (db.uploads.filter fun upload => upload.state != .committed && decide (upload.createdAt ≤ cutoff)).insertionSort
    fun a b => a.uploadId ≤ b.uploadId

/-- A live file's current generation references the object. -/
def requiredByLiveFile (object : ObjectId) : Bool :=
  match object.kind with
  | .manifest =>
    db.files.any fun file => file.state == .committed && file.manifestHash == some object.hash
  | .chunk =>
    db.fileChunks.any fun row => row.hash == object.hash &&
      db.files.any fun file => file.fileId == row.fileId && file.generation == row.generation &&
        file.state == .committed
  | .deletionMarker =>
    db.files.any fun file => file.state == .deleted && file.deletionHash == some object.hash

def gcApplied (object : ObjectId) : Bool :=
  db.gcProofs.any fun proof => proof.object == object && proof.status == .applied

/-- Targets that have ever run a job. -/
def backupTargets : List TargetId :=
  (db.backupJobs.map (·.targetId)).dedup.insertionSort (· ≤ ·)

def backupObjectVerified (target : TargetId) (object : ObjectId) : Bool :=
  db.backupObjects.contains (target, object)

/-- The later of two snapshot rows: created later, else recorded later. -/
def laterSnapshot (best : Option BackupSnapshot) (row : BackupSnapshot) : Option BackupSnapshot :=
  match best with
  | none => some row
  | some other => if other.createdAt ≤ row.createdAt then some row else some other

/-- Latest shipped snapshot for a target. -/
def latestBackupSnapshot (target : TargetId) : Option BackupSnapshot :=
  (db.backupSnapshots.filter (·.targetId == target)).foldl laterSnapshot none

def plannedGcProofs : List GcProof := db.gcProofs.filter (·.status == .planned)

/-- Latest complete observation of each active incarnation and namespace, by agent and kind. -/
def latestCompleteScans : List CompleteScan :=
  let rows := (db.scans.filter fun scan => db.activeIncarnation scan.incarnationId).zipIdx
  let latest := rows.filter fun (scan, position) => !rows.any fun (other, later) =>
    other.incarnationId == scan.incarnationId && other.kind == scan.kind &&
      (decide (scan.completedAt < other.completedAt) ||
        (scan.completedAt == other.completedAt && decide (position < later)))
  (latest.map Prod.fst).insertionSort fun a b =>
    a.agentId < b.agentId ∨ a.agentId = b.agentId ∧ textRank a.kind ≤ textRank b.kind

/-- The active incarnation of each agent, by agent. -/
def activeIncarnations : List (AgentId × IncarnationId) :=
  ((db.incarnations.filter (·.status == .active)).insertionSort fun a b => a.agentId ≤ b.agentId).map
    fun row => (row.agentId, row.incarnationId)

/-- The control objects the metadata knows of. -/
def knownControlObjects : List ObjectId :=
  db.fileManifests.map (⟨.manifest, ·.hash⟩) ++
  db.uploads.filterMap (fun upload => upload.manifest.map fun (hash, _) => ⟨.manifest, hash⟩) ++
  db.files.filterMap (fun file => file.manifestHash.map (⟨.manifest, ·⟩)) ++
  db.deletionMarkers.map (⟨.deletionMarker, ·.hash⟩) ++
  db.deleteOperations.map (⟨.deletionMarker, ·.markerHash⟩) ++
  db.files.filterMap fun file => file.deletionHash.map (⟨.deletionMarker, ·⟩)

/-! ## Objects of the projection and of its history -/

structure RequiredObject where
  object : ObjectId
  fileId : FileId
  generation : ℕ
  expectedLen : Option ℕ
  deriving DecidableEq, Repr

/-- What one file of the projection requires. -/
def requiredOf (file : FileRow) : Except MetadataError (List RequiredObject) :=
  match file.state with
  | .committed =>
    match file.manifestHash with
    | none => .error .missingManifest
    | some hash => .ok (⟨⟨.manifest, hash⟩, file.fileId, file.generation, none⟩ ::
        ((db.fileChunks.filter fun row =>
            row.fileId == file.fileId && row.generation == file.generation).insertionSort
          fun a b => a.ordinal ≤ b.ordinal).map
          fun row => ⟨⟨.chunk, row.hash⟩, file.fileId, file.generation, some row.len⟩)
  | .deleted =>
    match file.deletionHash with
    | none => .error .missingDeletionMarker
    | some hash => .ok [⟨⟨.deletionMarker, hash⟩, file.fileId, file.generation, none⟩]
  | .recoveryBlocked => .ok []

/-- Objects the current projection requires. -/
def requiredObjects : Except MetadataError (List RequiredObject) := do
  let lists ← (db.files.insertionSort fun a b => a.fileId ≤ b.fileId).mapM db.requiredOf
  return lists.flatten

structure HistoryObject where
  object : ObjectId
  expectedLen : Option ℕ
  committedAt : Time
  deriving DecidableEq, Repr

/-- The rows of a table joined with the projection of their file. -/
def joinFiles {α : Type} (rows : List α) (file : α → FileId) (object : α → ObjectId)
    (len : α → Option ℕ) : List HistoryObject :=
  rows.flatMap fun row => (db.files.filter (·.fileId == file row)).map
    fun f => ⟨object row, len row, f.updatedAt⟩

/-- Every object any generation references. -/
def historyRows : List HistoryObject :=
  db.joinFiles db.fileManifests (·.fileId) (⟨.manifest, ·.hash⟩) (fun _ => none) ++
  db.joinFiles db.fileChunks (·.fileId) (⟨.chunk, ·.hash⟩) (fun row => some row.len) ++
  db.joinFiles db.deletionMarkers (·.fileId) (⟨.deletionMarker, ·.hash⟩) fun _ => none

/-- Order of the objects by kind and hash. -/
def ObjectOrder (a b : ObjectId) : Prop :=
  textRank a.kind < textRank b.kind ∨ a.kind = b.kind ∧ a.hash ≤ b.hash

instance : DecidableRel ObjectOrder := fun a b => by unfold ObjectOrder; infer_instance

/-- The first row of each object. -/
def firstOfEach : List ObjectId → List HistoryObject → List HistoryObject
  | _, [] => []
  | seen, row :: rows =>
    if row.object ∈ seen then firstOfEach seen rows
    else row :: firstOfEach (row.object :: seen) rows

/-- Objects of the history that garbage collection has not deleted. -/
def historyObjects : List HistoryObject :=
  firstOfEach [] ((db.historyRows.filter fun row => !db.gcApplied row.object).insertionSort
    fun a b => ObjectOrder a.object b.object)

end Database

end Metadata

end DistrHnsw
