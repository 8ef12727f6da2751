import DistrHnsw.Lib.Program
import DistrHnsw.Metadata.Writes

/-!
# Uploads and deletes

The portal's operations are programs over the database: every write is one atomic step, and the
clock, fresh identifiers, the source file, sealing and the agents are asked.  A failpoint, an error
and a crash all stop a program between two steps.
-/

namespace DistrHnsw

namespace Metadata

/-- Hashing of object bytes and opening of sealed control objects under the master key. -/
class Sealing where
  digest : Bytes → ObjectHash
  decodeManifest : Bytes → Option DecodedManifest
  decodeDeletionMarker : Bytes → Option DeletionMarker

/-- Replicas an object needs, in distinct failure domains. -/
def minimumReplicas : ℕ := 2

/-- Path of a file on the portal's machine. -/
abbrev Source := ℕ

structure InspectedChunk where
  plaintextLen : ℕ
  plaintextHash : ℕ
  deriving DecidableEq, Repr

structure SourceInspection where
  requestFingerprint : ℕ
  info : FileInfo
  chunks : List InspectedChunk
  deriving DecidableEq, Repr

/-- What an agent's health answer comes to. -/
inductive Health where
  | unreachable
  | malformed
  | reports (id : AgentId) (failureDomain : Domain) (incarnation : IncarnationId)
      (effectiveFreeBytes : Option ℕ)
  deriving DecidableEq, Repr

/-- What a PUT comes to. -/
inductive Stored where
  | failed (error : String)
  | rejected
  | stored
  deriving DecidableEq, Repr

/-- What a GET comes to. -/
inductive Fetched where
  | failed
  | refused
  | body (bytes : Bytes)
  deriving DecidableEq, Repr

/-- What storing a new path on a backup target comes to. -/
inductive PutOutcome where
  | created
  | identical
  | refused (error : String)
  deriving DecidableEq, Repr

/-- An object of a backup catalog. -/
structure CatalogObject where
  object : ObjectId
  size : ℕ
  deriving DecidableEq, Repr

structure Catalog where
  jobId : JobId
  createdAt : Time
  objects : List CatalogObject
  snapshot : Option SnapshotRecord
  deriving DecidableEq, Repr

/-- What the portal asks of its surroundings. -/
inductive Query where
  | now
  | freshId
  | freshUpload
  | sourceExists (source : Source)
  | inspectSource (source : Source)
  | manifestFits (inspection : SourceInspection)
  | encryptChunk (source : Source) (upload : UploadRow) (plan : UploadChunkRow)
  | trailingBytes (source : Source)
  | encodeManifest (upload : UploadRow) (chunks : List ChunkRecord)
  | encodeMarker (file : FileId) (generation : ℕ) (deletedAt : Time)
  | health (agent : AgentTarget)
  | put (agent : AgentTarget) (object : ObjectId) (bytes : Bytes)
  | get (agent : AgentTarget) (object : ObjectId)
  | delete (agent : AgentTarget) (object : ObjectId) (proof : ProofId)
  | inventory (agent : AgentTarget) (kind : ObjectKind)
  | putObject (target : TargetId) (object : ObjectId) (bytes : Bytes)
  | getObject (target : TargetId) (object : ObjectId)
  | putSnapshot (target : TargetId) (name : SnapshotName) (snapshot : Database)
  | getSnapshot (target : TargetId) (name : SnapshotName)
  | putCatalog (target : TargetId) (catalog : Catalog)

/-- Fresh identifiers of an upload and the nonce of each chunk. -/
structure FreshUpload where
  uploadId : UploadId
  fileId : FileId
  nonce : ℕ → Bytes

def Query.Answer : Query → Type
  | .now => Time
  | .freshId => ℕ
  | .freshUpload => FreshUpload
  | .sourceExists _ => Bool
  | .inspectSource _ => Option SourceInspection
  | .manifestFits _ => Bool
  | .encryptChunk _ _ _ => Option Bytes
  | .trailingBytes _ => Bool
  | .encodeManifest _ _ => Option Bytes
  | .encodeMarker _ _ _ => Option Bytes
  | .health _ => Health
  | .put _ _ _ => Stored
  | .get _ _ => Fetched
  | .delete _ _ _ => Bool
  | .inventory _ _ => Option (List (ObjectHash × ℕ))
  | .putObject _ _ _ => PutOutcome
  | .getObject _ _ => Option (Option Bytes)
  | .putSnapshot _ _ _ => PutOutcome
  | .getSnapshot _ _ => Option (Option Database)
  | .putCatalog _ _ => PutOutcome

abbrev portalWorld : World where
  Store := Database
  Write := Write
  Error := MetadataError
  Query := Query
  Answer := Query.Answer
  perform := fun w db => w.perform db

/-- An operation of the portal. -/
abbrev Action (α : Type) := Program portalWorld α

namespace Portal

open Program

def now : Action Time := query (W := portalWorld) .now

def freshId : Action ℕ := query (W := portalWorld) .freshId

def freshUpload : Action FreshUpload := query (W := portalWorld) .freshUpload

def sourceExists (source : Source) : Action Bool := query (W := portalWorld) (.sourceExists source)

def inspectSource (source : Source) : Action SourceInspection := do
  let answer : Option SourceInspection ← query (W := portalWorld) (.inspectSource source)
  require answer

def manifestFits (inspection : SourceInspection) : Action Bool :=
  query (W := portalWorld) (.manifestFits inspection)

def encryptChunk (source : Source) (upload : UploadRow) (plan : UploadChunkRow) : Action Bytes := do
  let answer : Option Bytes ← query (W := portalWorld) (.encryptChunk source upload plan)
  require answer

def trailingBytes (source : Source) : Action Bool :=
  query (W := portalWorld) (.trailingBytes source)

def encodeManifest (upload : UploadRow) (chunks : List ChunkRecord) : Action Bytes := do
  let answer : Option Bytes ← query (W := portalWorld) (.encodeManifest upload chunks)
  require answer

def encodeDeletionMarker (file : FileId) (generation : ℕ) (deletedAt : Time) : Action Bytes := do
  let answer : Option Bytes ← query (W := portalWorld) (.encodeMarker file generation deletedAt)
  require answer

def health (agent : AgentTarget) : Action Health := query (W := portalWorld) (.health agent)

def put (agent : AgentTarget) (object : ObjectId) (bytes : Bytes) : Action Stored :=
  query (W := portalWorld) (.put agent object bytes)

def fetch (agent : AgentTarget) (object : ObjectId) : Action Fetched :=
  query (W := portalWorld) (.get agent object)

def deleteObject (agent : AgentTarget) (object : ObjectId) (proof : ProofId) : Action Bool :=
  query (W := portalWorld) (.delete agent object proof)

def inventory (agent : AgentTarget) (kind : ObjectKind) :
    Action (Option (List (ObjectHash × ℕ))) :=
  query (W := portalWorld) (.inventory agent kind)

def database : Action Database := get

/-- What one statement reads. -/
def reading {α : Type} (f : Database → α) : Action α := do
  let db ← database
  return f db

def write (w : Write) : Action Unit := perform (W := portalWorld) w

/-- Stop with an error when the condition holds. -/
def failIf (condition : Bool) : Action Unit := if condition then stop else pure ()

/-- Perform the action when the condition holds. -/
def onlyIf (condition : Prop) [Decidable condition] (action : Action Unit) : Action Unit :=
  if condition then action else pure ()

/-- What the process remembers of the agents it verified. -/
structure Memory where
  incarnations : List (AgentId × IncarnationId)
  capacities : List (AgentId × ℕ)
  deriving DecidableEq, Repr

/-- Verify one agent; `live` collects the domains that answered. -/
def verifyRemoteAgent (state : Memory × List Domain) (agent : AgentTarget) :
    Action (Memory × List Domain) := do
  match ← health agent with
  | .unreachable => return state
  | .malformed => stop
  | .reports id failureDomain incarnation free =>
    failIf (id != agent.id || failureDomain != agent.failureDomain)
    write (.observeAgentIncarnation agent incarnation)
    let capacities := match free with
      | some bytes => (agent.id, bytes) :: state.1.capacities
      | none => state.1.capacities
    return (⟨(agent.id, incarnation) :: state.1.incarnations, capacities⟩,
      agent.failureDomain :: state.2)

/-- Verify every configured agent and record its incarnation. -/
def verifyRemoteAgents (agents : List AgentTarget) (memory : Memory) : Action Memory := do
  let (memory, live) ← agents.foldlM verifyRemoteAgent (memory, [])
  failIf (decide (live.dedup.length < minimumReplicas))
  return memory

/-- Write the object to one agent.  A confirmed placement is written again. -/
def replicateTo (memory : Memory) (object : ObjectId) (bytes : Bytes) (agent : AgentTarget) :
    Action Unit := do
  let db ← database
  let alreadyConfirmed := db.placementConfirmed object agent.id
  match memory.incarnations.lookup agent.id with
  | none => return ()
  | some incarnation =>
    onlyIf (!alreadyConfirmed) (write (.ensurePendingPlacement object agent incarnation))
    let answer ← put agent object bytes
    onlyIf (answer = .stored ∧ !alreadyConfirmed) (write (.confirmPlacement object agent.id))

def replicate (agents : List AgentTarget) (memory : Memory) (object : ObjectId) (bytes : Bytes) :
    Action Unit := do
  agents.forM (replicateTo memory object bytes)
  let db ← database
  failIf (decide (db.confirmedDomains object < minimumReplicas))

def requireAdmissibleCapacity (agents : List AgentTarget) (memory : Memory) (upload : UploadId) :
    Action Unit := do
  let db ← database
  let required := ((db.chunks upload).map fun chunk => chunk.plaintextLen + 16).sum
  let domains := (agents.filter fun agent =>
    (memory.capacities.lookup agent.id).all (fun free => decide (required ≤ free)) &&
      (memory.incarnations.lookup agent.id).isSome).map (·.failureDomain)
  failIf (decide (domains.dedup.length < minimumReplicas))

section

variable [Sealing]

/-- The agent returns the object's bytes. -/
def holdsValid (agent : AgentTarget) (object : ObjectId) : Action Bool := do
  match ← fetch agent object with
  | .body bytes => return Sealing.digest bytes == object.hash
  | _ => return false

/-- The domains in which a configured agent with a confirmed placement returns the object. -/
def requireLiveDomains (agents : List AgentTarget) (object : ObjectId) : Action Unit := do
  let db ← database
  let holders := agents.filter fun agent => (db.confirmedAgents object).contains agent.id
  let valid ← holders.mapM fun agent => do
    return (agent.failureDomain, ← holdsValid agent object)
  failIf (decide (((valid.filter (·.2)).map (·.1)).dedup.length < minimumReplicas))

def ensureLiveUploadReplicaFloor (agents : List AgentTarget) (upload : UploadId)
    (manifest : ObjectHash) : Action Unit := do
  requireLiveDomains agents ⟨.manifest, manifest⟩
  let db ← database
  (db.chunks upload).forM fun chunk => do
    let (hash, _) ← require chunk.object
    requireLiveDomains agents ⟨.chunk, hash⟩

/-- The plan of a new upload, when the finished manifest could be stored. -/
def newUpload (key : IdempotencyKey) (inspection : SourceInspection) : Action NewUpload := do
  let fresh ← freshUpload
  failIf (!(← manifestFits inspection))
  return ⟨fresh.uploadId, key, inspection.requestFingerprint, fresh.fileId, inspection.info,
    inspection.chunks.zipIdx.map fun (chunk, ordinal) =>
      ⟨ordinal, envelopeVersion, chunk.plaintextLen, chunk.plaintextHash, fresh.nonce ordinal⟩⟩

/-- Encrypt, plan and replicate one chunk. -/
def sendChunk (agents : List AgentTarget) (memory : Memory) (source : Source) (upload : UploadRow)
    (plan : UploadChunkRow) : Action ChunkRecord := do
  let ciphertext ← encryptChunk source upload plan
  let hash := Sealing.digest ciphertext
  failIf (decide (4294967296 ≤ ciphertext.length))
  write (.setChunkObject upload.uploadId plan.ordinal hash ciphertext.length)
  replicate agents memory ⟨.chunk, hash⟩ ciphertext
  return ⟨plan.ordinal, plan.plaintextLen, plan.nonce, hash, ciphertext.length⟩

/-- The manifest of the upload: the planned one, else a newly sealed one. -/
def planManifest (upload : UploadRow) (chunks : List ChunkRecord) :
    Action (ObjectHash × Bytes) := do
  match upload.manifest with
  | some planned => return planned
  | none =>
    let bytes ← encodeManifest upload chunks
    let hash := Sealing.digest bytes
    write (.setManifestPlan upload.uploadId hash bytes)
    return (hash, bytes)

/-- Everything an upload does once it is planned. -/
def transfer (agents : List AgentTarget) (memory : Memory) (source : Source) (upload : UploadRow) :
    Action FileId := do
  requireAdmissibleCapacity agents memory upload.uploadId
  onlyIf (upload.state = .staging) (write (.advanceUpload upload.uploadId .replicatingChunks))
  let db ← database
  let records ← (db.chunks upload.uploadId).mapM (sendChunk agents memory source upload)
  failIf (← trailingBytes source)
  let (hash, bytes) ← planManifest upload records
  replicate agents memory ⟨.manifest, hash⟩ bytes
  ensureLiveUploadReplicaFloor agents upload.uploadId hash
  write (.commitFile upload.uploadId minimumReplicas (← now))
  let db ← database
  let file ← require (db.fileById upload.fileId)
  return file.fileId

/-- The source must be the one the key was used for. -/
def inspectAgain (source : Source) (upload : UploadRow) : Action Unit := do
  let inspection ← inspectSource source
  failIf (upload.requestFingerprint != inspection.requestFingerprint)

/-- `portal upload`. -/
def upload (agents : List AgentTarget) (memory : Memory) (source : Source) (key : IdempotencyKey) :
    Action FileId := do
  let db ← database
  match db.uploadByIdempotency key with
  | some existing =>
    if existing.state = .committed then
      onlyIf (← sourceExists source) (inspectAgain source existing)
      return existing.fileId
    else
      let memory ← verifyRemoteAgents agents memory
      inspectAgain source existing
      transfer agents memory source existing
  | none =>
    let memory ← verifyRemoteAgents agents memory
    let inspection ← inspectSource source
    let planned ← newUpload key inspection
    write (.createUpload planned (← now))
    let db ← database
    let created ← require (db.uploadByIdempotency key)
    transfer agents memory source created

/-- The marker of a new delete: one that an earlier attempt minted, else a newly sealed one. -/
def planMarker (file : FileId) (generation : ℕ) : Action (Time × ObjectHash × Bytes) := do
  let deletedAt ← now
  let db ← database
  match db.pendingDeleteMarker file generation with
  | some pending => return pending
  | none =>
    let bytes ← encodeDeletionMarker file generation deletedAt
    return (deletedAt, Sealing.digest bytes, bytes)

/-- The operation of a delete request, planned when there is none. -/
def planDelete (file : FileId) (key : IdempotencyKey) : Action DeleteOperation := do
  let db ← database
  match db.deleteByIdempotency key with
  | some existing =>
    failIf (existing.fileId != file)
    return existing
  | none =>
    let db ← database
    let projection ← require (db.fileProjection file)
    failIf (projection.state != .committed)
    let generation ← require (nextGeneration projection.generation).toOption
    let (deletedAt, hash, bytes) ← planMarker file generation
    let operation ← freshId
    write (.createDeleteOperation ⟨operation, key, file, generation, deletedAt, hash, bytes⟩)
    let db ← database
    require (db.deleteByIdempotency key)

/-- `portal delete`. -/
def delete (agents : List AgentTarget) (memory : Memory) (file : FileId) (key : IdempotencyKey) :
    Action DeleteOperation := do
  let operation ← planDelete file key
  if operation.state = .committed then return operation
  else
    let memory ← verifyRemoteAgents agents memory
    replicate agents memory ⟨.deletionMarker, operation.markerHash⟩ operation.markerBytes
    requireLiveDomains agents ⟨.deletionMarker, operation.markerHash⟩
    write (.commitDelete operation.operationId minimumReplicas (← now))
    let db ← database
    require (db.deleteByIdempotency operation.idempotencyKey)

end

end Portal

end Metadata

end DistrHnsw
