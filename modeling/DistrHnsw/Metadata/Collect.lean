import DistrHnsw.Metadata.Portal

/-!
# Garbage collection

`portal gc`: candidates are the superseded generations of deleted files and the objects of expired
uploads; each gets a proof, and with `--apply` a proof that still holds deletes the object from
every agent.  The report is left out.
-/

namespace DistrHnsw

namespace Metadata

namespace Collect

open Program Portal

structure GcOptions where
  retentionSeconds : Time
  stagingGraceSeconds : Time
  apply : Bool
  deriving DecidableEq, Repr

/-- Where a candidate came from. -/
inductive CandidateOrigin where
  | deletedGeneration
  | staging (file : FileId)
  deriving DecidableEq, Repr

structure Candidate where
  object : ObjectId
  threshold : Time
  retention : Time
  origin : CandidateOrigin
  deriving DecidableEq, Repr

/-- A missing fact of a proof. -/
inductive Blocker where
  | unknownControlObjects (agent : AgentId) (kind : ObjectKind) (count : ℕ)
  | inventoryNotListed (agent : AgentId) (kind : ObjectKind)
  | notOnBackup (target : TargetId)
  | recoveryOwns (file : FileId) (state : FileState)
  | requiredByLiveGeneration
  | deletionMarkersRetained
  | retentionNotElapsed (elapsed retention : Time)
  | noActiveIncarnation
  | noCompleteObservation (agent : AgentId) (incarnation : IncarnationId) (kind : ObjectKind)
  | observationPredates (kind : ObjectKind) (threshold : Time)
  | placementPending (agent : AgentId)
  deriving DecidableEq, Repr

structure ProofContext where
  now : Time
  contentGeneration : ℕ
  incarnationDigest : IncarnationDigest
  observationDigest : ObservationDigest
  observations : List (IncarnationId × ObjectKind)
  active : List (AgentId × IncarnationId)
  backupTargets : List TargetId
  globalBlockers : List Blocker
  deriving DecidableEq, Repr

def proofContext (db : Database) (now : Time) : ProofContext where
  now := now
  contentGeneration := db.contentGeneration
  incarnationDigest := db.activeIncarnations
  observationDigest := db.latestCompleteScans.map fun scan =>
    (scan.incarnationId, scan.kind, scan.inventoryDigest)
  observations := db.latestCompleteScans.map fun scan => (scan.incarnationId, scan.kind)
  active := db.activeIncarnations
  backupTargets := db.backupTargets
  globalBlockers := []

/-- Both contexts were derived from the same inputs. -/
def ProofContext.sameInputs (a b : ProofContext) : Bool :=
  a.contentGeneration == b.contentGeneration && a.incarnationDigest == b.incarnationDigest &&
    a.observationDigest == b.observationDigest

/-- The proof was derived from the inputs of the context. -/
def ProofContext.supports (context : ProofContext) (proof : GcProof) : Bool :=
  proof.contentGeneration == context.contentGeneration &&
    proof.incarnationDigest == context.incarnationDigest &&
    proof.observationDigest == context.observationDigest

/-! ## Candidates -/

/-- The first candidate of each object. -/
def firstPerObject : List ObjectId → List Candidate → List Candidate
  | _, [] => []
  | seen, candidate :: rest =>
    if candidate.object ∈ seen then firstPerObject seen rest
    else candidate :: firstPerObject (candidate.object :: seen) rest

/-- Candidates of one deleted file. -/
def ofDeleted (options : GcOptions) (db : Database) (deleted : FileId × ℕ × Time) :
    List Candidate :=
  (db.supersededObjects deleted.1 deleted.2.1).map fun object =>
    ⟨object, deleted.2.2, options.retentionSeconds, .deletedGeneration⟩

/-- Candidates of one expired upload. -/
def ofUpload (options : GcOptions) (db : Database) (upload : UploadRow) : List Candidate :=
  (db.plannedObjects upload).map fun object =>
    ⟨object, upload.createdAt, options.stagingGraceSeconds, .staging upload.fileId⟩

def deletedCandidates (db : Database) (options : GcOptions) : List Candidate :=
  db.deletedFiles.flatMap (ofDeleted options db)

def stagingCandidates (db : Database) (options : GcOptions) (now : Time) : List Candidate :=
  (db.expiredUploads (now - options.stagingGraceSeconds)).flatMap (ofUpload options db)

/-- Place of a kind in the order of its declaration. -/
def kindRank : ObjectKind → ℕ
  | .chunk => 0
  | .manifest => 1
  | .deletionMarker => 2

/-- One candidate for each object, in the order of the objects. -/
def ordered (candidates : List Candidate) : List Candidate :=
  (firstPerObject [] candidates).insertionSort
    fun a b => kindRank a.object.kind < kindRank b.object.kind ∨
      a.object.kind = b.object.kind ∧ a.object.hash ≤ b.object.hash

/-- The candidates of one database. -/
def candidates (db : Database) (options : GcOptions) (now : Time) : List Candidate :=
  ordered (deletedCandidates db options ++ stagingCandidates db options now)

/-! ## Proofs -/

/-- The facts about the object that were read. -/
structure Facts where
  /-- Backup targets that lack a verified copy. -/
  lacking : List TargetId
  /-- The projection of the upload's file. -/
  projection : Option FileRow
  required : Bool
  scans : List CompleteScan
  placements : List Placement
  deriving DecidableEq, Repr

/-- The missing facts of one candidate. -/
def blockers (context : ProofContext) (candidate : Candidate) (facts : Facts) : List Blocker :=
  let object := candidate.object
  context.globalBlockers ++
  (match candidate.origin with
    | .deletedGeneration => facts.lacking.map .notOnBackup
    | .staging file => facts.projection.toList.map fun row => .recoveryOwns file row.state) ++
  (if facts.required then [.requiredByLiveGeneration] else []) ++
  (if object.kind = .deletionMarker then [.deletionMarkersRetained] else []) ++
  (if context.now - candidate.threshold < candidate.retention then
    [.retentionNotElapsed (context.now - candidate.threshold) candidate.retention] else []) ++
  (if context.active = [] then [.noActiveIncarnation] else []) ++
  ((context.active.filter fun (_, incarnation) =>
      !context.observations.contains (incarnation, object.kind)).map fun (agent, incarnation) =>
    .noCompleteObservation agent incarnation object.kind) ++
  (if (facts.scans.filter (·.kind == object.kind)).all
      fun scan => decide (candidate.threshold < scan.completedAt) then []
    else [.observationPredates object.kind candidate.threshold]) ++
  (facts.placements.filter (·.state == .pending)).map fun row => .placementPending row.agentId

/-- What a candidate of a deleted generation or of an upload makes the run read first. -/
def originFacts (db : Database) (context : ProofContext) (candidate : Candidate) :
    List TargetId × Option FileRow :=
  match candidate.origin with
  | .deletedGeneration =>
    (context.backupTargets.filter fun target => !db.backupObjectVerified target candidate.object, none)
  | .staging file => ([], db.fileProjection file)

/-- The missing facts of one candidate in one database. -/
def evaluate (db : Database) (context : ProofContext) (candidate : Candidate) : List Blocker :=
  let own := originFacts db context candidate
  blockers context candidate ⟨own.1, own.2, db.requiredByLiveFile candidate.object,
    db.latestCompleteScans, db.allPlacements candidate.object⟩

/-! ## The run

Every statement reads the database as it is then. -/

def proofContextNow (now : Time) : Action ProofContext := do
  let active ← reading (·.activeIncarnations)
  let scans ← reading (·.latestCompleteScans)
  let generation ← reading (·.contentGeneration)
  let targets ← reading (·.backupTargets)
  return ⟨now, generation, active,
    scans.map fun scan => (scan.incarnationId, scan.kind, scan.inventoryDigest),
    scans.map fun scan => (scan.incarnationId, scan.kind), active, targets, []⟩

/-- Whether one target has a verified copy. -/
def verifiedOn (object : ObjectId) (target : TargetId) : Action (TargetId × Bool) :=
  reading fun db => (target, db.backupObjectVerified target object)

def originFactsNow (context : ProofContext) (candidate : Candidate) :
    Action (List TargetId × Option FileRow) :=
  match candidate.origin with
  | .deletedGeneration => do
    let verified ← context.backupTargets.mapM (verifiedOn candidate.object)
    return ((verified.filter (!·.2)).map (·.1), none)
  | .staging file => reading fun db => ([], db.fileProjection file)

def evaluateNow (context : ProofContext) (candidate : Candidate) : Action (List Blocker) := do
  let own ← originFactsNow context candidate
  let required ← reading (·.requiredByLiveFile candidate.object)
  let scans ← reading (·.latestCompleteScans)
  let placements ← reading (·.allPlacements candidate.object)
  return blockers context candidate ⟨own.1, own.2, required, scans, placements⟩

def supersededCandidates (options : GcOptions) (deleted : FileId × ℕ × Time) :
    Action (List Candidate) := do
  let (file, generation, deletedAt) := deleted
  let manifests ← reading (·.supersededManifests file generation)
  let chunks ← reading (·.supersededChunks file generation)
  return (manifests ++ chunks).map fun object =>
    ⟨object, deletedAt, options.retentionSeconds, .deletedGeneration⟩

def uploadCandidates (options : GcOptions) (upload : UploadRow) : Action (List Candidate) := do
  let chunks ← reading (·.plannedChunks upload.uploadId)
  return (Database.plannedManifest upload ++ chunks).map fun object =>
    ⟨object, upload.createdAt, options.stagingGraceSeconds, .staging upload.fileId⟩

def candidatesNow (options : GcOptions) (now : Time) : Action (List Candidate) := do
  let files ← reading (·.deletedFiles)
  let deleted ← files.mapM (supersededCandidates options)
  let uploads ← reading (·.expiredUploads (now - options.stagingGraceSeconds))
  let staging ← uploads.mapM (uploadCandidates options)
  return ordered (deleted.flatten ++ staging.flatten)

def refuseWhileRecoveryPending : Action Unit := do
  let pending ← reading (·.recoveryPending)
  failIf pending.isSome

def verifyAgent (live : List AgentTarget) (agent : AgentTarget) : Action (List AgentTarget) := do
  match ← health agent with
  | .unreachable => return live
  | .malformed => stop
  | .reports id failureDomain incarnation _ =>
    failIf (id != agent.id || failureDomain != agent.failureDomain)
    write (.observeAgentIncarnation agent incarnation)
    return live ++ [agent]

def verifyAgents (agents : List AgentTarget) : Action (List AgentTarget) :=
  agents.foldlM verifyAgent []

/-- The metadata must know every control object the agents hold. -/
def controlObjectBlockers (live : List AgentTarget) : Action (List Blocker) := do
  let known ← reading (·.knownControlObjects)
  let blockers ← live.mapM fun agent => [ObjectKind.manifest, .deletionMarker].mapM fun kind => do
    match ← inventory agent kind with
    | some objects =>
      let unknown := objects.filter fun (hash, _) => !known.contains ⟨kind, hash⟩
      return if unknown = [] then [] else [.unknownControlObjects agent.id kind unknown.length]
    | none => return [Blocker.inventoryNotListed agent.id kind]
  return blockers.flatten.flatten

def makeStale (proof : ProofId) : Action Unit := write (.finishGcProof proof .stale)

/-- A planned proof that still has the same inputs; the others become stale. -/
def reuseProof (context : ProofContext) (matching : List GcProof) : Action (Option ProofId) :=
  matching.foldlM (fun found existing =>
    if context.supports existing then return some existing.proofId
    else do
      makeStale existing.proofId
      return found) none

def proofFor (context : ProofContext) (matching : List GcProof) (candidate : Candidate) :
    Action ProofId := do
  match ← reuseProof context matching with
  | some id => return id
  | none =>
    let id ← freshId
    write (.recordGcProof id ⟨candidate.object, context.contentGeneration,
      context.incarnationDigest, context.observationDigest, candidate.retention⟩)
    return id

/-- Delete the object from one agent. -/
def deleteFrom (object : ObjectId) (proof : ProofId) (all : Bool) (agent : AgentTarget) :
    Action Bool := do
  if ← deleteObject agent object proof then
    write (.deletePlacement object agent.id)
    return all
  else return false

/-- Deletion follows only a proof that holds now. -/
def applyProof (agents live : List AgentTarget) (context : ProofContext) (candidate : Candidate)
    (proof : ProofId) : Action Unit := do
  let fresh ← proofContextNow context.now
  let fresh := { fresh with globalBlockers := context.globalBlockers }
  let recheck ← evaluateNow fresh candidate
  if !fresh.sameInputs context || recheck != [] then makeStale proof
  else if live.length ≠ agents.length then return ()
  else
    let all ← live.foldlM (deleteFrom candidate.object proof) true
    onlyIf all do
      write (.deletePlacements candidate.object)
      write (.finishGcProof proof .applied)

/-- A live file requires the object, or it was collected already. -/
def settledAlready (object : ObjectId) : Action Bool := do
  if ← reading (·.requiredByLiveFile object) then return true
  else reading (·.gcApplied object)

def gcCandidate (options : GcOptions) (agents live : List AgentTarget) (context : ProofContext)
    (planned : List GcProof) (candidate : Candidate) : Action Unit := do
  if ← settledAlready candidate.object then return ()
  else
    let blockers ← evaluateNow context candidate
    let matching := planned.filter (·.object == candidate.object)
    if blockers != [] then matching.forM fun proof => makeStale proof.proofId
    else
      let proof ← proofFor context matching candidate
      onlyIf options.apply (applyProof agents live context candidate proof)

/-- `portal gc`. -/
def gc (options : GcOptions) (agents : List AgentTarget) : Action Unit := do
  let now ← now
  refuseWhileRecoveryPending
  let live ← verifyAgents agents
  let context ← proofContextNow now
  let blockers ← controlObjectBlockers live
  let context := { context with globalBlockers := blockers }
  let candidates ← candidatesNow options now
  let planned ← reading (·.plannedGcProofs)
  candidates.forM (gcCandidate options agents live context planned)

end Collect

end Metadata

end DistrHnsw
