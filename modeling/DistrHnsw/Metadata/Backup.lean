import DistrHnsw.Metadata.Portal

/-!
# Backup

`portal backup`: a snapshot of the database is taken first, then every object of the history is
copied to the target and read back, and the snapshot is shipped when all of them are verified.
-/

namespace DistrHnsw

namespace Metadata

/-- Hash of a snapshot's bytes. -/
class Snapshots where
  hash : Database → ℕ

namespace Backup

open Program Portal Database

/-- The first eight hex digits of a hash. -/
def hashPrefix (hash : ℕ) : ℕ := hash / 2 ^ 224

def objectPath (object : ObjectId) : String :=
  "backup/v1/objects/" ++ asStr object.kind ++ "/" ++ toString object.hash

def exitCode (report : BackupReport) : ℕ :=
  if report.totals.failed = 0 ∧ report.issues = [] then 0 else 2

/-! ## The target -/

def putObject (target : TargetId) (object : ObjectId) (bytes : Bytes) : Action PutOutcome :=
  query (W := portalWorld) (.putObject target object bytes)

def getObject (target : TargetId) (object : ObjectId) : Action (Option (Option Bytes)) :=
  query (W := portalWorld) (.getObject target object)

def putSnapshot (target : TargetId) (name : SnapshotName) (snapshot : Database) :
    Action PutOutcome :=
  query (W := portalWorld) (.putSnapshot target name snapshot)

def getSnapshot (target : TargetId) (name : SnapshotName) : Action (Option (Option Database)) :=
  query (W := portalWorld) (.getSnapshot target name)

def putCatalog (target : TargetId) (catalog : Catalog) : Action PutOutcome :=
  query (W := portalWorld) (.putCatalog target catalog)

/-- An error ends the job as failed. -/
def abandon {α : Type} (job : JobId) : Action α := do
  write (.finishBackupJob job .failed none)
  stop

/-! ## Objects -/

/-- What the job knows so far. -/
structure Progress where
  totals : BackupTotals
  issues : List String
  catalog : List CatalogObject
  oldestUnverified : Option Time
  deriving DecidableEq, Repr

def Progress.start (history : ℕ) : Progress := ⟨⟨history, 0, 0, 0, 0⟩, [], [], none⟩

def Progress.verifiedBefore (progress : Progress) (object : HistoryObject) : Progress :=
  { progress with
    totals := { progress.totals with verifiedBefore := progress.totals.verifiedBefore + 1 }
    catalog := progress.catalog ++ [⟨object.object, object.expectedLen.getD 0⟩] }

def Progress.unverified (progress : Progress) (object : HistoryObject) (issue : String) :
    Progress :=
  { progress with
    totals := { progress.totals with failed := progress.totals.failed + 1 }
    issues := progress.issues ++ [issue]
    oldestUnverified := some <| match progress.oldestUnverified with
      | none => object.committedAt
      | some current => min current object.committedAt }

def Progress.stored (progress : Progress) : PutOutcome → Progress
  | .created => { progress with
      totals := { progress.totals with copiedNow := progress.totals.copiedNow + 1 } }
  | .identical => { progress with
      totals := { progress.totals with identicalOnTarget := progress.totals.identicalOnTarget + 1 } }
  | .refused _ => progress

section

variable [Sealing]

/-- A valid copy from any agent, those with a confirmed placement first. -/
def fetchFromAgents (agents : List AgentTarget) (object : HistoryObject) :
    Action (Option Bytes) := do
  let confirmed ← reading (·.confirmedAgents object.object)
  let ordered := agents.filter (fun agent => confirmed.contains agent.id) ++
    agents.filter fun agent => !confirmed.contains agent.id
  ordered.foldlM (fun found agent =>
    match found with
    | some bytes => return some bytes
    | none => do
      match ← fetch agent object.object with
      | .body bytes => return if Sealing.digest bytes = object.object.hash ∧
          object.expectedLen.all (· == bytes.length) then some bytes else none
      | _ => return none) none

/-- Read the copy on the target back; an intact one is recorded. -/
def verifyOnTarget (target : TargetId) (job : JobId) (progress : Progress)
    (object : HistoryObject) (size : ℕ) : Action Progress := do
  match ← getObject target object.object with
  | none => abandon job
  | some got =>
    if got.any fun bytes => Sealing.digest bytes == object.object.hash then
      write (.recordBackupObject target object.object)
      return { progress with catalog := progress.catalog ++ [⟨object.object, size⟩] }
    else return progress.unverified object <|
      "target copy of " ++ objectPath object.object ++ " did not read back intact"

/-- Copy one object of the history, unless it was verified before. -/
def backUpObject (agents : List AgentTarget) (target : TargetId) (job : JobId)
    (progress : Progress) (object : HistoryObject) : Action Progress := do
  if ← reading (·.backupObjectVerified target object.object) then
    return progress.verifiedBefore object
  else
    match ← fetchFromAgents agents object with
    | none => return progress.unverified object <|
        "no valid live copy of " ++ describe object.object ++ " to back up"
    | some bytes =>
      match ← putObject target object.object bytes with
      | .refused error => return progress.unverified object <|
          "target refused " ++ objectPath object.object ++ ": " ++ error
      | outcome => verifyOnTarget target job (progress.stored outcome) object bytes.length

end

/-! ## The snapshot -/

/-- A snapshot, unless the last one shipped has the same content generation. -/
def takeSnapshot (latest : Option BackupSnapshot) (generation : ℕ) : Action (Option Database) :=
  if latest.any (·.contentGeneration == generation) then return none
  else do
    let snapshot ← database
    return some snapshot

section

variable [Snapshots]

/-- Read the shipped snapshot back and record it. -/
def readBack (target : TargetId) (job : JobId) (generation : ℕ) (name : SnapshotName) (hash : ℕ) :
    Action SnapshotRecord := do
  match ← getSnapshot target name with
  | none => abandon job
  | some got =>
    if got.any fun stored => Snapshots.hash stored == hash then
      let createdAt ← now
      write (.recordBackupSnapshot ⟨target, name, hash, generation, createdAt, job⟩)
      return ⟨name, hash⟩
    else abandon job

def shipSnapshot (target : TargetId) (job : JobId) (generation : ℕ) (time : Time)
    (snapshot : Database) : Action SnapshotRecord := do
  let hash := Snapshots.hash snapshot
  let name : SnapshotName := ⟨time, hashPrefix hash⟩
  match ← putSnapshot target name snapshot with
  | .refused _ => abandon job
  | _ => readBack target job generation name hash

/-- The snapshot is shipped only once everything it may reference is verified. -/
def finishSnapshot (target : TargetId) (job : JobId) (generation : ℕ) (time : Time)
    (latest : Option BackupSnapshot) (pending : Option Database) (progress : Progress) :
    Action (Option SnapshotRecord × Bool × List String) := do
  let previous := latest.map fun row => (⟨row.name, row.snapshotHash⟩ : SnapshotRecord)
  match pending with
  | none => return (previous, true, progress.issues)
  | some snapshot =>
    if 0 < progress.totals.failed then
      return (previous, false, progress.issues ++ ["SQLite snapshot not shipped: " ++
        toString progress.totals.failed ++
        " object(s) it may reference are not verified on the target"])
    else
      let record ← shipSnapshot target job generation time snapshot
      return (some record, false, progress.issues)

end

/-! ## Integrity sampling -/

/-- Every `stride`-th element, the first of them included. -/
def everyNth {α : Type} (stride : ℕ) (l : List α) : List α :=
  (l.zipIdx.filter fun (_, position) => position % stride = 0).map (·.1)

section

variable [Sealing]

def sampleObject (target : TargetId) (job : JobId) (sample : IntegritySample)
    (object : CatalogObject) : Action IntegritySample := do
  let sample := { sample with sampled := sample.sampled + 1 }
  match ← getObject target object.object with
  | none => abandon job
  | some none => return { sample with missing := sample.missing ++ [object.object] }
  | some (some bytes) =>
    if Sealing.digest bytes = object.object.hash then
      return { sample with valid := sample.valid + 1 }
    else return { sample with corrupt := sample.corrupt ++ [object.object] }

/-- Every k-th verified object, offset by the job so that successive runs cover different ones. -/
def sampleObjects (target : TargetId) (job : JobId) (time : Time) (requested : ℕ)
    (verified : List CatalogObject) : Action (Option IntegritySample) := do
  if requested = 0 then return none
  else
    let stride := max (verified.length / requested) 1
    let chosen := (everyNth stride (verified.drop (job % stride))).take requested
    let sample ← chosen.foldlM (sampleObject target job) ⟨time, requested, 0, 0, [], []⟩
    return some sample

end

def sampleIssues (sample : Option IntegritySample) : List String :=
  match sample with
  | none => []
  | some record => (record.corrupt ++ record.missing).map fun object =>
      "offsite copy " ++ objectPath object ++ " failed integrity sampling"

/-! ## The job -/

/-- The job ends with its catalog on the target. -/
def fileCatalog (target : TargetId) (job : JobId) (catalog : Catalog) (report : BackupReport) :
    Action BackupReport := do
  match ← putCatalog target catalog with
  | .refused _ => abandon job
  | _ => return report

section

variable [Sealing] [Snapshots]

def runBackup (agents : List AgentTarget) (target : TargetId) (job : JobId) (sample : ℕ) :
    Action BackupReport := do
  -- Snapshot first, objects second.
  let generation ← reading (·.contentGeneration)
  let latest ← reading (·.latestBackupSnapshot target)
  let pending ← takeSnapshot latest generation
  let history ← reading (·.historyObjects)
  let progress ← history.foldlM (backUpObject agents target job) (.start history.length)
  let time ← now
  let (snapshot, skipped, issues) ←
    finishSnapshot target job generation time latest pending progress
  let integrity ← sampleObjects target job time sample progress.catalog
  fileCatalog target job ⟨job, time, progress.catalog, snapshot⟩
    ⟨job, target, progress.totals, snapshot, skipped,
      (progress.oldestUnverified.map fun oldest => max (time - oldest) 0).getD 0, integrity,
      issues ++ sampleIssues integrity⟩

/-- `portal backup`. -/
def backup (agents : List AgentTarget) (target : TargetId) (sample : ℕ) : Action BackupReport := do
  let job ← freshId
  write (.createBackupJob job target)
  let report ← runBackup agents target job sample
  write (.finishBackupJob job .complete (some report))
  return report

end

/-- `portal restore metadata`: the snapshot, which may predate objects on the agents. -/
def restoreMetadata (snapshot : Database) (time : Time) : Database :=
  { snapshot with recoveryPending := some time }

end Backup

end Metadata

end DistrHnsw
