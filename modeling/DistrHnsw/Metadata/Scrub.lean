import DistrHnsw.Lib.Text
import DistrHnsw.Metadata.Drain

/-!
# Scrubbing

`portal scrub`: the agents are asked who they are and what they list, every listed copy of a required
object is read back, and what was found is recorded on the placement.  In repair mode, and only after
everything was observed, missing and damaged copies are written again.  The texts of the issues are
left out, and so is the record of the job itself.
-/

namespace DistrHnsw

namespace Metadata

/-- Placements of an object, by agent. -/
def Database.placementStates (db : Database) (object : ObjectId) :
    List (AgentId × PlacementState × Option IncarnationId) :=
  ((db.allPlacements object).insertionSort fun a b => a.agentId ≤ b.agentId).map
    fun row => (row.agentId, row.state, row.incarnationId)

namespace Scrub

open Program Database

def desiredReplicas : ℕ := 2

inductive ObjectHealthState where
  | durable
  | degraded
  | atRisk
  | lost
  deriving DecidableEq, Repr

structure ObjectHealth where
  object : ObjectId
  fileId : FileId
  generation : ℕ
  verifiedCopies : ℕ
  verifiedDomains : ℕ
  state : ObjectHealthState
  deriving DecidableEq, Repr

/-! ## The database of a job -/

/-- The database and the health of each object after the last job. -/
structure Store where
  database : Database
  objectHealth : List ObjectHealth
  deriving DecidableEq, Repr

def insertObjectHealth (rows : List ObjectHealth) (row : ObjectHealth) :
    Except MetadataError (List ObjectHealth) := do
  let generation ← toI64 row.generation
  let _ ← toI64 row.verifiedCopies
  let _ ← toI64 row.verifiedDomains
  if generation = 0 ∨ rows.any (·.object == row.object) then .error .sqlite
  else .ok (rows ++ [row])

/-- One atomic write of a job. -/
inductive ScrubWrite where
  | portal (w : Write)
  | completeScan (scan : CompleteScan)
  | replaceObjectHealth (health : List ObjectHealth)
  deriving DecidableEq, Repr

def ScrubWrite.perform (s : Store) : ScrubWrite → Except MetadataError Store
  | .portal w => do
    let db ← w.perform s.database
    return { s with database := db }
  | .completeScan scan =>
    .ok { s with database := { s.database with scans := s.database.scans ++ [scan] } }
  | .replaceObjectHealth health => do
    let rows ← health.foldlM insertObjectHealth []
    return { s with objectHealth := rows }

abbrev scrubWorld : World where
  Store := Store
  Write := ScrubWrite
  Error := MetadataError
  Query := Query
  Answer := Query.Answer
  perform := fun w s => w.perform s

/-- The agents of a fleet, asked by a job; of the answers they may give they give some. -/
def scrubFleet [Sealing] (Gives : Fleet → ∀ q : Query, q.Answer → Prop) : Outside scrubWorld :=
  ⟨Fleet, fun fleet q answer fleet' => fleet.answers q answer fleet' ∧ Gives fleet q answer⟩

/-- A part of a job. -/
abbrev Job (α : Type) := Program scrubWorld α

def now : Job Time := query (W := scrubWorld) .now

def fetchHealth (agent : AgentTarget) : Job Health := query (W := scrubWorld) (.health agent)

def listNamespace (agent : AgentTarget) (kind : ObjectKind) :
    Job (Option (List (ObjectHash × ℕ))) := query (W := scrubWorld) (.inventory agent kind)

def put (agent : AgentTarget) (object : ObjectId) (bytes : Bytes) : Job Stored :=
  query (W := scrubWorld) (.put agent object bytes)

def get (agent : AgentTarget) (object : ObjectId) : Job Fetched :=
  query (W := scrubWorld) (.get agent object)

def fetchBytes (agent : AgentTarget) (object : ObjectId) : Job (Option Bytes) := do
  match ← get agent object with
  | .body bytes => return some bytes
  | _ => return none

def reading {α : Type} (f : Store → α) : Job α := do
  let s ← Program.get (W := scrubWorld)
  return f s

def write (w : ScrubWrite) : Job Unit := perform (W := scrubWorld) w

/-! ## The report -/

inductive JobMode where
  | verify
  | repair
  deriving DecidableEq, Repr

inductive IncarnationObservation where
  | known
  | superseded (previous : IncarnationId)
  | adopted (placements : ℕ)
  deriving DecidableEq, Repr

/-- What the agent's contact comes to. -/
def incarnationObservation (db : Database) (agent : AgentId) (incarnation : IncarnationId) :
    IncarnationObservation :=
  match db.activeIncarnationOf agent with
  | some current => if current = incarnation then .known else .superseded current
  | none => .adopted (db.placements.countP fun row => row.agentId == agent && row.incarnationId.isNone)

structure AgentScrubSummary where
  agentId : AgentId
  failureDomain : Domain
  reachable : Bool
  incarnationId : Option IncarnationId
  incarnation : Option IncarnationObservation
  listedObjects : ℕ
  unreferencedObjects : ℕ
  validCopies : ℕ
  corruptCopies : ℕ
  missingCopies : ℕ
  unverifiedCopies : ℕ
  deriving DecidableEq, Repr

/-- What a scan came to; a digest says that it was complete. -/
structure ScanSummary where
  agentId : AgentId
  incarnationId : IncarnationId
  kind : ObjectKind
  objectCount : ℕ
  inventoryDigest : Option ℕ
  deriving DecidableEq, Repr

inductive RepairStatus where
  | planned
  | applied
  deriving DecidableEq, Repr

structure ScrubRepair where
  object : ObjectId
  sourceAgent : AgentId
  targetAgent : AgentId
  status : RepairStatus
  deriving DecidableEq, Repr

structure PlacementFinding where
  agentId : AgentId
  state : PlacementState
  verifiedInThisJob : Bool
  deriving DecidableEq, Repr

structure ObjectFinding where
  object : ObjectId
  fileId : FileId
  generation : ℕ
  state : ObjectHealthState
  verifiedCopies : ℕ
  verifiedDomains : ℕ
  placements : List PlacementFinding
  deriving DecidableEq, Repr

structure ScrubTotals where
  agents : ℕ
  reachableAgents : ℕ
  requiredObjects : ℕ
  validCopies : ℕ
  corruptCopies : ℕ
  missingCopies : ℕ
  unverifiedCopies : ℕ
  repairsPlanned : ℕ
  repairsApplied : ℕ
  repairsDeferred : ℕ
  filesAffected : ℕ
  deriving DecidableEq, Repr

inductive Issue where
  | replaced (agent : AgentId) (incarnation previous : IncarnationId)
  | unreachable (agent : AgentId)
  | inventoryFailed (kind : ObjectKind) (agent : AgentId)
  | repairsDeferred
  | repairRejected (agent : AgentId) (object : ObjectId)
  | repairFailed (agent : AgentId) (object : ObjectId)
  | notReadBack (agent : AgentId) (object : ObjectId)
  deriving DecidableEq, Repr

structure ObjectHealthSummary where
  durable : ℕ
  degraded : ℕ
  atRisk : ℕ
  lost : ℕ
  deriving DecidableEq, Repr

def objectHealthSummary (rows : List ObjectHealth) : ObjectHealthSummary :=
  ⟨rows.countP (·.state == .durable), rows.countP (·.state == .degraded),
    rows.countP (·.state == .atRisk), rows.countP (·.state == .lost)⟩

structure ScrubReport where
  mode : JobMode
  /-- Every agent was reachable and every listing arrived to its end. -/
  completeObservation : Bool
  agents : List AgentScrubSummary
  scans : List ScanSummary
  health : ObjectHealthSummary
  findings : List ObjectFinding
  repairs : List ScrubRepair
  issues : List Issue
  totals : ScrubTotals
  deriving DecidableEq, Repr

/-- 0 when every required object is durable under a complete observation. -/
def ScrubReport.exitCode (report : ScrubReport) : ℕ :=
  let nonDurable := report.health.degraded + report.health.atRisk + report.health.lost
  if report.completeObservation = true ∧ nonDurable = 0 ∧ report.issues = [] then 0 else 2

/-- Update the summary of an agent. -/
def updateSummary (agent : AgentId) (f : AgentScrubSummary → AgentScrubSummary) :
    List AgentScrubSummary → List AgentScrubSummary
  | [] => []
  | summary :: rest =>
    if summary.agentId = agent then f summary :: rest else summary :: updateSummary agent f rest

/-! ## Contact -/

structure ReachableAgent where
  target : AgentTarget
  incarnationId : IncarnationId
  deriving DecidableEq, Repr

structure Contacts where
  issues : List Issue
  summaries : List AgentScrubSummary
  reachable : List ReachableAgent
  deriving DecidableEq, Repr

def contact (seen : Contacts) (agent : AgentTarget) : Job Contacts := do
  match ← fetchHealth agent with
  | .reports id failureDomain incarnation _ =>
    if id ≠ agent.id ∨ failureDomain ≠ agent.failureDomain then stop
    else
      let outcome ← reading fun s => incarnationObservation s.database agent.id incarnation
      write (.portal (.observeAgentIncarnation agent incarnation))
      let issues := match outcome with
        | .superseded previous => seen.issues ++ [.replaced agent.id incarnation previous]
        | _ => seen.issues
      return ⟨issues, seen.summaries ++ [⟨agent.id, agent.failureDomain, true, some incarnation,
        some outcome, 0, 0, 0, 0, 0, 0⟩], seen.reachable ++ [⟨agent, incarnation⟩]⟩
  | _ =>
    return { seen with
      issues := seen.issues ++ [.unreachable agent.id]
      summaries := seen.summaries ++ [⟨agent.id, agent.failureDomain, false, none, none,
        0, 0, 0, 0, 0, 0⟩] }

/-! ## Inventories -/

structure Inventories where
  issues : List Issue
  summaries : List AgentScrubSummary
  scans : List ScanSummary
  /-- Listed sizes, the last one listed first. -/
  listings : List ((AgentId × ObjectId) × ℕ)
  completeScans : List (AgentId × ObjectKind)
  deriving DecidableEq, Repr

/-- Text of a hash: 64 hexadecimal digits. -/
def hashText (hash : ObjectHash) : Bytes :=
  (Hex.encode (toLeBytes 32 hash).reverse).map fun digit => UInt8.ofNat digit.toNat

section

variable [Sealing]

/-- Digest of a complete listing. -/
def inventoryDigest (kind : ObjectKind) (objects : List (ObjectHash × ℕ)) : ℕ :=
  Sealing.digest ("distr-hnsw:scan-inventory:v1".toUTF8.toList ++ (asStr kind).toUTF8.toList ++
    objects.flatMap fun (hash, size) => hashText hash ++ toLeBytes 8 size)

/-- A namespace counts as observed only when its listing arrived to the end. -/
def observe (agent : ReachableAgent) (seen : Inventories) (kind : ObjectKind) : Job Inventories := do
  match ← listNamespace agent.target kind with
  | some objects =>
    let digest := inventoryDigest kind objects
    write (.completeScan ⟨agent.target.id, agent.incarnationId, kind, digest, ← now⟩)
    return { seen with
      summaries := updateSummary agent.target.id
        (fun summary => { summary with
          listedObjects := summary.listedObjects + objects.length }) seen.summaries
      scans := seen.scans ++
        [⟨agent.target.id, agent.incarnationId, kind, objects.length, some digest⟩]
      listings := (objects.map fun (hash, size) =>
        ((agent.target.id, ⟨kind, hash⟩), size)).reverse ++ seen.listings
      completeScans := seen.completeScans.insert (agent.target.id, kind) }
  | none =>
    return { seen with
      issues := seen.issues ++ [.inventoryFailed kind agent.target.id]
      scans := seen.scans ++ [⟨agent.target.id, agent.incarnationId, kind, 0, none⟩] }

def allKinds : List ObjectKind := [.chunk, .manifest, .deletionMarker]

def observeAgent (seen : Inventories) (agent : ReachableAgent) : Job Inventories :=
  allKinds.foldlM (observe agent) seen

/-- What the agents said, for the rest of the job. -/
structure Survey where
  agents : List AgentTarget
  reachable : List ReachableAgent
  listings : List ((AgentId × ObjectId) × ℕ)
  completeScans : List (AgentId × ObjectKind)
  deriving DecidableEq, Repr

def Survey.completeObservation (survey : Survey) : Bool :=
  decide (survey.reachable.length = survey.agents.length ∧
    survey.completeScans.length = survey.reachable.length * allKinds.length)

/-- Objects that are listed and not required. -/
def unreferenced (listings : List ((AgentId × ObjectId) × ℕ)) (required : List RequiredObject) :
    List (AgentId × ObjectId) :=
  ((listings.map Prod.fst).dedup).filter fun entry => !required.any (·.object == entry.2)

/-! ## Verification -/

structure Verification where
  /-- Agents whose copy was read back intact in this job, with their domains. -/
  valid : List (AgentId × Domain)
  /-- Agents whose placement was changed in this job. -/
  touched : List AgentId
  corrupt : ℕ
  missing : ℕ
  unverified : ℕ
  sourceBytes : Option Bytes
  deriving DecidableEq, Repr

def Verification.domains (verification : Verification) : ℕ :=
  (verification.valid.map (·.2)).dedup.length

/-- The bytes are the object's, as long as listed and expected. -/
def intact (required : RequiredObject) (size : ℕ) (bytes : Bytes) : Bool :=
  Sealing.digest bytes == required.object.hash && bytes.length == size &&
    required.expectedLen.all (· == bytes.length)

/-- Read a listed copy and record what it is. -/
def verifyListed (required : RequiredObject) (agent : ReachableAgent) (size : ℕ)
    (state : Verification × List AgentScrubSummary) :
    Job (Verification × List AgentScrubSummary) := do
  let bytes ← fetchBytes agent.target required.object
  if bytes.any (intact required size) then
    write (.portal (.setPlacementVerification required.object agent.target agent.incarnationId
      .confirmed))
    return ({ state.1 with
      valid := Drain.insertCopy state.1.valid agent.target
      touched := state.1.touched.insert agent.target.id
      sourceBytes := state.1.sourceBytes.or bytes },
      updateSummary agent.target.id
        (fun summary => { summary with validCopies := summary.validCopies + 1 }) state.2)
  else
    write (.portal (.setPlacementVerification required.object agent.target agent.incarnationId
      .corrupt))
    return ({ state.1 with
      touched := state.1.touched.insert agent.target.id
      corrupt := state.1.corrupt + 1 },
      updateSummary agent.target.id
        (fun summary => { summary with corruptCopies := summary.corruptCopies + 1 }) state.2)

/-- A copy that could not be checked. -/
def countUnverified (agent : AgentId) (state : Verification × List AgentScrubSummary) :
    Verification × List AgentScrubSummary :=
  ({ state.1 with unverified := state.1.unverified + 1 },
    updateSummary agent
      (fun summary => { summary with unverifiedCopies := summary.unverifiedCopies + 1 }) state.2)

/-- Verify the copy of one reachable agent; only a complete scan proves absence. -/
def verifyAgent (survey : Survey) (required : RequiredObject) (existing : List AgentId)
    (state : Verification × List AgentScrubSummary) (agent : ReachableAgent) :
    Job (Verification × List AgentScrubSummary) := do
  match survey.listings.lookup (agent.target.id, required.object) with
  | some size => verifyListed required agent size state
  | none =>
    if existing.contains agent.target.id then
      if survey.completeScans.contains (agent.target.id, required.object.kind) then
        write (.portal (.setPlacementVerification required.object agent.target agent.incarnationId
          .missing))
        return ({ state.1 with
          touched := state.1.touched.insert agent.target.id
          missing := state.1.missing + 1 },
          updateSummary agent.target.id
            (fun summary => { summary with missingCopies := summary.missingCopies + 1 }) state.2)
      else return countUnverified agent.target.id state
    else return state

/-- Placements on agents that were not reached are left as they are. -/
def countUnreached (survey : Survey) (existing : List AgentId)
    (state : Verification × List AgentScrubSummary) (agent : AgentTarget) :
    Verification × List AgentScrubSummary :=
  if !survey.reachable.any (·.target.id == agent.id) && existing.contains agent.id then
    countUnverified agent.id state
  else state

def verifyObject (survey : Survey) (required : RequiredObject) (summaries : List AgentScrubSummary) :
    Job (Verification × List AgentScrubSummary) := do
  let existing ← reading fun s => (s.database.placementStates required.object).map (·.1)
  let state ← survey.reachable.foldlM (verifyAgent survey required existing)
    (⟨[], [], 0, 0, 0, none⟩, summaries)
  return survey.agents.foldl (countUnreached survey existing) state

omit [Sealing] in
/-- A placement that is missing or corrupt. -/
def damaged (row : AgentId × PlacementState × Option IncarnationId) : Bool :=
  row.2.1 == .missing || row.2.1 == .corrupt

def classify (agents : List AgentTarget) (object : ObjectId) (verification : Verification)
    (db : Database) : ObjectHealthState :=
  if verification.valid.length = 0 then .lost
  else if verification.domains < minimumReplicas then .atRisk
  else if ((db.placementStates object).any fun row =>
      agents.any (·.id == row.1) && damaged row) = true ∨
      verification.valid.length < desiredReplicas then .degraded
  else .durable

/-! ## Repair -/

structure Repairing where
  verification : Verification
  repairs : List ScrubRepair
  issues : List Issue
  planned : ℕ
  applied : ℕ
  deriving DecidableEq, Repr

/-- A copy on the agent helps to reach the floor. -/
def extendsFloor (valid : List (AgentId × Domain)) (agent : AgentTarget) : Bool :=
  let domains := (valid.map (·.2)).dedup.length
  let needMore := decide (domains < minimumReplicas ∨ valid.length < desiredReplicas)
  let domainHasCopy := valid.any (·.2 == agent.failureDomain)
  needMore && !(domainHasCopy && decide (minimumReplicas ≤ domains))

/-- PUT, read back, and only then record the placement. -/
def repairAt (object : ObjectId) (bytes : Bytes) (source : AgentId) (agent : ReachableAgent)
    (state : Repairing) : Job Repairing := do
  let repair := ⟨object, source, agent.target.id, .planned⟩
  match ← put agent.target object bytes with
  | .failed _ =>
    return { state with
      issues := state.issues ++ [.repairFailed agent.target.id object]
      repairs := state.repairs ++ [repair]
      planned := state.planned + 1 }
  | .rejected =>
    return { state with
      issues := state.issues ++ [.repairRejected agent.target.id object]
      repairs := state.repairs ++ [repair]
      planned := state.planned + 1 }
  | .stored =>
    let readBack ← fetchBytes agent.target object
    if readBack.any (fun got => Sealing.digest got == object.hash) then
      write (.portal (.setPlacementVerification object agent.target agent.incarnationId .confirmed))
      return { state with
        verification := { state.verification with
          valid := Drain.insertCopy state.verification.valid agent.target
          touched := state.verification.touched.insert agent.target.id }
        repairs := state.repairs ++ [{ repair with status := .applied }]
        planned := state.planned + 1
        applied := state.applied + 1 }
    else
      return { state with
        issues := state.issues ++ [.notReadBack agent.target.id object]
        repairs := state.repairs ++ [repair]
        planned := state.planned + 1 }

/-- Agents with a damaged copy are repaired in place, others only to reach the floor. -/
def repairAgent (object : ObjectId) (bytes : Bytes) (source : AgentId) (damagedAgents : List AgentId)
    (state : Repairing) (agent : ReachableAgent) : Job Repairing :=
  if state.verification.valid.any (·.1 == agent.target.id) then return state
  else if extendsFloor state.verification.valid agent.target ||
      damagedAgents.contains agent.target.id then
    repairAt object bytes source agent state
  else return state

def repairObject (survey : Survey) (object : ObjectId) (bytes : Bytes) (state : Repairing) :
    Job Repairing := do
  let source ← require (state.verification.valid.map (·.1)).min?
  let damagedAgents ← reading fun s =>
    ((s.database.placementStates object).filter damaged).map (·.1)
  survey.reachable.foldlM (repairAgent object bytes source damagedAgents) state

/-! ## The job -/

structure Progress where
  summaries : List AgentScrubSummary
  issues : List Issue
  totals : ScrubTotals
  health : List ObjectHealth
  findings : List ObjectFinding
  repairs : List ScrubRepair
  filesAffected : List FileId
  deferredNotice : Bool
  deriving DecidableEq, Repr

def Progress.verified (progress : Progress) (verification : Verification)
    (summaries : List AgentScrubSummary) : Progress :=
  { progress with
    summaries := summaries
    totals := { progress.totals with
      validCopies := progress.totals.validCopies + verification.valid.length
      corruptCopies := progress.totals.corruptCopies + verification.corrupt
      missingCopies := progress.totals.missingCopies + verification.missing
      unverifiedCopies := progress.totals.unverifiedCopies + verification.unverified } }

def Progress.deferred (progress : Progress) : Progress :=
  { progress with
    totals := { progress.totals with repairsDeferred := progress.totals.repairsDeferred + 1 }
    issues := if progress.deferredNotice then progress.issues
      else progress.issues ++ [.repairsDeferred]
    deferredNotice := true }

def Progress.repaired (progress : Progress) (state : Repairing) : Progress :=
  { progress with
    repairs := state.repairs
    issues := state.issues
    totals := { progress.totals with
      repairsPlanned := progress.totals.repairsPlanned + state.planned
      repairsApplied := progress.totals.repairsApplied + state.applied } }

/-- Repairs wait until every agent and namespace was observed. -/
def repairWhenObserved (survey : Survey) (mode : JobMode) (required : RequiredObject)
    (verification : Verification) (progress : Progress) (state : ObjectHealthState) :
    Job (Progress × Verification × ObjectHealthState) := do
  if state ≠ .durable ∧ mode = .repair then
    if survey.completeObservation then
      match verification.sourceBytes with
      | none => return (progress, verification, state)
      | some bytes =>
        let done ← repairObject survey required.object bytes
          ⟨verification, progress.repairs, progress.issues, 0, 0⟩
        let state ← reading fun s =>
          classify survey.agents required.object done.verification s.database
        return (progress.repaired done, done.verification, state)
    else return (progress.deferred, verification, state)
  else return (progress, verification, state)

/-- What is reported of an object that is not durable. -/
def finding (required : RequiredObject) (verification : Verification) (state : ObjectHealthState)
    (db : Database) : ObjectFinding :=
  ⟨required.object, required.fileId, required.generation, state, verification.valid.length,
    verification.domains, (db.placementStates required.object).map fun row =>
      ⟨row.1, row.2.1, verification.valid.any (·.1 == row.1) || verification.touched.contains row.1⟩⟩

def scrubObject (survey : Survey) (mode : JobMode) (progress : Progress) (required : RequiredObject) :
    Job Progress := do
  let (verification, summaries) ← verifyObject survey required progress.summaries
  let progress := progress.verified verification summaries
  let state ← reading fun s => classify survey.agents required.object verification s.database
  let (progress, verification, state) ←
    repairWhenObserved survey mode required verification progress state
  let health := progress.health ++ [⟨required.object, required.fileId, required.generation,
    verification.valid.length, verification.domains, state⟩]
  if state = .durable then return { progress with health := health }
  else
    let found ← reading fun s => finding required verification state s.database
    return { progress with
      health := health
      findings := progress.findings ++ [found]
      filesAffected := progress.filesAffected.insert required.fileId }

/-- Contact the agents and list what they hold. -/
def survey (agents : List AgentTarget) : Job (Contacts × Inventories) := do
  let contacts ← agents.foldlM contact ⟨[], [], []⟩
  let seen ← contacts.reachable.foldlM observeAgent ⟨contacts.issues, contacts.summaries, [], [], []⟩
  return (contacts, seen)

/-- Copies no file needs, by agent. -/
def countUnreferenced (summaries : List AgentScrubSummary) (entries : List (AgentId × ObjectId)) :
    List AgentScrubSummary :=
  entries.foldl (fun summaries entry => updateSummary entry.1
    (fun summary => { summary with unreferencedObjects := summary.unreferencedObjects + 1 })
    summaries) summaries

def scrubObjects (survey : Survey) (mode : JobMode) (seen : Inventories)
    (required : List RequiredObject) : Job Progress :=
  required.foldlM (scrubObject survey mode)
    ⟨countUnreferenced seen.summaries (unreferenced survey.listings required), seen.issues,
      ⟨survey.agents.length, survey.reachable.length, required.length, 0, 0, 0, 0, 0, 0, 0, 0⟩,
      [], [], [], [], false⟩

/-- `portal scrub`. -/
def runJob (mode : JobMode) (agents : List AgentTarget) : Job ScrubReport := do
  let (contacts, seen) ← survey agents
  let survey := ⟨agents, contacts.reachable, seen.listings, seen.completeScans⟩
  let known ← reading fun s => s.database.requiredObjects
  let required ← require known.toOption
  let progress ← scrubObjects survey mode seen required
  write (.replaceObjectHealth progress.health)
  let health ← reading fun s => objectHealthSummary s.objectHealth
  return ⟨mode, survey.completeObservation, progress.summaries, seen.scans, health,
    progress.findings, progress.repairs, progress.issues,
    { progress.totals with filesAffected := progress.filesAffected.length }⟩

end

end Scrub

end Metadata

end DistrHnsw
