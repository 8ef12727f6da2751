import DistrHnsw.Metadata.Portal

/-!
# Recovery

`portal recover`: the control objects on the agents and the projection are the evidence of each
file; its highest generation decides, and with `--apply` the decision is written.  The report is
left out, so are the notes and repairs it lists.
-/

namespace DistrHnsw

namespace Metadata

namespace Recovery

open Program Portal

inductive RecoveryMode where
  | plan
  | apply
  deriving DecidableEq, Repr

/-- Agents with a verified copy of one object, and the bytes of a control object. -/
structure ReplicaSet where
  object : ObjectId
  bytes : Option Bytes
  validAgents : List AgentId
  deriving DecidableEq, Repr

inductive Evidence where
  | manifest (hash : ObjectHash) (decoded : Option DecodedManifest)
  | deletion (hash : ObjectHash) (decoded : Option DeletionMarker)
  deriving DecidableEq, Repr

def Evidence.object : Evidence → ObjectId
  | .manifest hash _ => ⟨.manifest, hash⟩
  | .deletion hash _ => ⟨.deletionMarker, hash⟩

/-! ## Inventories -/

/-- An entry of an agent's inventory. -/
structure Listed where
  object : ObjectId
  agent : AgentTarget
  size : ℕ
  deriving DecidableEq, Repr

/-- One namespace of an agent, in strictly ascending order. -/
def listNamespace (agent : AgentTarget) (kind : ObjectKind) : Action (List Listed) := do
  let objects ← require (← inventory agent kind)
  failIf (!decide ((objects.map Prod.fst).Pairwise (· < ·)))
  return objects.map fun (hash, size) => ⟨⟨kind, hash⟩, agent, size⟩

/-- Applying observes the incarnation; planning only refuses an inactive one. -/
def observeOrCheck (mode : RecoveryMode) (agent : AgentTarget) (incarnation : IncarnationId) :
    Action Unit :=
  match mode with
  | .apply => write (.observeAgentIncarnation agent incarnation)
  | .plan => do
    let db ← database
    failIf (db.refuseInactiveIncarnation agent.id incarnation).toOption.isNone

/-- Verify an agent and list what it holds. -/
def scanAgent (mode : RecoveryMode) (agent : AgentTarget) :
    Action ((AgentId × IncarnationId) × List Listed) := do
  match ← health agent with
  | .unreachable => stop
  | .malformed => stop
  | .reports id failureDomain incarnation _ =>
    failIf (id != agent.id || failureDomain != agent.failureDomain)
    observeOrCheck mode agent incarnation
    let lists ← [ObjectKind.chunk, .manifest, .deletionMarker].mapM (listNamespace agent)
    return ((agent.id, incarnation), lists.flatten)

/-! ## Verified replicas -/

/-- The control objects the projection names. -/
def projectedControlObjects (db : Database) : List ObjectId :=
  db.files.filterMap fun file =>
    match file.state with
    | .deleted => file.deletionHash.map (⟨.deletionMarker, ·⟩)
    | _ => file.manifestHash.map (⟨.manifest, ·⟩)

section

variable [Sealing]

/-- Read one listed copy; a verified one counts. -/
def verifyCopy (replica : ReplicaSet) (entry : Listed) : Action ReplicaSet := do
  match ← fetch entry.agent entry.object with
  | .failed => stop
  | .refused => return replica
  | .body bytes =>
    if Sealing.digest bytes = entry.object.hash ∧ bytes.length = entry.size then
      return { replica with
        bytes := if entry.object.kind = .chunk then none else some (replica.bytes.getD bytes)
        validAgents := replica.validAgents ++ [entry.agent.id] }
    else return replica

/-- The verified copies of one listed object. -/
def verifyReplicas (known : List ObjectId) (listed : List Listed) (object : ObjectId) :
    Action (Option ReplicaSet) := do
  let copies := (listed.filter (·.object == object)).insertionSort
    fun a b => a.agent.id ≤ b.agent.id
  let replica ← copies.foldlM verifyCopy ⟨object, none, []⟩
  if replica.validAgents = [] then
    failIf (object.kind != .chunk && !known.contains object)
    return none
  else return some replica

/-- The file and generation a control object speaks for. -/
def decodeEvidence (replica : ReplicaSet) : Action (Option (FileId × ℕ × Evidence)) := do
  match replica.bytes with
  | none => return none
  | some bytes =>
    match replica.object.kind with
    | .chunk => return none
    | .manifest =>
      let manifest ← require (Sealing.decodeManifest bytes)
      return some (manifest.fileId, manifest.generation,
        .manifest replica.object.hash (some manifest))
    | .deletionMarker =>
      let marker ← require (Sealing.decodeDeletionMarker bytes)
      return some (marker.fileId, marker.generation, .deletion replica.object.hash (some marker))

end

/-! ## The evidence of each file -/

/-- What the projection itself says of a file. -/
def projectedEvidence (file : FileRow) : Option Evidence :=
  match file.state with
  | .deleted => file.deletionHash.map (.deletion · none)
  | _ => file.manifestHash.map (.manifest · none)

/-- Evidence of the agents, then what the projection adds to it. -/
def allEvidence (found : List (FileId × ℕ × Evidence)) (projections : List FileRow) :
    List (FileId × ℕ × Evidence) :=
  projections.foldl (fun evidence file =>
    match projectedEvidence file with
    | none => evidence
    | some own =>
      if evidence.any fun (id, generation, other) => id == file.fileId &&
          generation == file.generation && other.object == own.object then evidence
      else evidence ++ [(file.fileId, file.generation, own)]) found

structure FileCandidate where
  fileId : FileId
  generation : ℕ
  evidence : List Evidence
  deriving DecidableEq, Repr

/-- The evidence of each file at its highest generation, by file. -/
def fileCandidates (evidence : List (FileId × ℕ × Evidence)) : List FileCandidate :=
  ((evidence.map (·.1)).dedup.insertionSort (· ≤ ·)).map fun file =>
    let own := (evidence.filter (·.1 == file)).map Prod.snd
    let generation := (own.map (·.1)).foldl max 0
    ⟨file, generation, (own.filter (·.1 == generation)).map (·.2)⟩

/-! ## Decisions -/

/-- Several markers of one generation all say that the file is deleted. -/
def redundantMarkers (evidence : List Evidence) : Bool :=
  decide (1 < (evidence.map (·.object)).dedup.length) &&
    evidence.all (·.object.kind == .deletionMarker)

def conflicted (evidence : List Evidence) : Bool :=
  decide (1 < (evidence.map (·.object)).dedup.length) && !redundantMarkers evidence

/-- A decoded marker is preferred when committed, then when earlier, then by hash. -/
def preferredMarker (committed : Option ObjectHash) (a b : ObjectHash × DeletionMarker) : Bool :=
  let foreignA := decide (some a.1 ≠ committed)
  let foreignB := decide (some b.1 ≠ committed)
  (!foreignA && foreignB) || (foreignA == foreignB &&
    (decide (a.2.deletedAt < b.2.deletedAt) ||
      (a.2.deletedAt == b.2.deletedAt && decide (a.1 ≤ b.1))))

/-- The preferred of the decoded markers. -/
def chooseMarker (committed : Option ObjectHash) :
    List (ObjectHash × DeletionMarker) → Option (ObjectHash × DeletionMarker)
  | [] => none
  | marker :: rest =>
    match chooseMarker committed rest with
    | none => some marker
    | some best => some (if preferredMarker committed marker best then marker else best)

def decodedMarkers (evidence : List Evidence) : List (ObjectHash × DeletionMarker) :=
  evidence.filterMap fun item =>
    match item with
    | .deletion hash (some marker) => some (hash, marker)
    | _ => none

/-- The evidence that decides. -/
def winner (committed : Option ObjectHash) (evidence : List Evidence) : Option Evidence :=
  if redundantMarkers evidence then
    match chooseMarker committed (decodedMarkers evidence) with
    | some (hash, marker) => some (.deletion hash (some marker))
    | none => evidence.head?
  else evidence.head?

/-! ## Repair -/

/-- What one recovery run works with. -/
structure RepairContext where
  agents : List AgentTarget
  incarnations : List (AgentId × IncarnationId)
  mode : RecoveryMode
  deriving DecidableEq, Repr

section

variable [Sealing]

/-- A verified copy from any of the holders. -/
def fetchFrom (agents : List AgentTarget) (holders : List AgentId) (object : ObjectId) :
    Action (Option Bytes) :=
  (agents.filter fun agent => holders.contains agent.id).foldlM (fun found agent =>
    match found with
    | some bytes => return some bytes
    | none => do
      match ← fetch agent object with
      | .body bytes => return if Sealing.digest bytes = object.hash then some bytes else none
      | _ => return none) none

/-- The bytes of a replica: kept ones, else a verified copy. -/
def replicaBytes (agents : List AgentTarget) (holders : List AgentId) (replica : ReplicaSet) :
    Action (Option Bytes) :=
  match replica.bytes with
  | some bytes => return some bytes
  | none => fetchFrom agents holders replica.object

/-- Record a confirmed placement for the incarnation that was verified. -/
def recordPlacement (context : RepairContext) (object : ObjectId) (agent : AgentTarget) :
    Action Unit := do
  let incarnation ← require (context.incarnations.lookup agent.id)
  write (.ensurePendingPlacement object agent incarnation)
  write (.confirmPlacement object agent.id)

/-- How far the repair of one object has come. -/
structure Repair where
  valid : List AgentId
  domains : List Domain
  issues : List String
  deriving DecidableEq, Repr

def Repair.fails (repair : Repair) (issue : String) : Repair :=
  { repair with issues := repair.issues ++ [issue] }

/-- Copy first, then count the destination after a read-back. -/
def repairTo (context : RepairContext) (replica : ReplicaSet) (repair : Repair)
    (target : AgentTarget) : Action Repair := do
  let object := replica.object
  if decide (minimumReplicas ≤ repair.domains.dedup.length) || repair.valid.contains target.id ||
      repair.domains.contains target.failureDomain then return repair
  else
    match context.mode with
    | .plan => return { repair with domains := target.failureDomain :: repair.domains }
    | .apply =>
      match ← replicaBytes context.agents repair.valid replica with
      | none => return repair.fails ("no valid source could be read for " ++ describe object ++
          " during repair")
      | some bytes =>
        match ← put target object bytes with
        | .failed error => return repair.fails ("repair target " ++ toString target.id ++
            " failed for " ++ describe object ++ ": " ++ error)
        | .rejected => return repair.fails ("repair target " ++ toString target.id ++
            " rejected " ++ describe object)
        | .stored =>
          if ← holdsValid target object then
            recordPlacement context object target
            return { repair with
              valid := repair.valid ++ [target.id]
              domains := target.failureDomain :: repair.domains }
          else return repair.fails ("repair target " ++ toString target.id ++
            " did not read back " ++ describe object ++ " intact")

/-- The replicas known so far and the issues of the file at hand. -/
structure Progress where
  replicas : List ReplicaSet
  issues : List String
  deriving DecidableEq, Repr

def Progress.fails (progress : Progress) (issue : String) : Progress :=
  { progress with issues := progress.issues ++ [issue] }

/-- Bring one required object to two failure domains. -/
def ensureRf2 (context : RepairContext) (progress : Progress) (object : ObjectId) :
    Action Progress := do
  match progress.replicas.find? (·.object == object) with
  | none => return progress.fails ("missing required " ++ describe object)
  | some replica =>
    if replica.validAgents = [] then
      return progress.fails ("no valid replica for required " ++ describe object)
    else
      let holders := context.agents.filter fun agent => replica.validAgents.contains agent.id
      let repair ← context.agents.foldlM (repairTo context replica)
        ⟨replica.validAgents, holders.map (·.failureDomain), []⟩
      let issues := repair.issues ++ if repair.domains.dedup.length < minimumReplicas then
        ["required " ++ describe object ++ " cannot reach RF2"] else []
      onlyIf (context.mode = .apply) <| (repair.valid.insertionSort (· ≤ ·)).forM fun id =>
        match context.agents.find? (·.id == id) with
        | some agent => recordPlacement context object agent
        | none => return ()
      return ⟨progress.replicas.map fun other =>
          if other.object = object then { other with validAgents := repair.valid } else other,
        progress.issues ++ issues⟩

/-- The objects a file needs under the winning evidence, each brought to two failure domains. -/
def ensureWinner (context : RepairContext) (progress : Progress) (winner : Evidence) :
    Action Progress :=
  match winner with
  | .manifest hash (some manifest) =>
    (⟨.manifest, hash⟩ :: manifest.chunks.map fun chunk => ⟨.chunk, chunk.ciphertextHash⟩).foldlM
      (ensureRf2 context) progress
  | .manifest _ none =>
    return progress.fails "winning manifest is absent from agent inventories"
  | .deletion hash (some _) => ensureRf2 context progress ⟨.deletionMarker, hash⟩
  | .deletion _ none =>
    return progress.fails "winning deletion marker is absent from agent inventories"

/-- What the evidence of a file comes to: a conflict is an issue, else the winner is ensured. -/
def settle (context : RepairContext) (replicas : List ReplicaSet) (candidate : FileCandidate)
    (winner : Evidence) : Action Progress :=
  if conflicted candidate.evidence then
    return ⟨replicas, ["conflicting immutable evidence at generation " ++
      toString candidate.generation]⟩
  else ensureWinner context ⟨replicas, []⟩ winner

/-- The marker a blocked decision carries. -/
def blockedHash (conflict : Bool) : Evidence → Option ObjectHash
  | .deletion hash _ => if conflict then none else some hash
  | .manifest _ _ => none

/-- Write the decision of one file. -/
def applyDecision (candidate : FileCandidate) (winner : Evidence) (replicas : List ReplicaSet)
    (issues : List String) : Action Unit := do
  let time ← now
  if issues ≠ [] then
    write (.markRecoveryBlocked candidate.fileId candidate.generation
      (blockedHash (conflicted candidate.evidence) winner) ("; ".intercalate issues) time)
  else
    match winner with
    | .manifest hash (some manifest) =>
      let replica ← require (replicas.find? (·.object == ⟨.manifest, hash⟩))
      let bytes ← require replica.bytes
      write (.applyRecoveredManifest manifest hash bytes time)
    | .deletion hash (some marker) => write (.applyRecoveredDeletion marker hash time)
    | _ => stop

def recoverFile (context : RepairContext) (committed : List (FileId × ObjectHash))
    (replicas : List ReplicaSet) (candidate : FileCandidate) : Action (List ReplicaSet) := do
  let winner ← require (winner (committed.lookup candidate.fileId) candidate.evidence)
  let progress ← settle context replicas candidate winner
  onlyIf (context.mode = .apply)
    (applyDecision candidate winner progress.replicas progress.issues)
  return progress.replicas

/-- The marker of each deleted file. -/
def committedDeletions (db : Database) : List (FileId × ObjectHash) :=
  (db.files.filter (·.state == .deleted)).filterMap fun file =>
    file.deletionHash.map fun hash => (file.fileId, hash)

/-- `portal recover`. -/
def recover (mode : RecoveryMode) (agents : List AgentTarget) : Action Unit := do
  let scans ← agents.mapM (scanAgent mode)
  let listed := (scans.map (·.2)).flatten
  let objects := (listed.map (·.object)).dedup.insertionSort Database.ObjectOrder
  let db ← database
  let replicas ← objects.mapM (verifyReplicas (projectedControlObjects db) listed)
  let replicas := replicas.filterMap id
  let found ← replicas.mapM decodeEvidence
  let projections := db.files.insertionSort fun a b => a.fileId ≤ b.fileId
  let evidence := allEvidence (found.filterMap id) projections
  let context := ⟨agents, scans.map (·.1), mode⟩
  let _ ← (fileCandidates evidence).foldlM (recoverFile context (committedDeletions db)) replicas
  onlyIf (mode = .apply) (write .clearRecoveryPending)

end

end Recovery

end Metadata

end DistrHnsw
