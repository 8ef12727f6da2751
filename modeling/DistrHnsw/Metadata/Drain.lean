import DistrHnsw.Metadata.Fleet

/-!
# Draining an agent

`portal drain`: every history object that the agent holds is copied until the live agents other than
it return it from two failure domains, and only then its placement is orphaned.  The reconcile job
and the report are left out.
-/

namespace DistrHnsw

namespace Metadata

/-- Every placement of an agent, by kind and hash. -/
def Database.placementsForAgent (db : Database) (agent : AgentId) : List (ObjectId × PlacementState) :=
  ((db.placements.filter (·.agentId == agent)).insertionSort
    fun a b => ObjectOrder a.object b.object).map fun row => (row.object, row.state)

namespace Drain

open Program Portal

def desiredReplicas : ℕ := 2

/-- An agent that answered, under the incarnation it reported. -/
structure LiveAgent where
  target : AgentTarget
  incarnationId : IncarnationId
  deriving DecidableEq, Repr

def verifyAgent (live : List LiveAgent) (agent : AgentTarget) : Action (List LiveAgent) := do
  match ← health agent with
  | .unreachable => return live
  | .malformed => stop
  | .reports id failureDomain incarnation _ =>
    failIf (id != agent.id || failureDomain != agent.failureDomain)
    write (.observeAgentIncarnation agent incarnation)
    return live ++ [⟨agent, incarnation⟩]

def verifyAgents (agents : List AgentTarget) : Action (List LiveAgent) :=
  agents.foldlM verifyAgent []

/-- The copies that were read intact, by agent, and the bytes to copy from. -/
structure Copies where
  valid : List (AgentId × Domain)
  bytes : Option Bytes
  deriving DecidableEq, Repr

/-- Copies on agents other than the drained one reach the floor and the desired number. -/
def satisfied (drained : AgentId) (valid : List (AgentId × Domain)) : Bool :=
  let others := valid.filter (·.1 != drained)
  decide (minimumReplicas ≤ (others.map (·.2)).dedup.length) &&
    decide (desiredReplicas ≤ others.length)

/-- One copy for each agent. -/
def insertCopy (valid : List (AgentId × Domain)) (agent : AgentTarget) : List (AgentId × Domain) :=
  (agent.id, agent.failureDomain) :: valid.filter (·.1 != agent.id)

section

variable [Sealing]

def fetchValid (agent : AgentTarget) (object : ObjectId) : Action (Option Bytes) := do
  match ← fetch agent object with
  | .body bytes => return if Sealing.digest bytes = object.hash then some bytes else none
  | _ => return none

/-- Read one copy; a source other than the drained agent is preferred. -/
def readCopy (drained : AgentId) (object : ObjectId) (copies : Copies) (agent : LiveAgent) :
    Action Copies := do
  match ← fetchValid agent.target object with
  | none => return copies
  | some got =>
    return ⟨insertCopy copies.valid agent.target,
      if copies.bytes = none ∨ agent.target.id ≠ drained then some got else copies.bytes⟩

/-- Copy-first placement: PUT, read back, confirm. -/
def placeCopy (agent : LiveAgent) (object : ObjectId) (bytes : Bytes) : Action Bool := do
  match ← put agent.target object bytes with
  | .stored =>
    match ← fetchValid agent.target object with
    | none => return false
    | some _ =>
      write (.setPlacementVerification object agent.target agent.incarnationId .confirmed)
      return true
  | _ => return false

/-- Copy to one more agent, unless the object is satisfied or is there already. -/
def moveTo (drained : AgentId) (dryRun : Bool) (object : ObjectId) (bytes : Bytes)
    (valid : List (AgentId × Domain)) (agent : LiveAgent) : Action (List (AgentId × Domain)) := do
  if satisfied drained valid then return valid
  else if agent.target.id = drained ∨ valid.any (·.1 == agent.target.id) then return valid
  else if dryRun then return insertCopy valid agent.target
  else
    if ← placeCopy agent object bytes then return insertCopy valid agent.target
    else return valid

/-- Copies enough without the drained agent, when that can be reached. -/
def ensureCopies (live : List LiveAgent) (drained : AgentId) (dryRun : Bool) (object : ObjectId) :
    Action (List (AgentId × Domain)) := do
  let copies ← live.foldlM (readCopy drained object) ⟨[], none⟩
  if satisfied drained copies.valid then return copies.valid
  else
    match copies.bytes with
    | none => return copies.valid
    | some bytes => live.foldlM (moveTo drained dryRun object bytes) copies.valid

/-- Only with replacements confirmed does the source stop counting. -/
def drainObject (live : List LiveAgent) (drained : AgentId) (dryRun : Bool)
    (history : List Database.HistoryObject) (object : ObjectId) : Action Unit := do
  if !history.any (·.object == object) then return ()
  else
    let valid ← ensureCopies live drained dryRun object
    onlyIf (satisfied drained valid ∧ !dryRun)
      (write (.setPlacementState object drained .orphaned))

/-- `portal drain`. -/
def drain (agents : List AgentTarget) (drained : AgentId) (dryRun : Bool) : Action Unit := do
  failIf (!agents.any (·.id == drained))
  let pending ← reading (·.recoveryPending)
  failIf pending.isSome
  let live ← verifyAgents agents
  let history ← reading (·.historyObjects)
  let held ← reading fun db => (db.placementsForAgent drained).filter (·.2 != .orphaned)
  held.forM fun row => drainObject live drained dryRun history row.1

end

end Drain

end Metadata

end DistrHnsw
