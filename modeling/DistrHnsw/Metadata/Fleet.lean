import DistrHnsw.Lib.Together
import DistrHnsw.Metadata.Portal

/-!
# The agents

An outside world in which agents keep the objects they store until they are told to delete them.
Any request may fail, and one that fails may have been carried out.
-/

namespace DistrHnsw

namespace Metadata

/-- What the agents are and hold; only intact copies count. -/
structure Fleet where
  holds : AgentId → ObjectId → Bool
  online : AgentId → Bool
  incarnation : AgentId → IncarnationId

namespace Fleet

/-- The agent holds the object, or does not any longer. -/
def setHolds (fleet : Fleet) (agent : AgentId) (object : ObjectId) (held : Bool) : Fleet :=
  { fleet with holds := fun other thing =>
    if other = agent ∧ thing = object then held else fleet.holds other thing }

variable {fleet : Fleet} {agent other : AgentId} {object thing : ObjectId} {held : Bool}

@[simp] theorem setHolds_self : (fleet.setHolds agent object held).holds agent object = held :=
  if_pos ⟨rfl, rfl⟩

theorem setHolds_of_ne (h : ¬ (other = agent ∧ thing = object)) :
    (fleet.setHolds agent object held).holds other thing = fleet.holds other thing := if_neg h

@[simp] theorem setHolds_online : (fleet.setHolds agent object held).online = fleet.online := rfl

@[simp] theorem setHolds_incarnation :
    (fleet.setHolds agent object held).incarnation = fleet.incarnation := rfl

/-- An online agent reports its own incarnation. -/
def healthOf (fleet : Fleet) (agent : AgentTarget) : Health → Prop
  | .reports _ _ incarnation _ => fleet.online agent.id = true ∧ incarnation = fleet.incarnation agent.id
  | _ => True

/-- A copy was stored, or an attempt failed that may have stored it. -/
def puts [Sealing] (fleet : Fleet) (agent : AgentTarget) (object : ObjectId) (bytes : Bytes)
    (fleet' : Fleet) : Stored → Prop
  | .stored => Sealing.digest bytes = object.hash ∧ fleet.online agent.id = true ∧
      fleet' = fleet.setHolds agent.id object true
  | _ => fleet' = fleet ∨
      Sealing.digest bytes = object.hash ∧ fleet' = fleet.setHolds agent.id object true

/-- An intact body comes from an online agent that holds the object. -/
def gets [Sealing] (fleet : Fleet) (agent : AgentTarget) (object : ObjectId) : Fetched → Prop
  | .body bytes => Sealing.digest bytes = object.hash →
      fleet.online agent.id = true ∧ fleet.holds agent.id object = true
  | _ => True

/-- A copy was deleted, or an attempt failed that may have deleted it. -/
def deletes (fleet : Fleet) (agent : AgentTarget) (object : ObjectId) (fleet' : Fleet) (done : Bool) :
    Prop :=
  fleet' = fleet.setHolds agent.id object false ∨ done = false ∧ fleet' = fleet

/-- The agents' answers; other questions are answered in any way. -/
def answers [Sealing] (fleet : Fleet) (q : Query) (answer : q.Answer) (fleet' : Fleet) : Prop :=
  match q with
  | .health agent => fleet' = fleet ∧ fleet.healthOf agent answer
  | .put agent object bytes => fleet.puts agent object bytes fleet' answer
  | .get agent object => fleet' = fleet ∧ fleet.gets agent object answer
  | .delete agent object _ => fleet.deletes agent object fleet' answer
  | _ => fleet' = fleet

end Fleet

/-- The outside world of a fleet. -/
def fleetWorld [Sealing] : Outside portalWorld := ⟨Fleet, fun fleet q => fleet.answers q⟩

namespace Fleet

variable [Sealing] (bodyOf : ObjectId → Bytes) (answer : ∀ q : Query, q.Answer) {fleet : Fleet}
  {agent : AgentTarget} {object : ObjectId}

def healthReply (fleet : Fleet) (agent : AgentTarget) : Health :=
  if fleet.online agent.id then
    .reports agent.id agent.failureDomain (fleet.incarnation agent.id) none
  else .unreachable

def putReply (fleet : Fleet) (agent : AgentTarget) (object : ObjectId) (bytes : Bytes) :
    Stored × Fleet :=
  if Sealing.digest bytes = object.hash ∧ fleet.online agent.id = true then
    (.stored, fleet.setHolds agent.id object true)
  else (.rejected, fleet)

def getReply (fleet : Fleet) (agent : AgentTarget) (object : ObjectId) : Fetched :=
  if fleet.online agent.id && fleet.holds agent.id object then .body (bodyOf object) else .refused

/-- Agents do what they are asked while they are online. -/
def reply (fleet : Fleet) : ∀ q : Query, q.Answer × Fleet
  | .health agent => (fleet.healthReply agent, fleet)
  | .put agent object bytes => fleet.putReply agent object bytes
  | .get agent object => (fleet.getReply bodyOf agent object, fleet)
  | .delete agent object _ => (true, fleet.setHolds agent.id object false)
  | q => (answer q, fleet)

omit [Sealing] in
theorem healthOf_reply : fleet.healthOf agent (fleet.healthReply agent) := by
  unfold healthReply
  by_cases hup : fleet.online agent.id = true
  · rw [if_pos hup]
    exact ⟨hup, rfl⟩
  · rw [if_neg hup]
    trivial

theorem puts_reply (bytes : Bytes) : fleet.puts agent object bytes
    (fleet.putReply agent object bytes).2 (fleet.putReply agent object bytes).1 := by
  unfold putReply
  by_cases hstores : Sealing.digest bytes = object.hash ∧ fleet.online agent.id = true
  · rw [if_pos hstores]
    exact ⟨hstores.1, hstores.2, rfl⟩
  · rw [if_neg hstores]
    exact .inl rfl

theorem gets_reply : fleet.gets agent object (fleet.getReply bodyOf agent object) := by
  unfold getReply
  by_cases hheld : (fleet.online agent.id && fleet.holds agent.id object) = true
  · rw [if_pos hheld]
    exact fun _ => Bool.and_eq_true_iff.1 hheld
  · rw [if_neg hheld]
    trivial

theorem answers_reply (q : Query) :
    fleet.answers q (fleet.reply bodyOf answer q).1 (fleet.reply bodyOf answer q).2 := by
  cases q with
  | health agent => exact ⟨rfl, healthOf_reply⟩
  | put agent object bytes => exact puts_reply bytes
  | get agent object => exact ⟨rfl, gets_reply bodyOf⟩
  | delete agent object proof => exact .inl rfl
  | _ => rfl

/-- The agents' replies. -/
def obliging : Program.Responder fleetWorld := fun fleet q => reply bodyOf answer fleet q

theorem faithful_obliging : (obliging bodyOf answer).Faithful := fun _ q =>
  answers_reply bodyOf answer q

end Fleet

end Metadata

end DistrHnsw
