import DistrHnsw.Trust.Versions

/-!
# Joining an agent

The portal's database and the clients that loaded grant material from it, the calls of `join_agent` for
one agent identifier with the messages of their exchanges, and the host of the agent.  A message stays
in flight once it is sent: it may be delivered late, more than once or never.
-/

namespace DistrHnsw

namespace Trust

open Metadata (Access AccessWrite AgentJoin SigningKeyRow Time)

section

variable [Ed25519] [Digests]

/-- What a client of the agents read of the counters and of the keys, and made of them. -/
structure Client where
  state : UInt64 × UInt64
  rows : List SigningKeyRow
  material : GrantMaterial

/-- A grant that was issued. -/
structure Issued where
  signer : PortalSigner
  epoch : UInt64
  expect : Expectation
  gcProof : Option Uuid
  now : Int64
  nonce : Fixed 16

def Issued.token (grant : Issued) : List Char :=
  grant.signer.signGrant (grant.signer.grant grant.epoch grant.expect grant.gcProof grant.now grant.nonce)

/-- Where a call of `join_agent` stands. -/
inductive Phase where
  | asked
  | checking
  | returned
  | failed
  deriving DecidableEq

/-- A call: its token, the client it opened, what had been issued for the agent when it began, whether
the agent was known then, and where it stands. -/
structure JoinCall where
  token : List Char
  client : Client
  before : List Issued
  known : Bool
  phase : Phase

inductive Reply where
  | joined
  | alreadyJoined
  | refused
  | healthy
  deriving DecidableEq

/-- Everything the exchange is about. -/
structure Exchange where
  access : Access
  past : List Access
  clients : List Client
  issued : List Issued
  calls : ℕ → Option JoinCall
  replies : List (ℕ × Reply)
  host : Host

/-- A new database and a fresh volume. -/
def Exchange.new : Exchange := ⟨Metadata.Database.new.toAccess, [], [], [], fun _ => none, [], .fresh⟩

/-- A token hash as the database has it. -/
def rowTokenHash (token : List Char) : Metadata.TokenHash := fromLeBytes (tokenDigest token).1

/-- The token can still be used for the agent. -/
def tokenUsable (access : Access) (token : List Char) (agent : Metadata.AgentId) (now : Time) : Prop :=
  ∃ row, access.joinTokens.find? (·.tokenHash == rowTokenHash token) = some row ∧ row.agentId = agent ∧
    row.usedAt = none ∧ now ≤ row.expiresAt

/-- The call of an event. -/
def Event.call : Event → Option Call
  | .refused call _ => some call
  | .accepted call => some call
  | .interrupted call => some call
  | _ => none

/-- The operator starts the agent with a token, or it stops or starts. -/
def Event.ByOperator (event : Event) : Prop :=
  ∀ call, event.call = some call → (∃ token, call = .armJoinToken token) ∨ ∃ token, call = .resetAndArm token

/-- What the agent answers to a join. -/
def Event.reply : Event → Option Reply
  | .accepted _ => some .joined
  | .refused _ .alreadyJoined => some .alreadyJoined
  | .refused _ _ => some .refused
  | _ => none

/-- The agent accepts a request. -/
def Host.Accepts (host : Host) (token : List Char) (expect : Expectation) (time : Int64) : Prop :=
  ∃ trust grant, host.memory = some (some trust) ∧
    trust.keySet.keySet.verify token expect time = .ok grant

variable [MasterKey]

/-- A client reads the counters of some database and later the keys. -/
def Exchange.Opens (createdAt : Metadata.KeyId → Time) (x : Exchange) (client : Client) : Prop :=
  ∃ a ∈ x.access :: x.past, readGrantState a.grantState = .ok client.state ∧
    client.rows = signingKeys createdAt x.access ∧
    GrantMaterial.assemble client.state client.rows = .ok client.material

/-- One step of the exchange for the agent `id`, which the database knows as `agent`. -/
inductive ExchangeStep (createdAt : Metadata.KeyId → Time) (id : String) (agent : Metadata.AgentId) :
    Exchange → Exchange → Prop
  | write {x : Exchange} {b : Access} (ok : Writes x.access b) :
      ExchangeStep createdAt id agent x { x with access := b, past := x.access :: x.past }
  | opened {x : Exchange} {client : Client} (ok : x.Opens createdAt client) :
      ExchangeStep createdAt id agent x { x with clients := client :: x.clients }
  | issued {x : Exchange} {client : Client} (mem : client ∈ x.clients) (expect : Expectation)
      (own : expect.agentId = id) (gcProof : Option Uuid)
      (proof : expect.operation = .delete → gcProof ≠ none) (now : Int64) (nonce : Fixed 16)
      (fits : (client.material.active.grant client.material.epoch expect gcProof now nonce).Fits) :
      ExchangeStep createdAt id agent x { x with issued :=
        ⟨client.material.active, client.material.epoch, expect, gcProof, now, nonce⟩ :: x.issued }
  /-- `join_agent` finds the token, opens a client and sends its key set. -/
  | asked {x : Exchange} {k : ℕ} (fresh : x.calls k = none) {client : Client} {token : List Char}
      {now : Time} (usable : tokenUsable x.access token agent now) (ok : x.Opens createdAt client) :
      ExchangeStep createdAt id agent x { x with
        clients := client :: x.clients
        calls := Function.update x.calls k (some ⟨token, client, x.issued,
          x.access.agentJoins.any (·.agentId == agent), .asked⟩) }
  /-- The agent takes a join message; an answer is sent, and arrives or not. -/
  | delivered {x : Exchange} {k : ℕ} {call : JoinCall} (sent : x.calls k = some call)
      {valid : call.client.material.signedKeySet.Valid} {node : Option (List Char)} {event : Event}
      {host : Host} (step : Step x.host event host)
      (own : event.call = some (.join call.token call.client.material.signedKeySet valid node)) :
      ExchangeStep createdAt id agent x { x with
        host := host, replies := event.reply.toList.map (k, ·) ++ x.replies }
  /-- The agent takes the key set of a client. -/
  | pushed {x : Exchange} {client : Client} (mem : client ∈ x.clients)
      {valid : client.material.signedKeySet.Valid} {event : Event} {host : Host}
      (step : Step x.host event host) (own : event.call = some (.update client.material.signedKeySet valid)) :
      ExchangeStep createdAt id agent x { x with host := host }
  /-- The agent is started with a token, stopped, or started again. -/
  | hosted {x : Exchange} {event : Event} {host : Host} (step : Step x.host event host)
      (own : event.ByOperator) : ExchangeStep createdAt id agent x { x with host := host }
  /-- The reply was lost before: the agent has to accept a grant. -/
  | checks {x : Exchange} {k : ℕ} {call : JoinCall} (sent : x.calls k = some call)
      (asked : call.phase = .asked) (reply : (k, Reply.alreadyJoined) ∈ x.replies) :
      ExchangeStep createdAt id agent x { x with
        calls := Function.update x.calls k (some { call with phase := .checking }) }
  | healthy {x : Exchange} {k : ℕ} {call : JoinCall} (sent : x.calls k = some call)
      {grant : Issued} (mem : grant ∈ x.issued) (own : grant.signer = call.client.material.active)
      {time : Int64}
      (accepts : x.host.Accepts grant.token ⟨id, .health, .agent⟩ time) :
      ExchangeStep createdAt id agent x { x with replies := (k, .healthy) :: x.replies }
  /-- The token is burned and the join recorded. -/
  | recorded {x : Exchange} {k : ℕ} {call : JoinCall} (sent : x.calls k = some call)
      (answered : (call.phase = .asked ∧ (k, Reply.joined) ∈ x.replies) ∨
        (call.phase = .checking ∧ (k, Reply.healthy) ∈ x.replies))
      {join : AgentJoin} (own : join.agentId = agent) {now : Time} {b : Access}
      (ok : x.access.recordAgentJoin join (rowTokenHash call.token) now = .ok b) :
      ExchangeStep createdAt id agent x { x with
        access := b
        past := x.access :: x.past
        calls := Function.update x.calls k (some { call with phase := .returned }) }
  | failed {x : Exchange} {k : ℕ} {call : JoinCall} (sent : x.calls k = some call) :
      ExchangeStep createdAt id agent x { x with
        calls := Function.update x.calls k (some { call with phase := .failed }) }

end

end Trust

end DistrHnsw
