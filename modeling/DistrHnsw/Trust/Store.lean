import DistrHnsw.Trust.KeySet

/-!
# An agent's trust state

The trust files of a volume, and what the agent keeps in memory.  A call looks at both, then replaces
or removes files one after the other and changes the memory at the end; every file step may fail, with
or without having taken effect, and the process may end between any two of them.
-/

namespace DistrHnsw

namespace Trust

open Reader

section

variable [Ed25519]

/-! ## Files and memory -/

/-- What an agent trusts; no node for an agent joined over loopback. -/
structure AgentTrust where
  keySet : SignedKeySet
  portalNode : Option (List Char)
  deriving DecidableEq

/-- The contents of the trust files. -/
structure Volume where
  token : Option (List Char)
  keySet : Option Bytes
  portalNode : Option (List Char)
  deriving DecidableEq, Repr

def Volume.empty : Volume := ⟨none, none, none⟩

inductive TrustError where
  | alreadyJoined
  | notJoined
  | noJoinToken
  | badToken
  | untrusted
  | notNewer (offered current : UInt64)
  | epochRegression (offered current : UInt64)
  | malformed (error : GrantError)
  deriving DecidableEq

/-- A file is replaced or removed durably. -/
inductive FileStep where
  | replaceToken (hash : List Char)
  | removeToken
  | replaceKeySet (bytes : Bytes)
  | removeKeySet
  | replaceNode (node : List Char)
  | removeNode
  deriving DecidableEq, Repr

def FileStep.run (volume : Volume) : FileStep → Volume
  | .replaceToken hash => { volume with token := some hash }
  | .removeToken => { volume with token := none }
  | .replaceKeySet bytes => { volume with keySet := some bytes }
  | .removeKeySet => { volume with keySet := none }
  | .replaceNode node => { volume with portalNode := some node }
  | .removeNode => { volume with portalNode := none }

/-- After file steps. -/
def Volume.after (volume : Volume) (steps : List FileStep) : Volume := steps.foldl FileStep.run volume

section

variable [Digests]

/-- What the volume's files say. -/
def Volume.load (volume : Volume) : Except TrustError (Option AgentTrust) :=
  match volume.keySet with
  | none => .ok none
  | some bytes =>
    match SignedKeySet.fromBytes bytes with
    | .ok keySet => .ok (some ⟨keySet, volume.portalNode.map trim⟩)
    | .error error => .error (.malformed error)

/-- A join that crashed before it removed the token is finished. -/
def Volume.openSteps (volume : Volume) : List FileStep :=
  if volume.keySet.isSome then [.removeToken] else []

/-! ## Calls -/

def tokenDigest (token : List Char) : Fixed 32 := blake3 (utf8Bytes (String.ofList (trim token)))

/-- The stored verifier of a join token. -/
def joinTokenHash (token : List Char) : List Char := Hex.encode (tokenDigest token).1

/-- A digest from its 64 digits. -/
def hashFromHex (text : List Char) : Option (Fixed 32) :=
  (Hex.decode text).bind fun bytes => if h : bytes.length = 32 then some ⟨bytes, h⟩ else none

/-- The calls of a trust store; key sets come from `fromBytes`. -/
inductive Call where
  | armJoinToken (token : List Char)
  | resetAndArm (token : List Char)
  | join (token : List Char) (keySet : SignedKeySet) (valid : keySet.Valid)
      (portalNode : Option (List Char))
  | update (offered : SignedKeySet) (valid : offered.Valid)

/-- What a call does when every file step succeeds. -/
structure Plan where
  steps : List FileStep
  state : Option AgentTrust

def armJoinToken (state : Option AgentTrust) (token : List Char) : Plan :=
  if state.isSome then ⟨[], state⟩ else ⟨[.replaceToken (joinTokenHash token)], state⟩

def resetAndArm (token : List Char) : Plan :=
  ⟨[.replaceToken (joinTokenHash token), .removeKeySet, .removeNode], none⟩

/-- The portal's node is pinned, or none is. -/
def pinNode : Option (List Char) → FileStep
  | some node => .replaceNode node
  | none => .removeNode

def join (volume : Volume) (state : Option AgentTrust) (token : List Char) (keySet : SignedKeySet)
    (portalNode : Option (List Char)) : Except TrustError Plan :=
  if state.isSome then .error .alreadyJoined
  else match volume.token with
    | none => .error .noJoinToken
    | some stored =>
      match hashFromHex (trim stored) with
      | none => .error .noJoinToken
      | some stored =>
        if stored ≠ tokenDigest token then .error .badToken
        else if !keySet.selfSigned then .error .untrusted
        else .ok ⟨[pinNode portalNode, .replaceKeySet keySet.toBytes, .removeToken],
          some ⟨keySet, portalNode⟩⟩

def update (state : Option AgentTrust) (offered : SignedKeySet) : Except TrustError Plan :=
  match state with
  | none => .error .notJoined
  | some current =>
    if !offered.signedBy current.keySet.keySet then .error .untrusted
    else if offered.keySet.version ≤ current.keySet.keySet.version then
      .error (.notNewer offered.keySet.version current.keySet.keySet.version)
    else if offered.keySet.epoch < current.keySet.keySet.epoch then
      .error (.epochRegression offered.keySet.epoch current.keySet.keySet.epoch)
    else .ok ⟨[.replaceKeySet offered.toBytes], some { current with keySet := offered }⟩

def Call.plan (call : Call) (volume : Volume) (state : Option AgentTrust) : Except TrustError Plan :=
  match call with
  | .armJoinToken token => .ok (Trust.armJoinToken state token)
  | .resetAndArm token => .ok (Trust.resetAndArm token)
  | .join token keySet _ portalNode => Trust.join volume state token keySet portalNode
  | .update offered _ => Trust.update state offered

/-! ## An agent's host -/

/-- The volume, and the memory of the agent that runs on it, if one does. -/
structure Host where
  volume : Volume
  memory : Option (Option AgentTrust)
  deriving DecidableEq

inductive Event where
  | refused (call : Call) (error : TrustError)
  | accepted (call : Call)
  | interrupted (call : Call)
  | stopped
  | opened (loaded : Option AgentTrust)
  | openFailed

/-- One call, start or end of the agent. -/
inductive Step : Host → Event → Host → Prop
  | refused {v : Volume} {m : Option AgentTrust} {call : Call} {error : TrustError}
      (no : call.plan v m = .error error) : Step ⟨v, some m⟩ (.refused call error) ⟨v, some m⟩
  | accepted {v : Volume} {m : Option AgentTrust} {call : Call} {plan : Plan}
      (ok : call.plan v m = .ok plan) :
      Step ⟨v, some m⟩ (.accepted call) ⟨v.after plan.steps, some plan.state⟩
  | failed {v : Volume} {m : Option AgentTrust} {call : Call} {plan : Plan}
      (ok : call.plan v m = .ok plan) (done : ℕ) :
      Step ⟨v, some m⟩ (.interrupted call) ⟨v.after (plan.steps.take done), some m⟩
  | crashed {v : Volume} {m : Option AgentTrust} {call : Call} {plan : Plan}
      (ok : call.plan v m = .ok plan) (done : ℕ) :
      Step ⟨v, some m⟩ (.interrupted call) ⟨v.after (plan.steps.take done), none⟩
  | stopped (v : Volume) (m : Option AgentTrust) : Step ⟨v, some m⟩ .stopped ⟨v, none⟩
  | opened {v : Volume} {loaded : Option AgentTrust} (ok : v.load = .ok loaded) :
      Step ⟨v, none⟩ (.opened loaded) ⟨v.after v.openSteps, some loaded⟩
  | openFailed (v : Volume) (done : ℕ) :
      Step ⟨v, none⟩ .openFailed ⟨v.after (v.openSteps.take done), none⟩

/-- Calls that touch files meet a condition. -/
def Event.Meets (Meets : Host → Call → Prop) (x : Host) : Event → Prop
  | .accepted call => Meets x call
  | .interrupted call => Meets x call
  | _ => True

/-- Any number of steps. -/
inductive Run (Meets : Host → Call → Prop) (x : Host) : List Event → Host → Prop
  | nil : Run Meets x [] x
  | snoc {past : List Event} {y z : Host} {event : Event} (before : Run Meets x past y)
      (step : Step y event z) (meets : event.Meets Meets y) : Run Meets x (past ++ [event]) z

/-- The volume before anything happened. -/
def Host.fresh : Host := ⟨.empty, none⟩

end

end

end Trust

end DistrHnsw
