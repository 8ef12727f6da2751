import DistrHnsw.Metadata.Tables

/-!
# Writes to keys, joins and identities

Grant-signing keys, join tokens, users, sessions and API keys.  Each function is one statement or
transaction; `now` is the clock given by the caller, or of the database.
-/

namespace DistrHnsw

namespace Metadata

/-- One write to keys, joins or identities. -/
inductive AccessWrite where
  | insertFirstSigningKey (row : SigningKeyRow)
  | rotateSigningKey (row : SigningKeyRow)
  | endSigningKey (id : KeyId) (revoke : Bool)
  | insertJoinToken (token : TokenHash) (agent : AgentId) (expiresAt : Time)
  | recordAgentJoin (join : AgentJoin) (token : TokenHash) (now : Time)
  | addUser (id : UserId) (displayName login : String) (now : Time)
  | disableUser (id : UserId) (now : Time)
  | insertSession (row : SessionRow)
  | touchSession (id : SessionId) (now : Time)
  | revokeSession (id : SessionId) (now : Time) (reason : String)
  | pruneSessions (cutoff : Time)
  | insertApiKey (row : ApiKeyRow)
  | revokeApiKey (id : KeyId) (user : Option UserId) (now : Time)
  | touchApiKey (id : KeyId) (now : Time)
  deriving DecidableEq, Repr

namespace Access

variable (access : Access)

/-! ## Signing keys -/

def insertSigningKey (row : SigningKeyRow) : Except MetadataError Access :=
  if access.signingKeys.any fun other => other.keyId == row.keyId || other.wrapId == row.wrapId ||
      row.status == .active && other.status == .active then .error .sqlite
  else .ok { access with signingKeys := access.signingKeys ++ [row] }

def bumpGrantState (newEpoch : Bool) : Access :=
  { access with grantState :=
    ⟨access.grantState.epoch + newEpoch.toNat, access.grantState.keySetVersion + 1⟩ }

/-- Nothing is stored when an active key already exists. -/
def insertFirstSigningKey (row : SigningKeyRow) : Except MetadataError Access :=
  if access.signingKeys.any (·.status == .active) then .ok access
  else access.insertSigningKey row

/-- The previous active key keeps verifying as `retiring`. -/
def rotateSigningKey (row : SigningKeyRow) : Except MetadataError Access := do
  let access ← insertSigningKey { access with signingKeys := access.signingKeys.map fun key =>
    if key.status = .active then { key with status := .retiring } else key } row
  return access.bumpGrantState false

def endSigningKey (id : KeyId) (revoke : Bool) : Except MetadataError Access :=
  match (access.signingKeys.find? (·.keyId == id)).map (·.status) with
  | none => .error (.invalidState ("no signing key " ++ toString id))
  | some .active => .error (.invalidState "rotate before ending the active signing key")
  | some .revoked => .ok access
  | some .retiring =>
    .ok (bumpGrantState { access with signingKeys := access.signingKeys.map fun key =>
      if key.keyId = id then { key with status := .revoked } else key } revoke)

/-! ## Joins -/

def insertJoinToken (token : TokenHash) (agent : AgentId) (expiresAt : Time) :
    Except MetadataError Access :=
  if access.joinTokens.any (·.tokenHash == token) then .error .sqlite
  else .ok { access with joinTokens := access.joinTokens ++ [⟨token, agent, expiresAt, none⟩] }

/-- The token can still be burned for the agent. -/
def tokenUnused (token : TokenHash) (agent : AgentId) (row : JoinTokenRow) : Bool :=
  row.tokenHash == token && row.agentId == agent && row.usedAt.isNone

def burnToken (token : TokenHash) (agent : AgentId) (now : Time) : Access :=
  { access with joinTokens := access.joinTokens.map fun row =>
    if tokenUnused token agent row then { row with usedAt := some now } else row }

/-- Burn the token; an agent that joins again raises the grant epoch. -/
def recordAgentJoin (join : AgentJoin) (token : TokenHash) (now : Time) :
    Except MetadataError Access :=
  if !access.joinTokens.any (tokenUnused token join.agentId) then
    .error (.invalidState "join token is unknown, used, or for another agent")
  else
    let burned := access.burnToken token join.agentId now
    if access.agentJoins.any (·.agentId == join.agentId) then
      .ok (bumpGrantState { burned with agentJoins := access.agentJoins.map fun row =>
        if row.agentId = join.agentId then join else row } true)
    else .ok { burned with agentJoins := access.agentJoins ++ [join] }

/-! ## Users, sessions and API keys -/

def hasUser (id : UserId) : Bool := access.users.any (·.userId == id)

def addUser (id : UserId) (displayName login : String) (now : Time) :
    Except MetadataError Access :=
  if access.identities.any (·.externalId == login) then
    .error (.invalidState ("tailscale login " ++ login ++ " already belongs to a user"))
  else if access.hasUser id then .error .sqlite
  else .ok { access with
    users := access.users ++ [⟨id, displayName, now, none⟩]
    identities := access.identities ++ [⟨login, id, now⟩] }

/-- A live session, revoked for a reason. -/
def revokeSessionRow (now : Time) (reason : String) (row : SessionRow) : SessionRow :=
  if row.revokedAt = none then { row with revokedAt := some now, revokeReason := some reason } else row

/-- A live key, revoked. -/
def revokeKeyRow (now : Time) (row : ApiKeyRow) : ApiKeyRow :=
  if row.revokedAt = none then { row with revokedAt := some now } else row

/-- Disable the user and revoke every session and API key they hold. -/
def disableUser (id : UserId) (now : Time) : Except MetadataError Access :=
  if !access.users.any (fun user => user.userId == id && user.disabledAt.isNone) then
    .error (.invalidState ("user " ++ toString id ++ " does not exist or is already disabled"))
  else .ok { access with
    users := access.users.map fun user =>
      if user.userId = id then { user with disabledAt := some now } else user
    sessions := access.sessions.map fun row =>
      if row.userId = id then revokeSessionRow now "user_disabled" row else row
    apiKeys := access.apiKeys.map fun row =>
      if row.userId = id then revokeKeyRow now row else row }

def insertSession (row : SessionRow) : Except MetadataError Access :=
  if (access.sessions.any fun other => other.sessionId == row.sessionId ||
      other.verifier == row.verifier) ∨ !access.hasUser row.userId then .error .sqlite
  else .ok { access with sessions := access.sessions ++
    [{ row with revokedAt := none, revokeReason := none }] }

def touchSession (id : SessionId) (now : Time) : Access :=
  { access with sessions := access.sessions.map fun row =>
    if row.sessionId = id ∧ row.revokedAt = none then { row with lastSeenAt := now } else row }

def revokeSession (id : SessionId) (now : Time) (reason : String) : Access :=
  { access with sessions := access.sessions.map fun row =>
    if row.sessionId = id then revokeSessionRow now reason row else row }

/-- Delete the sessions that ended before `cutoff`. -/
def pruneSessions (cutoff : Time) : Access :=
  { access with sessions := access.sessions.filter fun row =>
    !(decide (row.expiresAt < cutoff) || row.revokedAt.any fun time => decide (time < cutoff)) }

def insertApiKey (row : ApiKeyRow) : Except MetadataError Access :=
  if access.apiKeys.any (·.keyId == row.keyId) ∨ !access.hasUser row.userId then .error .sqlite
  else .ok { access with apiKeys := access.apiKeys ++
    [{ row with revokedAt := none, lastUsedAt := none }] }

def revokeApiKey (id : KeyId) (user : Option UserId) (now : Time) : Access :=
  { access with apiKeys := access.apiKeys.map fun row =>
    if row.keyId = id ∧ user.all (· == row.userId) then revokeKeyRow now row else row }

def touchApiKey (id : KeyId) (now : Time) : Access :=
  { access with apiKeys := access.apiKeys.map fun row =>
    if row.keyId = id then { row with lastUsedAt := some now } else row }

end Access

/-- What a write to keys, joins or identities does. -/
def AccessWrite.perform (access : Access) : AccessWrite → Except MetadataError Access
  | .insertFirstSigningKey row => access.insertFirstSigningKey row
  | .rotateSigningKey row => access.rotateSigningKey row
  | .endSigningKey id revoke => access.endSigningKey id revoke
  | .insertJoinToken token agent expiresAt => access.insertJoinToken token agent expiresAt
  | .recordAgentJoin join token now => access.recordAgentJoin join token now
  | .addUser id displayName login now => access.addUser id displayName login now
  | .disableUser id now => access.disableUser id now
  | .insertSession row => access.insertSession row
  | .touchSession id now => .ok (access.touchSession id now)
  | .revokeSession id now reason => .ok (access.revokeSession id now reason)
  | .pruneSessions cutoff => .ok (access.pruneSessions cutoff)
  | .insertApiKey row => access.insertApiKey row
  | .revokeApiKey id user now => .ok (access.revokeApiKey id user now)
  | .touchApiKey id now => .ok (access.touchApiKey id now)

end Metadata

end DistrHnsw
