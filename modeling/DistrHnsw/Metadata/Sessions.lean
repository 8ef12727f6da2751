import DistrHnsw.Lib.Text
import DistrHnsw.Lib.Together
import DistrHnsw.Metadata.Access

/-!
# Sign-in

Browser sessions.  A login draws a token, of which the database keeps a verifier; a request presents
the token and is accepted or refused, and some refusals revoke the session.  Every statement is one
atomic step, with the steps of other requests and of the command line in between.
-/

namespace DistrHnsw

namespace Metadata

namespace Sessions

open Program

/-- The sessions of a portal; the clock is all that is asked. -/
abbrev sessionWorld : World where
  Store := Access
  Write := AccessWrite
  Error := MetadataError
  Query := Unit
  Answer _ := Time
  perform := fun w access => w.perform access

/-- A handler of the portal server. -/
abbrev Handler (α : Type) := Program sessionWorld α

def nowSeconds : Handler Time := query (W := sessionWorld) ()

def reading {α : Type} (f : Access → α) : Handler α := do
  let access ← get
  return f access

def write (w : AccessWrite) : Handler Unit := perform (W := sessionWorld) w

def sessionLifetimeSeconds : Time := 12 * 3600

def sessionIdleSeconds : Time := 3600

/-- Uses are recorded at most this often. -/
def touchIntervalSeconds : Time := 60

def sessionRetentionSeconds : Time := 7 * 86400

/-! ## Tokens -/

/-- A session token, 256 random bits. -/
abbrev SessionToken := Fixed 32

/-- What the database keeps of a token; no two tokens have the same verifier. -/
class Verifiers where
  verifier : SessionToken → Bytes
  injective : Function.Injective verifier

export Verifiers (verifier)

/-- 32 bytes are exactly 43 unpadded base64url characters. -/
def SessionToken.parse (text : List Char) : Option SessionToken :=
  if text.length ≠ 43 then none
  else (Base64.decode text).bind fun bytes =>
    if h : bytes.length = 32 then some ⟨bytes, h⟩ else none

end Sessions

namespace Access

variable (access : Access)

/-- The session whose token has this verifier, revoked or not. -/
def sessionByVerifier (verifier : Bytes) : Option SessionRow :=
  access.sessions.find? (·.verifier == verifier)

def userIdByLogin (login : String) : Option UserId :=
  (access.identities.find? (·.externalId == login)).map (·.userId)

def user (id : UserId) : Option UserRow := access.users.find? (·.userId == id)

end Access

namespace Sessions

/-- The user a login resolves to, if any. -/
def userByLogin (login : String) : Handler (Option UserRow) := do
  match ← reading (·.userIdByLogin login) with
  | none => return none
  | some id => reading (·.user id)

/-! ## Requests -/

/-- The tailnet node and user behind a connection. -/
structure Peer where
  nodeStableId : String
  userLogin : String
  /-- A tagged node acts as a service, not as a user. -/
  isTagged : Bool
  deriving DecidableEq, Repr

/-- Why a session is refused. -/
inductive Refusal where
  | malformed
  | unknown
  | revoked
  | expired
  | idle
  | wrongNode
  | wrongUser
  | userDisabled
  deriving DecidableEq, Repr

/-- Who a request comes from, and when the clock was read. -/
structure Principal where
  user : UserRow
  session : SessionRow
  token : SessionToken
  now : Time
  deriving DecidableEq, Repr

abbrev Answer := Except Refusal Principal

def revokeAndRefuse (session : SessionRow) (now : Time) (reason : String) (refusal : Refusal) :
    Handler Answer := do
  write (.revokeSession session.sessionId now reason)
  return .error refusal

/-- A session cookie is valid only from the user that created it. -/
def admitUser (peer : Peer) (token : SessionToken) (session : SessionRow) (now : Time)
    (user : Option UserRow) : Handler Answer :=
  match user.filter fun user => user.userId == session.userId && !peer.isTagged with
  | none => revokeAndRefuse session now "wrong_user" .wrongUser
  | some user =>
    if user.disabledAt.isSome then return .error .userDisabled
    else if touchIntervalSeconds ≤ now - session.lastSeenAt then do
      write (.touchSession session.sessionId now)
      return .ok ⟨user, session, token, now⟩
    else return .ok ⟨user, session, token, now⟩

/-- The session of a token at a reading of the clock. -/
def admitSession (peer : Peer) (token : SessionToken) (session : SessionRow) (now : Time) :
    Handler Answer :=
  if session.revokedAt.isSome then return .error .revoked
  else if session.expiresAt ≤ now then revokeAndRefuse session now "expired" .expired
  else if sessionIdleSeconds ≤ now - session.lastSeenAt then
    revokeAndRefuse session now "idle" .idle
  else if session.nodeStableId ≠ peer.nodeStableId then
    revokeAndRefuse session now "wrong_node" .wrongNode
  else do
    let user ← userByLogin peer.userLogin
    admitUser peer token session now user

section

variable [Verifiers]

def authenticateToken (peer : Peer) (token : SessionToken) : Handler Answer := do
  match ← reading (·.sessionByVerifier (verifier token)) with
  | none => return .error .unknown
  | some session => do
    let now ← nowSeconds
    admitSession peer token session now

def authenticateSession (peer : Peer) (text : List Char) : Handler Answer :=
  match SessionToken.parse text with
  | none => return .error .malformed
  | some token => authenticateToken peer token

end

/-! ## Logins -/

/-- What a login looks at before any user. -/
structure SignIn where
  peer : Peer
  sameOrigin : Bool
  withApiKey : Bool
  /-- The connection comes from the portal's own node, from which no one may sign in. -/
  fromPortalNode : Bool
  admitted : Bool
  /-- The session cookie presented, if there is exactly one. -/
  cookie : Option (List Char)
  deriving DecidableEq, Repr

inductive SignInRefusal where
  | crossOrigin
  | withApiKey
  | taggedNode
  | portalNode
  | tooManySignIns
  | unknownUser
  | userDisabled
  deriving DecidableEq, Repr

def SignIn.refusal (request : SignIn) : Option SignInRefusal :=
  if !request.sameOrigin then some .crossOrigin
  else if request.withApiKey then some .withApiKey
  else if request.peer.isTagged then some .taggedNode
  else if request.fromPortalNode then some .portalNode
  else if !request.admitted then some .tooManySignIns
  else none

/-- A new session of a user. -/
def newSession (user : UserRow) (node : String) (id : SessionId) (verifier : Bytes) (now : Time) :
    SessionRow :=
  ⟨id, verifier, user.userId, node, now, now, now + sessionLifetimeSeconds, none, none⟩

section

variable [Verifiers]

/-- A session cookie presented at a login is revoked and replaced. -/
def rotate (presented : Option SessionToken) (user : UserRow) (now : Time) : Handler Unit :=
  match presented with
  | none => return
  | some token => do
    match ← reading (·.sessionByVerifier (verifier token)) with
    | none => return
    | some old =>
      if old.userId = user.userId then write (.revokeSession old.sessionId now "rotated")
      else return

/-- A login with the token and the session identifier it draws. -/
def login (request : SignIn) (token : SessionToken) (id : SessionId) :
    Handler (Except SignInRefusal SessionRow) :=
  match request.refusal with
  | some refusal => return .error refusal
  | none => do
    match ← userByLogin request.peer.userLogin with
    | none => return .error .unknownUser
    | some user =>
      if user.disabledAt.isSome then return .error .userDisabled
      else do
        let presented := request.cookie.bind SessionToken.parse
        let now ← nowSeconds
        let session := newSession user request.peer.nodeStableId id (verifier token) now
        rotate presented user now
        write (.pruneSessions (now - sessionRetentionSeconds))
        write (.insertSession session)
        return .ok session

end

/-- The rest of a logout, after its request was accepted. -/
def logout (session : SessionId) : Handler Unit := do
  let now ← nowSeconds
  write (.revokeSession session now "logout")

/-- `portal user disable`. -/
def disable (user : UserId) : Handler Unit := do
  let now ← nowSeconds
  write (.disableUser user now)

/-! ## All of them together -/

/-- The write neither opens nor touches a session. -/
def Aside : AccessWrite → Prop
  | .insertSession _ => False
  | .touchSession _ _ => False
  | _ => True

/-- What runs side by side. -/
inductive Process where
  | request (peer : Peer) (text : List Char)
  | login (signIn : SignIn) (token : SessionToken) (id : SessionId)
  | logout (session : SessionId)
  | disable (user : UserId)
  /-- Any other write, such as a user that is added. -/
  | other (w : AccessWrite) (aside : Aside w)

/-- What comes of a process. -/
inductive Outcome where
  | answered (answer : Answer)
  | signedIn (result : Except SignInRefusal SessionRow)
  | finished

def Process.program [Verifiers] : Process → Handler Outcome
  | .request peer text => do
    let answer ← authenticateSession peer text
    return .answered answer
  | .login signIn token id => do
    let result ← Sessions.login signIn token id
    return .signedIn result
  | .logout session => do
    Sessions.logout session
    return .finished
  | .disable user => do
    Sessions.disable user
    return .finished
  | .other w _ => do
    write w
    return .finished

/-- The clock; a steady one does not step back. -/
abbrev clockWorld (steady : Prop) : Outside sessionWorld :=
  ⟨Time, fun clock _ now clock' => (steady → clock ≤ now) ∧ clock' = now⟩

end Sessions

end Metadata

end DistrHnsw
