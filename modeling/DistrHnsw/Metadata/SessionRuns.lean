import DistrHnsw.Metadata.DeadSessions

/-!
# Sessions over whole runs

Requests, logins, logouts and everything else that writes, in any interleaving of their statements
from a new portal on.
-/

namespace DistrHnsw

namespace Metadata

namespace Sessions

open Program

variable {steady : Prop} {P P' : SessionRow → Prop} {x y : Scene (clockWorld steady)}

/-! ## Moves that open no session -/

theorem Move.allowed (h : Move P x y) (hx : ∀ row, Opened row x.past → P row) {row : SessionRow}
    (hrow : Opened row y.past) : P row := by
  cases h with
  | asked now clock => exact hx row (opened_asked.1 hrow)
  | wrote ok opens touches =>
    rcases opened_wrote.1 hrow with hold | hnew
    · exact hx row hold
    · exact (opens row hnew).1

theorem Moves.allowed (h : Moves P x y) (hx : ∀ row, Opened row x.past → P row) :
    ∀ row, Opened row y.past → P row := by
  induction h with
  | refl => exact hx
  | tail before last ih => exact fun row => last.allowed ih

theorem Moves.answered {b : Scene (clockWorld steady)} {peer : Peer} {token : SessionToken}
    {session : SessionRow} {answer : Answer} (h : Moves P x y)
    (hx : Answered b peer token session answer x) : Answered b peer token session answer y := by
  cases answer with
  | error refusal => exact fun hends => (hx hends).moves h
  | ok p =>
    have hadmitted : Admitted b x peer token session p := hx
    obtain ⟨access, hbetween, hresolved⟩ := hadmitted.resolved
    obtain ⟨henabled, access', hbetween', hlisted⟩ := hadmitted.enabled
    exact { hadmitted with
      resolved := ⟨access, hbetween.moves h, hresolved⟩
      enabled := ⟨henabled, access', hbetween'.moves h, hlisted⟩ }

/-- A write that neither opens nor touches a session. -/
theorem move_aside {w : AccessWrite} (h : Aside w) {access : Access}
    (hok : w.perform x.store = .ok access) : Move P x (x.wrote w access) := by
  refine .wrote hok (fun row hw => ?_) fun id now hw => ?_
  · subst hw
    exact h.elim
  · subst hw
    exact h.elim

/-- A program of such writes. -/
theorem safe_aside {α : Type} {p : Handler α} (h : p.Only Aside fun _ => True) :
    p.Safe (fun _ => True) (Moves P) (Moves P') (fun _ y => Moves P x y) x := by
  refine h.safe (J := fun y => Moves P x y) .refl (fun _ _ hy hz => hy.trans hz) ?_ ?_
  · exact fun w hw y access hy hok _ =>
      ⟨.single (move_aside hw hok), hy.tail (move_aside hw hok)⟩
  · rintro _ - y now clock hy ⟨hclock, rfl⟩ -
    exact ⟨.single (.asked clock hclock), hy.tail (.asked clock hclock)⟩

/-! ## The last write of a request -/

/-- The write of an accepted request. -/
def Touches : AccessWrite → Answer → Prop
  | .touchSession id now, .ok p => p.session.sessionId = id ∧ p.now = now
  | _, _ => False

theorem only_userByLogin (login : String) : (userByLogin login).Only Aside fun _ => True := by
  refine only_bind (fun _ => trivial) fun found => ?_
  split
  · exact only_pure none
  · exact fun _ => trivial

/-- Without any other write there is nothing to close. -/
theorem closing_aside {α : Type} {M : AccessWrite → α → Prop} {p : Handler α}
    (h : p.Only Aside fun _ => True) : p.Closing (fun w => ¬ Aside w) M :=
  (h.mono (fun _ hw hn => hn hw) fun _ h => h).closing

theorem closing_bind_aside {α β : Type} {M : AccessWrite → α → Prop} {p : Handler β}
    {f : β → Handler α} (h : p.Only Aside fun _ => True)
    (hf : ∀ b, (f b).Closing (fun w => ¬ Aside w) M) : (p >>= f).Closing (fun w => ¬ Aside w) M :=
  (h.mono (fun _ hw hn => hn hw) fun _ h => h).closing_bind hf

theorem closing_revokeAndRefuse {session : SessionRow} {now : Time} {reason : String}
    {refusal : Refusal} : (revokeAndRefuse session now reason refusal).Closing (fun w => ¬ Aside w)
      Touches := closing_aside (only_bind (only_perform trivial) fun _ => only_pure _)

theorem closing_admitUser {peer : Peer} {token : SessionToken} {session : SessionRow} {now : Time}
    {user : Option UserRow} :
    (admitUser peer token session now user).Closing (fun w => ¬ Aside w) Touches := by
  unfold admitUser
  split
  · exact closing_revokeAndRefuse
  split
  · trivial
  split
  · exact ⟨fun _ => ⟨_, rfl, rfl, rfl⟩, trivial⟩
  · trivial

theorem closing_admitSession {peer : Peer} {token : SessionToken} {session : SessionRow}
    {now : Time} : (admitSession peer token session now).Closing (fun w => ¬ Aside w) Touches := by
  unfold admitSession
  split
  · trivial
  split
  · exact closing_revokeAndRefuse
  split
  · exact closing_revokeAndRefuse
  split
  · exact closing_revokeAndRefuse
  · exact closing_bind_aside (only_userByLogin _) fun _ => closing_admitUser

variable [Verifiers]

/-! ## Each process -/

/-- The sessions that a process may open. -/
def Process.Mine : Process → SessionRow → Prop
  | .login _ token id, row => row.verifier = verifier token ∧ row.sessionId = id
  | _, _ => False

/-- The sessions that the others may open. -/
def Process.Others : Process → SessionRow → Prop
  | .login _ token id, row => row.verifier ≠ verifier token ∧ row.sessionId ≠ id
  | _, _ => True

/-- Logins draw different tokens and different identifiers. -/
def Distinct {ι : Type} (procs : ι → Process) : Prop :=
  ∀ i j signIn signIn' token token' id id', procs i = .login signIn token id →
    procs j = .login signIn' token' id' → i ≠ j → token ≠ token' ∧ id ≠ id'

theorem Distinct.others {ι : Type} {procs : ι → Process} (h : Distinct procs) {i j : ι} (hij : i ≠ j) {row : SessionRow}
    (hrow : (procs i).Mine row) : (procs j).Others row := by
  cases hi : procs i with
  | login signIn token id =>
    rw [hi] at hrow
    cases hj : procs j with
    | login signIn' token' id' =>
      obtain ⟨htoken, hid⟩ := h i j _ _ _ _ _ _ hi hj hij
      exact ⟨fun heq => htoken (Verifiers.injective (hrow.1.symm.trans heq)),
        fun heq => hid (hrow.2.symm.trans heq)⟩
    | _ => trivial
  | _ =>
    rw [hi] at hrow
    exact hrow.elim

theorem only_rotate (presented : Option SessionToken) (user : UserRow) (now : Time) :
    (rotate presented user now).Only Aside fun _ => True := by
  unfold rotate
  split
  · exact only_pure ()
  · refine only_bind (fun _ => trivial) fun found => ?_
    split
    · exact only_pure ()
    · split
      · exact only_perform trivial
      · exact only_pure ()

theorem safe_login {b : Scene (clockWorld steady)} {signIn : SignIn} {token : SessionToken}
    {id : SessionId} (hx : Inv x) (hb : Any b x)
    (hothers : ∀ row, Opened row x.past → row.verifier ≠ verifier token ∧ row.sessionId ≠ id) :
    (login signIn token id).Safe (fun _ => True)
      (Moves fun row => row.verifier ≠ verifier token ∧ row.sessionId ≠ id)
      (Moves fun row => row.verifier = verifier token ∧ row.sessionId = id)
      (fun result y => ∀ session, result = .ok session → ∃ access, Between b y access ∧
        access.userIdByLogin signIn.peer.userLogin = some session.userId) x := by
  unfold login
  split
  · exact fun session h => by cases h
  refine safe_bind.2 ((safe_userByLogin hx hb).mono fun user y hy => ?_)
  obtain ⟨hxy, hfound⟩ := hy
  split
  · exact fun session h => by cases h
  · next user =>
    split
    · exact fun session h => by cases h
    refine safe_bind.2 (safe_nowSeconds fun z hyz now hnow => ?_)
    have hasked {P : SessionRow → Prop} : Move P z (z.asked () now now) := .asked now hnow
    refine ⟨.single hasked, safe_bind.2 ((safe_aside (only_rotate _ _ _)).mono fun _ z₁ hz₁ => ?_)⟩
    have hprune : (write (.pruneSessions (now - sessionRetentionSeconds))).Only Aside fun _ => True :=
      only_perform trivial
    refine safe_bind.2 ((safe_aside hprune).mono fun _ z₂ hz₂ => ?_)
    refine safe_bind.2 (safe_write fun v hv access hok => ?_)
    have hlater := (hz₁.trans hz₂).trans hv
    have hmoves := (hxy.trans hyz).trans (.trans (.single hasked) hlater)
    have hmove : Move (fun row => row.verifier = verifier token ∧ row.sessionId = id) v
        (v.wrote (.insertSession
          (newSession user signIn.peer.nodeStableId id (verifier token) now)) access) := by
      refine .wrote hok (fun row hrow => ?_) fun _ _ h => by cases h
      cases hrow
      refine ⟨⟨rfl, rfl⟩, rfl, rfl, fun hsteady => Moves.clock hlater hsteady, fun other hother => ?_⟩
      exact Moves.allowed hmoves hothers other hother
    refine ⟨.single hmove, fun session hsession => ?_⟩
    cases hsession
    have hresolved := ((hfound user rfl).moves (hyz.trans (.trans (.single hasked) hlater))).resolved
    obtain ⟨before, hbetween, hid⟩ := hresolved
    exact ⟨before, hbetween.move hmove, hid⟩

/-- What holds of a process that is done. -/
def Process.Done (clock : Time) : Process → Outcome → Scene (clockWorld steady) → Prop
  | .request _ text, .answered answer, x => Settled text answer x
  | .login signIn _ _, .signedIn (.ok session), x => ∃ access, Between (start clock) x access ∧
      access.userIdByLogin signIn.peer.userLogin = some session.userId
  | _, _, _ => True

/-- A process is safe among the others. -/
abbrev Process.Safe (process : Process) (Q : Outcome → Scene (clockWorld steady) → Prop)
    (x : Scene (clockWorld steady)) : Prop :=
  process.program.Safe (fun _ => True) (Moves process.Others) (Moves process.Mine) Q x

theorem Process.Done.moves {clock : Time} {process : Process} {outcome : Outcome}
    (h : process.Done clock outcome x) (hmoves : Moves P x y) : process.Done clock outcome y := by
  unfold Process.Done at *
  split
  · exact hmoves.settled h
  · obtain ⟨access, hbetween, hresolved⟩ := h
    exact ⟨access, hbetween.moves hmoves, hresolved⟩
  · trivial

theorem Process.safe (process : Process) (clock : Time) :
    process.Safe (process.Done clock) (start clock : Scene (clockWorld steady)) := by
  cases process with
  | request peer text =>
    exact safe_bind.2 ((safe_authenticateSession (inv_start clock)).mono fun answer x h => h)
  | login signIn token id =>
    refine safe_bind.2 ((safe_login (inv_start clock) .refl fun row hrow => ?_).mono fun result x h => ?_)
    · obtain ⟨_, hmem⟩ := hrow
      exact absurd hmem List.not_mem_nil
    · cases result with
      | error refusal => trivial
      | ok session => exact h session rfl
  | logout session =>
    refine safe_bind.2 ((safe_aside ?_).mono fun _ _ _ => trivial)
    exact only_bind (only_query trivial) fun now => only_perform trivial
  | disable user =>
    refine safe_bind.2 ((safe_aside ?_).mono fun _ _ _ => trivial)
    exact only_bind (only_query trivial) fun now => only_perform trivial
  | other w aside => exact safe_bind.2 ((safe_aside (only_perform aside)).mono fun _ _ _ => trivial)

/-- The write opens or touches a session, and the process returns that session. -/
def Process.Closes : Process → AccessWrite → Outcome → Prop
  | .login signIn token _, .insertSession row, .signedIn (.ok session) =>
    session = row ∧ row.verifier = verifier token ∧ row.nodeStableId = signIn.peer.nodeStableId
  | .request _ _, .touchSession id now, .answered (.ok p) => p.session.sessionId = id ∧ p.now = now
  | _, _, _ => False

theorem closing_authenticateSession {peer : Peer} {text : List Char} :
    (authenticateSession peer text).Closing (fun w => ¬ Aside w) Touches := by
  unfold authenticateSession
  split
  · trivial
  · refine closing_bind_aside (fun _ => trivial) fun found => ?_
    split
    · trivial
    · exact fun now => closing_admitSession

theorem closing_login {signIn : SignIn} {token : SessionToken} {id : SessionId} :
    (login signIn token id).Closing (fun w => ¬ Aside w) fun w result =>
      (Process.login signIn token id).Closes w (.signedIn result) := by
  unfold login
  split
  · trivial
  refine closing_bind_aside (only_userByLogin _) fun user => ?_
  split
  · trivial
  split
  · trivial
  refine closing_bind_aside (only_query trivial) fun now => ?_
  refine closing_bind_aside (only_rotate _ _ _) fun _ => ?_
  refine closing_bind_aside (only_perform trivial) fun _ => ?_
  exact ⟨fun _ => ⟨_, rfl, rfl, rfl, rfl⟩, trivial⟩

/-- What opens or touches a session is the last write of a login or of a request. -/
theorem Process.closing (process : Process) :
    process.program.Closing (fun w => ¬ Aside w) process.Closes := by
  cases process with
  | request peer text =>
    refine closing_authenticateSession.map fun w answer h => ?_
    unfold Touches at h
    split at h
    · exact h
    · exact h.elim
  | login signIn token id => exact closing_login.map fun w result h => h
  | logout session =>
    refine closing_aside (only_bind (only_bind (only_query trivial) fun now => ?_) fun _ => only_pure _)
    exact only_perform trivial
  | disable user =>
    refine closing_aside (only_bind (only_bind (only_query trivial) fun now => ?_) fun _ => only_pure _)
    exact only_perform trivial
  | other w aside => exact closing_aside (only_bind (only_perform aside) fun _ => only_pure _)

theorem Process.closes_insert {process : Process} {row : SessionRow} {outcome : Outcome}
    (h : process.Closes (.insertSession row) outcome) : ∃ signIn token id,
      process = .login signIn token id ∧ outcome = .signedIn (.ok row) ∧
        row.verifier = verifier token ∧ row.nodeStableId = signIn.peer.nodeStableId := by
  generalize hw : AccessWrite.insertSession row = w at h
  unfold Process.Closes at h
  split at h
  · next signIn token id row' session =>
    cases hw
    obtain ⟨rfl, hverifier, hnode⟩ := h
    exact ⟨signIn, token, id, rfl, rfl, hverifier, hnode⟩
  · cases hw
  · exact h.elim

theorem Process.closes_touch {process : Process} {id : SessionId} {now : Time} {outcome : Outcome}
    (h : process.Closes (.touchSession id now) outcome) : ∃ peer text p,
      process = .request peer text ∧ outcome = .answered (.ok p) ∧ p.session.sessionId = id ∧
        p.now = now := by
  generalize hw : AccessWrite.touchSession id now = w at h
  unfold Process.Closes at h
  split at h
  · cases hw
  · next peer text id' now' p =>
    cases hw
    exact ⟨peer, text, p, rfl, rfl, h⟩
  · exact h.elim

/-! ## All processes -/

section

variable {ι : Type} [DecidableEq ι] {procs : ι → Process} {ps ps' : ι → Handler Outcome}

/-- What holds of the processes at some time holds of them later. -/
theorem together_safe {Q : ι → Outcome → Scene (clockWorld steady) → Prop} (hprocs : Distinct procs)
    (h : ∀ i, (ps i).Safe (fun _ => True) (Moves (procs i).Others) (Moves (procs i).Mine) (Q i) x)
    (hrun : Together ps x ps' y)
    (hdone : ∀ i outcome x y, Q i outcome x → Moves (procs i).Others x y → Q i outcome y)
    (hx : Inv x) : Inv y ∧ ∀ i, (ps' i).Safe (fun _ => True) (Moves (procs i).Others)
      (Moves (procs i).Mine) (Q i) y := by
  refine Safe.together h hrun (fun _ _ _ => trivial) trivial (fun _ _ => .refl)
    (fun _ _ _ _ => .trans) ?_ hdone (fun _ _ _ hmoves hinv => hinv.moves hmoves) hx
  exact fun i j hij _ _ _ hmoves => Moves.mono hmoves fun _ hrow => hprocs.others hij hrow

theorem together_start {clock : Time} (hprocs : Distinct procs)
    (hrun : Together (fun i => (procs i).program) (start clock) ps x) : Inv x ∧
      ∀ i, (ps i).Safe (fun _ => True) (Moves (procs i).Others) (Moves (procs i).Mine)
        ((procs i).Done clock) x :=
  together_safe hprocs (fun i => (procs i).safe clock) hrun (fun _ _ _ _ h hmoves => h.moves hmoves)
    (inv_start clock)

/-- From its first statement at `ps`, `x` on, a request came to its answer at `ps'`, `x'`. -/
def Answers (procs : ι → Process) (i : ι) (ps : ι → Handler Outcome) (x : Scene (clockWorld steady))
    (answer : Answer) (ps' : ι → Handler Outcome) (x' : Scene (clockWorld steady)) : Prop :=
  ps i = (procs i).program ∧ ∃ q y, Step (ps i) x q y ∧ Together (Function.update ps i q) y ps' x' ∧
    ps' i = .done (.answered answer)

/-- A login that drew the token, or an accepted use of it, at this time. -/
def Used (procs : ι → Process) (ps : ι → Handler Outcome) (token : SessionToken) (time : Time) :
    Prop :=
  (∃ i signIn id opened, procs i = .login signIn token id ∧
    ps i = .done (.signedIn (.ok opened)) ∧ opened.createdAt = time) ∨
  ∃ i peer text p, procs i = .request peer text ∧ ps i = .done (.answered (.ok p)) ∧
    p.token = token ∧ p.now = time

/-- A request between `x` and `x'` is accepted by rights. -/
structure Rightful (clock : Time) (procs : ι → Process) (ps : ι → Handler Outcome)
    (x x' : Scene (clockWorld steady)) (peer : Peer) (p : Principal) : Prop where
  /-- A login drew the token, on the same node and for the same user, less than 12 hours before. -/
  drawn : ∃ i signIn id opened, procs i = .login signIn p.token id ∧
    ps i = .done (.signedIn (.ok opened)) ∧ signIn.peer.nodeStableId = peer.nodeStableId ∧
    (∃ access, Between (start clock) x access ∧
      access.userIdByLogin signIn.peer.userLogin = some p.user.userId) ∧
    opened.createdAt ≤ p.now ∧ p.now < opened.createdAt + sessionLifetimeSeconds
  /-- Less than an hour before was a use, so less than an hour before was the last one. -/
  used : ∃ time, Used procs ps p.token time ∧ time ≤ p.now ∧ p.now < time + sessionIdleSeconds
  user : peer.isTagged = false ∧ ∃ access, Between x x' access ∧
    access.userIdByLogin peer.userLogin = some p.user.userId
  enabled : ¬ Disabled x.store p.user.userId ∧ p.user.disabledAt = none ∧
    ∃ access, Between x x' access ∧ p.user ∈ access.users

/-- The first statement of a request looks for the session of its token. -/
theorem request_step {peer : Peer} {text : List Char} {q : Handler Outcome}
    (h : Step (Process.request peer text).program x q y) : ∃ token,
      SessionToken.parse text = some token ∧ y = x ∧
        (q = .done (.answered (.error .unknown)) ∨
          ∃ session ∈ x.store.sessions, session.verifier = verifier token ∧
            q = (nowSeconds >>= admitSession peer token session) >>= fun answer =>
              return .answered answer) := by
  change Step (authenticateSession peer text >>= fun answer => pure (.answered answer)) x q y at h
  unfold authenticateSession at h
  cases hparse : SessionToken.parse text with
  | none =>
    rw [hparse] at h
    cases h
  | some token =>
    rw [hparse] at h
    refine ⟨token, rfl, ?_⟩
    cases hfind : x.store.sessionByVerifier (verifier token) with
    | none =>
      cases h with
      | read next =>
        refine ⟨rfl, .inl ?_⟩
        simp only [Program.bind, Pure.pure, hfind]
    | some session =>
      have hverifier : session.verifier = verifier token := by simpa using List.find?_some hfind
      cases h with
      | read next =>
        refine ⟨rfl, .inr ⟨session, List.mem_of_find?_eq_some hfind, hverifier, ?_⟩⟩
        simp only [Program.bind, Pure.pure, hfind]
        rfl

/-- What the rest of a process comes to while all the others go on. -/
theorem answered_after {i : ι} {q : Handler Outcome} {answer : Answer}
    {R : Answer → Scene (clockWorld steady) → Prop} (hprocs : Distinct procs) (hx : Inv x)
    (hsafe : ∀ j, (ps j).Safe (fun _ => True) (Moves (procs j).Others) (Moves (procs j).Mine)
      (fun _ _ => True) x)
    (hq : q.Safe (fun _ => True) (Moves (procs i).Others) (Moves (procs i).Mine)
      (fun outcome z => ∀ answer, outcome = .answered answer → R answer z) x)
    (hR : ∀ answer z z', R answer z → Any z z' → R answer z')
    (hrest : Together (Function.update ps i q) x ps' y) (hdone : ps' i = .done (.answered answer)) :
    R answer y := by
  let Q (j : ι) (outcome : Outcome) (z : Scene (clockWorld steady)) : Prop :=
    j = i → ∀ answer, outcome = .answered answer → R answer z
  have hrests := (together_safe (Q := Q) hprocs (fun j => ?_) hrest (fun j outcome z z' hz hzz => ?_)
    hx).2 i
  · rw [hdone] at hrests
    exact hrests rfl answer rfl
  · by_cases hj : j = i
    · subst hj
      rw [Function.update_self]
      exact hq.mono fun outcome z hz _ => hz
    · rw [Function.update_of_ne hj]
      exact (hsafe j).mono fun _ _ _ h => absurd h hj
  · exact fun hj answer houtcome => hR answer z z' (hz hj answer houtcome) (Moves.any hzz)

/-- What is known of an answer: the token is unknown, or its session was found at once. -/
theorem answers_cases {i : ι} {peer : Peer} {text : List Char} {answer : Answer} {clock : Time}
    (hprocs : Distinct procs) (hi : procs i = .request peer text)
    (hrun : Together (fun i => (procs i).program) (start clock) ps x)
    (h : Answers procs i ps x answer ps' y) : ∃ token, SessionToken.parse text = some token ∧
      (answer = .error .unknown ∨ ∃ session ∈ x.store.sessions, session.verifier = verifier token ∧
        Answered x peer token session answer y) := by
  obtain ⟨hps, q, y₁, hstep, hrest, hdone⟩ := h
  rw [hps, hi] at hstep
  obtain ⟨token, hparse, rfl, hq⟩ := request_step hstep
  obtain ⟨hx, hstart⟩ := together_start hprocs hrun
  have hsafe (j : ι) : (ps j).Safe (fun _ => True) (Moves (procs j).Others) (Moves (procs j).Mine)
      (fun _ _ => True) y₁ := (hstart j).mono fun _ _ _ => trivial
  refine ⟨token, hparse, ?_⟩
  rcases hq with rfl | ⟨session, hsession, hverifier, rfl⟩
  · refine .inl (answered_after (R := fun answer _ => answer = .error .unknown) hprocs hx hsafe ?_
      (fun _ _ _ h _ => h) hrest hdone)
    intro answer h
    cases h
    rfl
  · refine .inr ⟨session, hsession, hverifier, answered_after hprocs hx hsafe ?_
      (fun _ _ _ h hmoves => Moves.answered hmoves h) hrest hdone⟩
    rw [hi]
    refine safe_bind.2 ((safe_found hx hsession).mono fun answer z hz answer' houtcome => ?_)
    cases houtcome
    exact hz

/-- The login that opened a session, once it is done. -/
theorem opened_login {clock : Time} {row : SessionRow}
    (hrun : Together (fun i => (procs i).program) (start clock) ps x) (hrow : Opened row x.past) :
    ∃ i signIn token id, procs i = .login signIn token id ∧ ps i = .done (.signedIn (.ok row)) ∧
      row.verifier = verifier token ∧ row.nodeStableId = signIn.peer.nodeStableId := by
  obtain ⟨access, hmem⟩ := hrow
  obtain ⟨i, outcome, hdone, hcloses⟩ :=
    (Together.closed (fun i => (procs i).closing) hrun rfl).2 access _ hmem id
  obtain ⟨signIn, token, id, hi, rfl, hverifier, hnode⟩ := Process.closes_insert hcloses
  exact ⟨i, signIn, token, id, hi, hdone, hverifier, hnode⟩

/-- The request that recorded a use, once it is done. -/
theorem touched_request {clock : Time} {id : SessionId} {now : Time}
    (hrun : Together (fun i => (procs i).program) (start clock) ps x) (h : Touched id now x.past) :
    ∃ i peer text p, procs i = .request peer text ∧ ps i = .done (.answered (.ok p)) ∧
      p.session.sessionId = id ∧ p.now = now := by
  obtain ⟨access, hmem⟩ := h
  obtain ⟨i, outcome, hdone, hcloses⟩ :=
    (Together.closed (fun i => (procs i).closing) hrun rfl).2 access _ hmem fun h => h
  obtain ⟨peer, text, p, hi, rfl, hid, hnow⟩ := Process.closes_touch hcloses
  exact ⟨i, peer, text, p, hi, hdone, hid, hnow⟩

theorem Admitted.rightful {clock : Time} {peer : Peer} {token : SessionToken} {session : SessionRow}
    {p : Principal} (hprocs : Distinct procs) (hsteady : steady)
    (hrun : Together (fun i => (procs i).program) (start clock) ps x)
    (hsession : session ∈ x.store.sessions) (hverifier : session.verifier = verifier token)
    (h : Admitted x y peer token session p) : Rightful clock procs ps x y peer p := by
  obtain ⟨hx, hsafe⟩ := together_start hprocs hrun
  obtain ⟨opened, hopened, hsame, hseen⟩ := hx.rows session hsession
  obtain ⟨hfresh, hexpires, hcreated⟩ := hx.opened opened hopened
  obtain ⟨i, signIn, token', id, hi, hdone, hverifier', hnode⟩ := opened_login hrun hopened
  obtain rfl : token' = token :=
    Verifiers.injective (hverifier'.symm.trans (hsame.verifier.symm.trans hverifier))
  obtain rfl := h.sameToken
  have hclock := h.clock hsteady
  refine ⟨⟨i, signIn, id, opened, hi, hdone, ?_, ?_, (hcreated hsteady).trans hclock, ?_⟩, ?_,
    ⟨h.untagged, h.resolved⟩, ?_, h.enabled⟩
  · rw [← hnode, ← hsame.nodeStableId, h.node]
  · have hlogin := hsafe i
    rw [hdone, hi] at hlogin
    rw [h.user, hsame.userId]
    exact hlogin
  · rw [← hexpires, ← hsame.expiresAt]
    exact h.lifetime
  · have hactive : p.now < session.lastSeenAt + sessionIdleSeconds := Int.lt_add_of_sub_left_lt h.active
    rcases hseen with hseen | htouched
    · refine ⟨opened.createdAt, .inl ⟨i, signIn, id, opened, hi, hdone, rfl⟩,
        (hcreated hsteady).trans hclock, ?_⟩
      rw [← hfresh, ← hseen]
      exact hactive
    · obtain ⟨k, peer', text', q, hk, hkdone, hid, hnow⟩ := touched_request hrun htouched
      refine ⟨session.lastSeenAt, .inr ⟨k, peer', text', q, hk, hkdone, ?_, hnow⟩,
        (hx.touched _ _ htouched hsteady).trans hclock, hactive⟩
      -- A use of the same session is one of the same token.
      have hused := hsafe k
      rw [hkdone, hk] at hused
      obtain ⟨-, hused, opened', hopened', hsame', -⟩ := hused
      have hone := hx.once opened opened' hopened hopened' (.inr (by
        rw [← hsame.sessionId, ← hsame'.sessionId, hid]))
      subst hone
      refine Verifiers.injective (hused.symm.trans (hsame'.verifier.trans ?_))
      rw [← hsame.verifier, hverifier]
  · rw [h.user]
    exact h.allowed

/-- Whatever runs beside it, a request is accepted only by rights, and not at all once its token was
refused for good. -/
theorem dead_sessions_stay_dead (procs : ι → Process) (hprocs : Distinct procs) (steady : Prop)
    (clock : Time) (ps ps' : ι → Handler Outcome) (x x' : Scene (clockWorld steady)) (i : ι)
    (peer : Peer) (text : List Char) (answer : Answer) (hi : procs i = .request peer text)
    (hrun : Together (fun i => (procs i).program) (start clock) ps x)
    (hanswer : Answers procs i ps x answer ps' x') :
    (steady → ∀ p, answer = .ok p → SessionToken.parse text = some p.token ∧
      Rightful clock procs ps x x' peer p) ∧
    ∀ j peer' text' refusal, procs j = .request peer' text' →
      SessionToken.parse text' = SessionToken.parse text →
      ps j = .done (.answered (.error refusal)) → refusal.Ends → ∃ again, answer = .error again := by
  obtain ⟨token, hparse, hcases⟩ := answers_cases hprocs hi hrun hanswer
  constructor
  · rintro hsteady p rfl
    rcases hcases with h | ⟨session, hsession, hverifier, hadmitted⟩
    · cases h
    · have hadmitted : Admitted x x' peer token session p := hadmitted
      refine ⟨hadmitted.sameToken ▸ hparse, hadmitted.rightful hprocs hsteady hrun hsession hverifier⟩
  · intro j peer' text' refusal hj hsame hdone hends
    rcases hcases with rfl | ⟨session, hsession, hverifier, hanswered⟩
    · exact ⟨.unknown, rfl⟩
    cases answer with
    | error again => exact ⟨again, rfl⟩
    | ok p =>
      have hadmitted : Admitted x x' peer token session p := hanswered
      have hrefused := (together_start hprocs hrun).2 j
      rw [hdone, hj] at hrefused
      obtain ⟨token', hparse', hdead⟩ := (hrefused : Settled text' (.error refusal) x) hends
      obtain rfl : token' = token :=
        Option.some.inj (hparse'.symm.trans (hsame.trans hparse))
      rcases hdead.ended session hsession hverifier with hrevoked | hdisabled
      · rw [hadmitted.live] at hrevoked
        cases hrevoked
      · exact absurd hdisabled hadmitted.allowed

/-! ## A stolen token -/

/-- A clock that stands still. -/
def still : Responder (clockWorld steady) := fun clock _ => (clock, clock)

omit [Verifiers] [DecidableEq ι] in
theorem faithful_still : (still : Responder (clockWorld steady)).Faithful :=
  fun _ _ => ⟨fun _ => le_rfl, rfl⟩

/-- One process at one time, from where it is to its end. -/
def serve (i : ι) (all : (ι → Handler Outcome) × Scene (clockWorld steady)) :
    (ι → Handler Outcome) × Scene (clockWorld steady) :=
  let last := advance still 20 (all.1 i) all.2
  (Function.update all.1 i last.1, last.2)

omit [Verifiers] in
theorem together_serve {all : (ι → Handler Outcome) × Scene (clockWorld steady)}
    (h : Together ps x all.1 all.2) (i : ι) : Together ps x (serve i all).1 (serve i all).2 :=
  h.steps (steps_advance faithful_still 20 _ _)

/-- A request that is served at once came to its answer. -/
theorem answers_serve (procs : ι → Process) (all : (ι → Handler Outcome) × Scene (clockWorld steady))
    (i : ι) {answer : Answer} (hstart : all.1 i = (procs i).program) (hfirst : (all.1 i).result = none)
    (hlast : ((serve i all).1 i).result = some (.answered answer)) :
    Answers procs i all.1 all.2 answer (serve i all).1 (serve i all).2 := by
  have hsteps := steps_advance faithful_still 20 (all.1 i) all.2
  have hdone := eq_done hlast
  have hlast : (serve i all).1 i = (advance still 20 (all.1 i) all.2).1 := Function.update_self ..
  obtain ⟨y, hy⟩ : ∃ y, (serve i all).2 = y := ⟨_, rfl⟩
  rw [← hlast, hdone, show (advance still 20 (all.1 i) all.2).2 = y from hy] at hsteps
  refine ⟨hstart, ?_⟩
  generalize hp : all.1 i = p at hsteps hfirst
  cases hsteps with
  | stop => cases hfirst
  | @step _ p₁ _ _ x₁ _ first rest =>
    have hrest := (Together.stop (Function.update all.1 i p₁) x₁).steps (i := i)
      (p := .done (.answered answer)) (by rw [Function.update_self]; exact rest)
    have hall : (serve i all).1 = Function.update all.1 i ((serve i all).1 i) := by
      rw [hlast]
      rfl
    rw [Function.update_idem, ← hdone, ← hall] at hrest
    exact ⟨p₁, x₁, first, hy ▸ hrest, hdone⟩

end

/-- Tokens that are their own verifiers. -/
abbrev plainVerifiers : Verifiers := ⟨Subtype.val, Subtype.val_injective⟩

/-- A user signs in and is accepted, the token turns up on another node, and comes back. -/
def stolen : Fin 5 → Process :=
  let home : Peer := ⟨"home", "ann", false⟩
  let text := List.replicate 43 'A'
  List.get [.other (.addUser 1 "Ann" "ann" 0) trivial,
    .login ⟨home, true, false, false, true, none⟩ default 1, .request home text,
    .request ⟨"away", "ann", false⟩ text, .request home text]

/-- The first processes, one after the other. -/
def stolenRun : ℕ → (Fin 5 → Handler Outcome) × Scene (clockWorld True)
  | 0 => letI := plainVerifiers; (fun i => (stolen i).program, start 0)
  | n + 1 => serve (Fin.ofNat 5 n) (stolenRun n)

omit [Verifiers] in
theorem together_stolenRun (n : ℕ) : letI := plainVerifiers
    Together (fun i => (stolen i).program) (start 0) (stolenRun n).1 (stolenRun n).2 := by
  induction n with
  | zero => exact .stop _ _
  | succ n ih => exact together_serve ih _

omit [Verifiers] in
theorem distinct_stolen : Distinct stolen := by
  have hlogin : ∀ k signIn token id, stolen k = .login signIn token id → k = 1 := by
    rintro ⟨_ | _ | _ | _ | _ | k, hk⟩ signIn token id h
    · cases h
    · rfl
    · cases h
    · cases h
    · cases h
    · exact absurd hk (by omega)
  intro i j signIn signIn' token token' id id' hi hj hij
  exact absurd ((hlogin i _ _ _ hi).trans (hlogin j _ _ _ hj).symm) hij

omit [Verifiers] in
/-- The token is accepted at first, refused on the other node, and refused at home from then on. -/
theorem dead_sessions_stay_dead_stolen : ∃ (_ : Verifiers) (p : Principal) (refusal : Refusal)
    (x x' : Scene (clockWorld True)), Rightful 0 stolen (stolenRun 2).1 x x' ⟨"home", "ann", false⟩ p ∧
      Answers stolen 4 (stolenRun 4).1 (stolenRun 4).2 (.error refusal) (stolenRun 5).1
        (stolenRun 5).2 := by
  let _ := plainVerifiers
  obtain ⟨p, hp⟩ : ∃ p, ((stolenRun 3).1 2).result = some (.answered (.ok p)) := ⟨_, rfl⟩
  have haccepted := answers_serve stolen (stolenRun 2) 2 rfl rfl hp
  have hrefused : (stolenRun 4).1 3 = .done (.answered (.error .wrongNode)) := eq_done rfl
  obtain ⟨answer, hanswer⟩ : ∃ answer, ((stolenRun 5).1 4).result = some (.answered answer) := ⟨_, rfl⟩
  have hagain := answers_serve stolen (stolenRun 4) 4 rfl rfl hanswer
  obtain ⟨refusal, rfl⟩ := (dead_sessions_stay_dead stolen distinct_stolen True 0 _ _ _ _ 4 _ _ _ rfl
    (together_stolenRun 4) hagain).2 3 _ _ .wrongNode rfl rfl hrefused trivial
  exact ⟨_, p, refusal, _, _, ((dead_sessions_stay_dead stolen distinct_stolen True 0 _ _ _ _ 2 _ _ _
    rfl (together_stolenRun 2) haccepted).1 trivial p rfl).2, hagain⟩

end Sessions

end Metadata

end DistrHnsw
