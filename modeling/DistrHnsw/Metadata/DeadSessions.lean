import DistrHnsw.Metadata.Sessions
import Mathlib.Data.List.Nodup
import Mathlib.Logic.Relation

/-!
# A dead session stays dead

A session token is accepted only from the node and by the user of the login that drew it, within
twelve hours of that login and within an hour of an accepted use, while the user is enabled.  A token
that was refused because its session ended, or because of the node or the user, is refused ever
after, whatever the clock shows.
-/

namespace DistrHnsw

namespace Metadata

namespace Sessions

open Program

/-! ## What a write does to sessions and users -/

/-- Two rows of one session. -/
structure SameSession (row row' : SessionRow) : Prop where
  sessionId : row'.sessionId = row.sessionId
  verifier : row'.verifier = row.verifier
  userId : row'.userId = row.userId
  nodeStableId : row'.nodeStableId = row.nodeStableId
  createdAt : row'.createdAt = row.createdAt
  expiresAt : row'.expiresAt = row.expiresAt

theorem SameSession.refl (row : SessionRow) : SameSession row row := ⟨rfl, rfl, rfl, rfl, rfl, rfl⟩

theorem SameSession.trans {a b c : SessionRow} (h : SameSession a b) (h' : SameSession b c) :
    SameSession a c :=
  ⟨h'.sessionId.trans h.sessionId, h'.verifier.trans h.verifier, h'.userId.trans h.userId,
    h'.nodeStableId.trans h.nodeStableId, h'.createdAt.trans h.createdAt,
    h'.expiresAt.trans h.expiresAt⟩

/-- A row after a write: only a touch moves its last use, and it stays revoked. -/
structure Kept (w : AccessWrite) (row row' : SessionRow) : Prop extends SameSession row row' where
  revoked : row.revokedAt.isSome → row'.revokedAt.isSome
  seen : row'.lastSeenAt = row.lastSeenAt ∨ w = .touchSession row.sessionId row'.lastSeenAt

/-- The user is disabled. -/
def Disabled (access : Access) (id : UserId) : Prop :=
  access.hasUser id = true ∧ ∀ user ∈ access.users, user.userId = id → user.disabledAt.isSome

variable {w : AccessWrite} {a b : Access} {row : SessionRow}

theorem Kept.refl (w : AccessWrite) (row : SessionRow) : Kept w row row :=
  ⟨.refl row, id, .inl rfl⟩

theorem kept_revoke (now : Time) (reason : String) : Kept w row (Access.revokeSessionRow now reason row) := by
  unfold Access.revokeSessionRow
  split
  · exact ⟨⟨rfl, rfl, rfl, rfl, rfl, rfl⟩, fun _ => rfl, .inl rfl⟩
  · exact .refl w row

theorem isSome_revoke (now : Time) (reason : String) :
    (Access.revokeSessionRow now reason row).revokedAt.isSome := by
  unfold Access.revokeSessionRow
  split
  · rfl
  · next h => exact Option.isSome_iff_ne_none.2 h

/-- What a write does to sessions and users. -/
inductive Change (a b : Access) : AccessWrite → Prop
  | kept {w : AccessWrite} (sessions : b.sessions = a.sessions) (users : b.users = a.users) :
      Change a b w
  | mapped {w : AccessWrite} {f : SessionRow → SessionRow} (kept : ∀ row, Kept w row (f row))
      (sessions : b.sessions = a.sessions.map f) (users : b.users = a.users) : Change a b w
  | pruned {w : AccessWrite} {keep : SessionRow → Bool} (sessions : b.sessions = a.sessions.filter keep)
      (users : b.users = a.users) : Change a b w
  | opened {row : SessionRow} (fresh : ∀ other ∈ a.sessions, other.verifier ≠ row.verifier)
      (sessions : b.sessions = a.sessions ++ [{ row with revokedAt := none, revokeReason := none }])
      (users : b.users = a.users) : Change a b (.insertSession row)
  | added {w : AccessWrite} {user : UserRow} (fresh : ∀ other ∈ a.users, other.userId ≠ user.userId)
      (sessions : b.sessions = a.sessions) (users : b.users = a.users ++ [user]) : Change a b w
  | disabled {w : AccessWrite} {id : UserId} {now : Time} {f : SessionRow → SessionRow}
      (kept : ∀ row, Kept w row (f row)) (sessions : b.sessions = a.sessions.map f)
      (users : b.users = a.users.map fun user =>
        if user.userId = id then { user with disabledAt := some now } else user) : Change a b w

theorem touchSession_kept (id : SessionId) (now : Time) : Kept (.touchSession id now) row
    (if row.sessionId = id ∧ row.revokedAt = none then { row with lastSeenAt := now } else row) := by
  split
  · next h =>
    obtain ⟨rfl, -⟩ := h
    exact ⟨⟨rfl, rfl, rfl, rfl, rfl, rfl⟩, fun h => h, .inr rfl⟩
  · exact .refl _ row

theorem insertSigningKey_rest {key : SigningKeyRow} (h : a.insertSigningKey key = .ok b) :
    b.sessions = a.sessions ∧ b.users = a.users := by
  obtain ⟨-, h₁⟩ := guard_eq_ok.1 h
  cases h₁
  exact ⟨rfl, rfl⟩

theorem session_change (h : w.perform a = .ok b) : Change a b w := by
  cases w with
  | insertSession row =>
    obtain ⟨hfresh, h₁⟩ := guard_eq_ok.1 h
    cases h₁
    refine .opened (fun other hother heq => hfresh (.inl ?_)) rfl rfl
    exact List.any_eq_true.2 ⟨other, hother, by simp [heq]⟩
  | touchSession id now =>
    cases h
    exact .mapped (fun row => touchSession_kept id now) rfl rfl
  | revokeSession id now reason =>
    cases h
    refine .mapped (fun row => ?_) rfl rfl
    split
    · exact kept_revoke now reason
    · exact .refl _ row
  | pruneSessions cutoff =>
    cases h
    exact .pruned rfl rfl
  | addUser id displayName login now =>
    obtain ⟨-, h₁⟩ := guard_eq_ok.1 h
    obtain ⟨hfresh, h₂⟩ := guard_eq_ok.1 h₁
    cases h₂
    refine .added (fun other hother heq => hfresh ?_) rfl rfl
    exact List.any_eq_true.2 ⟨other, hother, by simp [heq]⟩
  | disableUser id now =>
    obtain ⟨-, h₁⟩ := guard_eq_ok.1 h
    cases h₁
    refine .disabled (fun row => ?_) rfl rfl
    split
    · exact kept_revoke now "user_disabled"
    · exact .refl _ row
  | insertFirstSigningKey row =>
    have hinsert : a.insertFirstSigningKey row = .ok b := h
    unfold Access.insertFirstSigningKey at hinsert
    split at hinsert
    · cases hinsert
      exact .kept rfl rfl
    · obtain ⟨hsessions, husers⟩ := insertSigningKey_rest hinsert
      exact .kept hsessions husers
  | rotateSigningKey row =>
    obtain ⟨c, hinsert, h₁⟩ := bind_eq_ok.1 h
    cases h₁
    obtain ⟨hsessions, husers⟩ := insertSigningKey_rest hinsert
    exact .kept hsessions husers
  | endSigningKey id revoke =>
    have hend : a.endSigningKey id revoke = .ok b := h
    unfold Access.endSigningKey at hend
    split at hend <;> cases hend <;> exact .kept rfl rfl
  | insertJoinToken token agent expiresAt =>
    obtain ⟨-, h₁⟩ := guard_eq_ok.1 h
    cases h₁
    exact .kept rfl rfl
  | recordAgentJoin join token now =>
    obtain ⟨-, h₁⟩ := guard_eq_ok.1 h
    split at h₁ <;> cases h₁ <;> exact .kept rfl rfl
  | insertApiKey row =>
    obtain ⟨-, h₁⟩ := guard_eq_ok.1 h
    cases h₁
    exact .kept rfl rfl
  | revokeApiKey id user now =>
    cases h
    exact .kept rfl rfl
  | touchApiKey id now =>
    cases h
    exact .kept rfl rfl

namespace Change

/-- Every session of the table was there before the write, or was opened by it. -/
theorem session (h : Change a b w) {row' : SessionRow} (hrow : row' ∈ b.sessions) :
    (∃ row ∈ a.sessions, Kept w row row') ∨
      ∃ row, w = .insertSession row ∧ row' = { row with revokedAt := none, revokeReason := none } := by
  have hmap {f : SessionRow → SessionRow} (hf : ∀ row, Kept w row (f row))
      (hmem : row' ∈ a.sessions.map f) : ∃ row ∈ a.sessions, Kept w row row' := by
    obtain ⟨row, hold, rfl⟩ := List.mem_map.1 hmem
    exact ⟨row, hold, hf row⟩
  cases h with
  | kept sessions users => exact .inl ⟨row', sessions ▸ hrow, .refl _ _⟩
  | mapped kept sessions users => exact .inl (hmap kept (sessions ▸ hrow))
  | pruned sessions users =>
    rw [sessions] at hrow
    exact .inl ⟨row', (List.mem_filter.1 hrow).1, .refl _ _⟩
  | @opened row fresh sessions users =>
    rw [sessions] at hrow
    rcases List.mem_append.1 hrow with hold | hnew
    · exact .inl ⟨row', hold, .refl _ _⟩
    · exact .inr ⟨row, rfl, List.mem_singleton.1 hnew⟩
  | added fresh sessions users => exact .inl ⟨row', sessions ▸ hrow, .refl _ _⟩
  | disabled kept sessions users => exact .inl (hmap kept (sessions ▸ hrow))

theorem verifiers (h : Change a b w) (ha : (a.sessions.map (·.verifier)).Nodup) :
    (b.sessions.map (·.verifier)).Nodup := by
  have hmap {f : SessionRow → SessionRow} (hf : ∀ row, Kept w row (f row)) :
      ((a.sessions.map f).map (·.verifier)).Nodup := by
    rw [List.map_map, show (fun row => row.verifier) ∘ f = (·.verifier) from
      funext fun row => (hf row).verifier]
    exact ha
  cases h with
  | kept sessions users => rwa [sessions]
  | mapped kept sessions users =>
    rw [sessions]
    exact hmap kept
  | pruned sessions users =>
    rw [sessions]
    exact ha.sublist (List.filter_sublist.map _)
  | opened fresh sessions users =>
    rw [sessions, List.map_append, List.nodup_append]
    refine ⟨ha, List.nodup_singleton _, fun v hv v' hv' heq => ?_⟩
    obtain ⟨other, hother, rfl⟩ := List.mem_map.1 hv
    exact fresh other hother (heq.trans (List.mem_singleton.1 hv'))
  | added fresh sessions users => rwa [sessions]
  | disabled kept sessions users =>
    rw [sessions]
    exact hmap kept

theorem userIds (h : Change a b w) (ha : (a.users.map (·.userId)).Nodup) :
    (b.users.map (·.userId)).Nodup := by
  cases h with
  | kept sessions users => rwa [users]
  | mapped kept sessions users => rwa [users]
  | pruned sessions users => rwa [users]
  | opened fresh sessions users => rwa [users]
  | added fresh sessions users =>
    rw [users, List.map_append, List.nodup_append]
    refine ⟨ha, List.nodup_singleton _, fun id hid id' hid' heq => ?_⟩
    obtain ⟨other, hother, rfl⟩ := List.mem_map.1 hid
    exact fresh other hother (heq.trans (List.mem_singleton.1 hid'))
  | @disabled w id now f kept sessions users =>
    rw [users, List.map_map]
    have hsame : (fun user : UserRow => user.userId) ∘ (fun user =>
        if user.userId = id then { user with disabledAt := some now } else user) = (·.userId) := by
      funext user
      show (if user.userId = id then _ else user : UserRow).userId = user.userId
      split <;> rfl
    rwa [hsame]

/-- A disabled user stays disabled. -/
theorem stillDisabled (h : Change a b w) {id : UserId} (ha : Disabled a id) : Disabled b id := by
  obtain ⟨hhas, hall⟩ := ha
  have hsame (husers : b.users = a.users) : Disabled b id := by
    unfold Disabled Access.hasUser
    rw [husers]
    exact ⟨hhas, hall⟩
  cases h with
  | kept sessions users => exact hsame users
  | mapped kept sessions users => exact hsame users
  | pruned sessions users => exact hsame users
  | opened fresh sessions users => exact hsame users
  | @added w user fresh sessions users =>
    unfold Disabled Access.hasUser
    rw [users]
    refine ⟨by rw [List.any_append]; exact Bool.or_eq_true_iff.2 (.inl hhas), fun other hother hid => ?_⟩
    rcases List.mem_append.1 hother with hold | hnew
    · exact hall other hold hid
    · obtain ⟨old, hold, heq⟩ := List.any_eq_true.1 hhas
      rw [List.mem_singleton.1 hnew] at hid
      exact absurd ((beq_iff_eq.1 heq).trans hid.symm) (fresh old hold)
  | @disabled w disabled now f kept sessions users =>
    unfold Disabled Access.hasUser
    rw [users]
    constructor
    · obtain ⟨old, hold, heq⟩ := List.any_eq_true.1 hhas
      refine List.any_eq_true.2 ⟨_, List.mem_map_of_mem hold, ?_⟩
      split <;> exact heq
    · intro user' hmem hid
      obtain ⟨user, huser, rfl⟩ := List.mem_map.1 hmem
      split at hid
      · next h =>
        rw [if_pos h]
        rfl
      · next h =>
        rw [if_neg h]
        exact hall user huser hid

end Change

/-! ## Moves -/

/-- The session was opened at some time. -/
def Opened (row : SessionRow) (past : List (Event sessionWorld)) : Prop :=
  ∃ access, .wrote access (.insertSession row) ∈ past

/-- A use of the session was recorded. -/
def Touched (id : SessionId) (now : Time) (past : List (Event sessionWorld)) : Prop :=
  ∃ access, .wrote access (.touchSession id now) ∈ past

section

variable {steady : Prop}

/-- A session that a login may open. -/
structure Fresh (row : SessionRow) (x : Scene (clockWorld steady)) : Prop where
  lastSeenAt : row.lastSeenAt = row.createdAt
  expiresAt : row.expiresAt = row.createdAt + sessionLifetimeSeconds
  createdAt : steady → row.createdAt ≤ x.outside
  apart : ∀ other, Opened other x.past →
    other.verifier ≠ row.verifier ∧ other.sessionId ≠ row.sessionId

/-- One step of anyone; only the sessions that `P` allows are opened. -/
inductive Move (P : SessionRow → Prop) :
    Scene (clockWorld steady) → Scene (clockWorld steady) → Prop
  | wrote {x : Scene (clockWorld steady)} {w : AccessWrite} {access : Access}
      (ok : w.perform x.store = .ok access)
      (opens : ∀ row, w = .insertSession row → P row ∧ Fresh row x)
      (touches : ∀ id now, w = .touchSession id now → steady → now ≤ x.outside) :
      Move P x (x.wrote w access)
  | asked {x : Scene (clockWorld steady)} (now : Time) (clock : steady → x.outside ≤ now) :
      Move P x (x.asked () now now)

/-- Any number of steps. -/
abbrev Moves (P : SessionRow → Prop) :
    Scene (clockWorld steady) → Scene (clockWorld steady) → Prop := Relation.ReflTransGen (Move P)

/-- Steps of anyone. -/
abbrev Any : Scene (clockWorld steady) → Scene (clockWorld steady) → Prop := Moves fun _ => True

variable {P P' : SessionRow → Prop} {x y z : Scene (clockWorld steady)}

theorem Move.mono (h : Move P x y) (hP : ∀ row, P row → P' row) : Move P' x y := by
  cases h with
  | wrote ok opens touches =>
    exact .wrote ok (fun row hw => ⟨hP row (opens row hw).1, (opens row hw).2⟩) touches
  | asked now clock => exact .asked now clock

theorem Moves.mono (h : Moves P x y) (hP : ∀ row, P row → P' row) : Moves P' x y := by
  induction h with
  | refl => exact .refl
  | tail before last ih => exact ih.tail (last.mono hP)

theorem Moves.any (h : Moves P x y) : Any x y := h.mono fun _ _ => trivial

theorem Move.past (h : Move P x y) : ∃ event, y.past = x.past ++ [event] := by
  cases h with
  | wrote ok opens touches => exact ⟨_, rfl⟩
  | asked now clock => exact ⟨_, rfl⟩

theorem Moves.past (h : Moves P x y) : ∃ later, y.past = x.past ++ later := by
  induction h with
  | refl => exact ⟨[], (List.append_nil _).symm⟩
  | tail before last ih =>
    obtain ⟨later, hlater⟩ := ih
    obtain ⟨event, hevent⟩ := last.past
    exact ⟨later ++ [event], by rw [hevent, hlater, List.append_assoc]⟩

theorem Moves.opened (h : Moves P x y) {row : SessionRow} (hrow : Opened row x.past) :
    Opened row y.past := by
  obtain ⟨later, hlater⟩ := h.past
  obtain ⟨access, hmem⟩ := hrow
  exact ⟨access, hlater ▸ List.mem_append_left _ hmem⟩

theorem Moves.touched (h : Moves P x y) {id : SessionId} {now : Time} (hid : Touched id now x.past) :
    Touched id now y.past := by
  obtain ⟨later, hlater⟩ := h.past
  obtain ⟨access, hmem⟩ := hid
  exact ⟨access, hlater ▸ List.mem_append_left _ hmem⟩

/-- A steady clock does not step back. -/
theorem Moves.clock (h : Moves P x y) (hsteady : steady) : x.outside ≤ y.outside := by
  induction h with
  | refl => exact le_rfl
  | tail before last ih =>
    cases last with
    | wrote ok opens touches => exact ih
    | asked now clock => exact ih.trans (clock hsteady)

theorem Moves.disabled (h : Moves P x y) {id : UserId} (hid : Disabled x.store id) :
    Disabled y.store id := by
  induction h with
  | refl => exact hid
  | tail before last ih =>
    cases last with
    | wrote ok opens touches => exact (session_change ok).stillDisabled ih
    | asked now clock => exact ih

/-! ## The invariant -/

/-- The row is that of a session once opened, last seen when it was opened or when it was touched. -/
def Genuine (row : SessionRow) (past : List (Event sessionWorld)) : Prop :=
  ∃ opened, Opened opened past ∧ SameSession opened row ∧
    (row.lastSeenAt = opened.lastSeenAt ∨ Touched row.sessionId row.lastSeenAt past)

theorem Moves.genuine (h : Moves P x y) {row : SessionRow} (hrow : Genuine row x.past) :
    Genuine row y.past := by
  obtain ⟨opened, hopened, hsame, hseen⟩ := hrow
  exact ⟨opened, h.opened hopened, hsame, hseen.imp_right h.touched⟩

structure Inv (x : Scene (clockWorld steady)) : Prop where
  rows : ∀ row ∈ x.store.sessions, Genuine row x.past
  verifiers : (x.store.sessions.map (·.verifier)).Nodup
  userIds : (x.store.users.map (·.userId)).Nodup
  opened : ∀ row, Opened row x.past → row.lastSeenAt = row.createdAt ∧
    row.expiresAt = row.createdAt + sessionLifetimeSeconds ∧ (steady → row.createdAt ≤ x.outside)
  touched : ∀ id now, Touched id now x.past → steady → now ≤ x.outside
  /-- No verifier and no identifier is used twice. -/
  once : ∀ row other, Opened row x.past → Opened other x.past →
    row.verifier = other.verifier ∨ row.sessionId = other.sessionId → row = other

/-- A new portal. -/
def start (clock : Time) : Scene (clockWorld steady) := ⟨Database.new.toAccess, clock, []⟩

theorem inv_start (clock : Time) : Inv (start clock : Scene (clockWorld steady)) := by
  have hnone (row : SessionRow) : ¬ Opened row [] := by
    rintro ⟨_, h⟩
    exact absurd h List.not_mem_nil
  refine ⟨fun row h => absurd h List.not_mem_nil, List.nodup_nil, List.nodup_nil,
    fun row h => absurd h (hnone row), fun id now h => ?_, fun row _ h => absurd h (hnone row)⟩
  obtain ⟨_, h⟩ := h
  exact absurd h List.not_mem_nil

theorem opened_wrote {row : SessionRow} {w : AccessWrite} {access : Access} :
    Opened row (x.wrote w access).past ↔ Opened row x.past ∨ w = .insertSession row := by
  constructor
  · rintro ⟨before, hmem⟩
    rcases List.mem_append.1 hmem with hold | hnew
    · exact .inl ⟨before, hold⟩
    · cases List.mem_singleton.1 hnew
      exact .inr rfl
  · rintro (⟨before, hmem⟩ | rfl)
    · exact ⟨before, List.mem_append_left _ hmem⟩
    · exact ⟨x.store, List.mem_append_right _ List.mem_cons_self⟩

theorem touched_wrote {id : SessionId} {now : Time} {w : AccessWrite} {access : Access} :
    Touched id now (x.wrote w access).past ↔ Touched id now x.past ∨ w = .touchSession id now := by
  constructor
  · rintro ⟨before, hmem⟩
    rcases List.mem_append.1 hmem with hold | hnew
    · exact .inl ⟨before, hold⟩
    · cases List.mem_singleton.1 hnew
      exact .inr rfl
  · rintro (⟨before, hmem⟩ | rfl)
    · exact ⟨before, List.mem_append_left _ hmem⟩
    · exact ⟨x.store, List.mem_append_right _ List.mem_cons_self⟩

theorem opened_asked {row : SessionRow} {now : Time} :
    Opened row (x.asked () now now).past ↔ Opened row x.past := by
  constructor
  · rintro ⟨before, hmem⟩
    rcases List.mem_append.1 hmem with hold | hnew
    · exact ⟨before, hold⟩
    · cases List.mem_singleton.1 hnew
  · rintro ⟨before, hmem⟩
    exact ⟨before, List.mem_append_left _ hmem⟩

theorem touched_asked {id : SessionId} {now time : Time} :
    Touched id time (x.asked () now now).past ↔ Touched id time x.past := by
  constructor
  · rintro ⟨before, hmem⟩
    rcases List.mem_append.1 hmem with hold | hnew
    · exact ⟨before, hold⟩
    · cases List.mem_singleton.1 hnew
  · rintro ⟨before, hmem⟩
    exact ⟨before, List.mem_append_left _ hmem⟩

theorem Inv.move (h : Inv x) (hmove : Move P x y) : Inv y := by
  have hmoves : Moves P x y := .single hmove
  cases hmove with
  | asked now clock =>
    refine ⟨fun row hrow => hmoves.genuine (h.rows row hrow), h.verifiers, h.userIds,
      fun row hrow => ?_, fun id time htouched hsteady => ?_, fun row other hrow hother => ?_⟩
    · obtain ⟨hseen, hexpires, hcreated⟩ := h.opened row (opened_asked.1 hrow)
      exact ⟨hseen, hexpires, fun hsteady => (hcreated hsteady).trans (clock hsteady)⟩
    · exact (h.touched id time (touched_asked.1 htouched) hsteady).trans (clock hsteady)
    · exact h.once row other (opened_asked.1 hrow) (opened_asked.1 hother)
  | @wrote w access ok opens touches =>
    have hchange := session_change ok
    refine ⟨fun row' hrow => ?_, hchange.verifiers h.verifiers, hchange.userIds h.userIds,
      fun row hrow => ?_, fun id time htouched hsteady => ?_, fun row other hrow hother => ?_⟩
    · rcases hchange.session hrow with ⟨row, hmem, hkept⟩ | ⟨row, rfl, rfl⟩
      · obtain ⟨opened, hopened, hsame, hseen⟩ := h.rows row hmem
        refine ⟨opened, hmoves.opened hopened, hsame.trans hkept.toSameSession, ?_⟩
        rcases hkept.seen with hkeptSeen | rfl
        · rw [hkeptSeen, hkept.sessionId]
          exact hseen.imp_right hmoves.touched
        · rw [hkept.sessionId]
          exact .inr (touched_wrote.2 (.inr rfl))
      · exact ⟨row, opened_wrote.2 (.inr rfl), ⟨rfl, rfl, rfl, rfl, rfl, rfl⟩, .inl rfl⟩
    · rcases opened_wrote.1 hrow with hold | rfl
      · exact h.opened row hold
      · obtain ⟨-, hfresh⟩ := opens row rfl
        exact ⟨hfresh.lastSeenAt, hfresh.expiresAt, hfresh.createdAt⟩
    · rcases touched_wrote.1 htouched with hold | rfl
      · exact h.touched id time hold hsteady
      · exact touches id time rfl hsteady
    · intro hsame
      rcases opened_wrote.1 hrow with hrow | rfl <;> rcases opened_wrote.1 hother with hother | hother
      · exact h.once row other hrow hother hsame
      · obtain ⟨hverifier, hid⟩ := (opens other hother).2.apart row hrow
        exact (hsame.elim hverifier hid).elim
      · obtain ⟨hverifier, hid⟩ := (opens row rfl).2.apart other hother
        exact (hsame.elim (fun h => hverifier h.symm) fun h => hid h.symm).elim
      · cases hother
        rfl

theorem Inv.moves (h : Inv x) (hmoves : Moves P x y) : Inv y := by
  induction hmoves with
  | refl => exact h
  | tail before last ih => exact ih.move last

/-! ## Dead sessions -/

/-- The session of the verifier was opened, and is revoked, deleted or that of a disabled user. -/
structure Dead (verifier : Bytes) (x : Scene (clockWorld steady)) : Prop where
  opened : ∃ row, Opened row x.past ∧ row.verifier = verifier
  ended : ∀ row ∈ x.store.sessions, row.verifier = verifier →
    row.revokedAt.isSome ∨ Disabled x.store row.userId

/-- No step brings a dead session back. -/
theorem Dead.move {verifier : Bytes} (h : Dead verifier x) (hmove : Move P x y) : Dead verifier y := by
  have hmoves : Moves P x y := .single hmove
  obtain ⟨row, hopened, hverifier⟩ := h.opened
  refine ⟨⟨row, hmoves.opened hopened, hverifier⟩, fun row' hrow' hsame => ?_⟩
  cases hmove with
  | asked now clock => exact h.ended row' hrow' hsame
  | @wrote w access ok opens touches =>
    rcases (session_change ok).session hrow' with ⟨old, hold, hkept⟩ | ⟨new, rfl, rfl⟩
    · refine (h.ended old hold (hkept.verifier.symm.trans hsame)).imp hkept.revoked fun hdisabled => ?_
      rw [hkept.userId]
      exact hmoves.disabled hdisabled
    · exact absurd (hverifier.trans hsame.symm) ((opens new rfl).2.apart row hopened).1

theorem Dead.moves {verifier : Bytes} (h : Dead verifier x) (hmoves : Moves P x y) :
    Dead verifier y := by
  induction hmoves with
  | refl => exact h
  | tail before last ih => exact ih.move last

/-! ## What a request sees -/

/-- The store was so at some time since `b`. -/
def Between (b x : Scene (clockWorld steady)) (access : Access) : Prop :=
  ∃ later, x.past = b.past ++ later ∧
    (access = x.store ∨ ∃ w, .wrote access w ∈ later)

theorem between_now (h : Moves P x y) : Between x y y.store := by
  obtain ⟨later, hlater⟩ := h.past
  exact ⟨later, hlater, .inl rfl⟩

theorem Between.move {b : Scene (clockWorld steady)} {access : Access} (h : Between b x access)
    (hmove : Move P x y) : Between b y access := by
  obtain ⟨later, hlater, hat⟩ := h
  cases hmove with
  | @wrote w next ok opens touches =>
    refine ⟨later ++ [.wrote x.store w], ?_, .inr ?_⟩
    · rw [Scene.wrote_past, hlater, List.append_assoc]
    · rcases hat with rfl | ⟨w', hw'⟩
      · exact ⟨w, by simp⟩
      · exact ⟨w', List.mem_append_left _ hw'⟩
  | asked now clock =>
    refine ⟨later ++ [.asked x.store () now], ?_, hat.imp_right fun hw' => ?_⟩
    · rw [Scene.asked_past, hlater, List.append_assoc]
    · obtain ⟨w', hw'⟩ := hw'
      exact ⟨w', List.mem_append_left _ hw'⟩

theorem Between.moves {b : Scene (clockWorld steady)} {access : Access} (h : Between b x access)
    (hmoves : Moves P x y) : Between b y access := by
  induction hmoves with
  | refl => exact h
  | tail before last ih => exact ih.move last

section

variable {α β : Type} {Guar Rely : Scene (clockWorld steady) → Scene (clockWorld steady) → Prop}

theorem safe_reading {f : Access → α} {Q : α → Scene (clockWorld steady) → Prop} :
    (reading f).Safe (fun _ => True) Rely Guar Q x ↔ ∀ y, Rely x y → Q (f y.store) y := Iff.rfl

theorem safe_nowSeconds {Q : Time → Scene (clockWorld steady) → Prop}
    (h : ∀ y, Rely x y → ∀ now, (steady → y.outside ≤ now) →
      Guar y (y.asked () now now) ∧ Q now (y.asked () now now)) :
    nowSeconds.Safe (fun _ => True) Rely Guar Q x := by
  rintro y hy now clock ⟨hclock, rfl⟩ -
  exact h y hy clock hclock

theorem safe_write {w : AccessWrite} {Q : Unit → Scene (clockWorld steady) → Prop}
    (h : ∀ y, Rely x y → ∀ access, w.perform y.store = .ok access →
      Guar y (y.wrote w access) ∧ Q () (y.wrote w access)) :
    (write w).Safe (fun _ => True) Rely Guar Q x := fun y hy access hok _ => h y hy access hok

end

/-- A request is safe among anyone's steps, and opens no session. -/
abbrev SafeRequest {α : Type} (p : Handler α) (Q : α → Scene (clockWorld steady) → Prop)
    (x : Scene (clockWorld steady)) : Prop :=
  p.Safe (fun _ => True) Any (Moves fun _ => False) Q x

/-- The token of the session was refused because the session ended, or because of the node or the
user. -/
def Refusal.Ends : Refusal → Prop
  | .malformed => False
  | .unknown => False
  | _ => True

/-- What an accepted request found since `b`. -/
structure Admitted (b x : Scene (clockWorld steady)) (peer : Peer) (token : SessionToken)
    (session : SessionRow) (p : Principal) : Prop where
  live : session.revokedAt = none
  lifetime : p.now < session.expiresAt
  active : p.now - session.lastSeenAt < sessionIdleSeconds
  node : session.nodeStableId = peer.nodeStableId
  untagged : peer.isTagged = false
  user : p.user.userId = session.userId
  resolved : ∃ access, Between b x access ∧ access.userIdByLogin peer.userLogin = some p.user.userId
  enabled : p.user.disabledAt = none ∧ ∃ access, Between b x access ∧ p.user ∈ access.users
  allowed : ¬ Disabled b.store session.userId
  clock : steady → b.outside ≤ p.now
  sameSession : p.session = session
  sameToken : p.token = token

/-- What an answer says. -/
def Answered (b : Scene (clockWorld steady)) (peer : Peer) (token : SessionToken)
    (session : SessionRow) : Answer → Scene (clockWorld steady) → Prop
  | .ok p, x => Admitted b x peer token session p
  | .error refusal, x => refusal.Ends → Dead session.verifier x

/-- Two rows of one verifier are rows of one session. -/
theorem Inv.sameSession (h : Inv x) {row row' : SessionRow} (hrow : Genuine row x.past)
    (hrow' : Genuine row' x.past) (hsame : row.verifier = row'.verifier) :
    row.sessionId = row'.sessionId ∧ row.userId = row'.userId := by
  obtain ⟨opened, hopened, hsession, -⟩ := hrow
  obtain ⟨opened', hopened', hsession', -⟩ := hrow'
  have hone := h.once opened opened' hopened hopened' (.inl (by
    rw [← hsession.verifier, ← hsession'.verifier, hsame]))
  subst hone
  exact ⟨hsession.sessionId.trans hsession'.sessionId.symm,
    hsession.userId.trans hsession'.userId.symm⟩

/-- A revoked session is dead. -/
theorem dead_of_revoked {session : SessionRow} {now : Time} {reason : String} {access : Access}
    (hx : Inv x) (hsession : Genuine session x.past)
    (hok : (AccessWrite.revokeSession session.sessionId now reason).perform x.store = .ok access) :
    Dead session.verifier (x.wrote (.revokeSession session.sessionId now reason) access) := by
  have hmove : Move (fun _ => False) x
      (x.wrote (.revokeSession session.sessionId now reason) access) :=
    .wrote hok (fun _ h => by cases h) fun _ _ h => by cases h
  have hstill := Moves.genuine (.single hmove) hsession
  obtain ⟨opened, hopened, hsame, -⟩ := hstill
  refine ⟨⟨opened, hopened, hsame.verifier.symm⟩, fun row' hrow' hverifier => .inl ?_⟩
  cases hok
  obtain ⟨row, hrow, rfl⟩ := List.mem_map.1 hrow'
  have hid : row.sessionId = session.sessionId := by
    refine (hx.sameSession (hx.rows row hrow) hsession ?_).1
    rw [← hverifier]
    split
    · exact (kept_revoke (w := .pruneSessions 0) now reason).verifier.symm
    · rfl
  rw [if_pos hid]
  exact isSome_revoke now reason

theorem safe_revokeAndRefuse {b : Scene (clockWorld steady)} {peer : Peer} {token : SessionToken}
    {session : SessionRow} {now : Time} {reason : String} {refusal : Refusal} (hx : Inv x)
    (hsession : Genuine session x.past) : SafeRequest
      (revokeAndRefuse session now reason refusal) (Answered b peer token session) x := by
  refine safe_bind.2 (safe_write fun y hy access hok => ⟨.single (.wrote hok ?_ ?_), ?_⟩)
  · exact fun _ h => by cases h
  · exact fun _ _ h => by cases h
  · exact fun _ => dead_of_revoked (hx.moves hy) (hy.genuine hsession) hok

/-- What is known of a user that was looked up since `b`. -/
structure Found (b x : Scene (clockWorld steady)) (login : String) (user : UserRow) : Prop where
  resolved : ∃ access, Between b x access ∧ access.userIdByLogin login = some user.userId
  listed : ∃ access, Between b x access ∧ user ∈ access.users
  disabled : user.disabledAt.isSome → Disabled x.store user.userId
  blocked : Disabled b.store user.userId → user.disabledAt.isSome

theorem Found.moves {b : Scene (clockWorld steady)} {login : String} {user : UserRow}
    (h : Found b x login user) (hmoves : Moves P x y) : Found b y login user := by
  obtain ⟨⟨access, hbetween, hresolved⟩, ⟨access', hbetween', hlisted⟩, hdisabled, hblocked⟩ := h
  exact ⟨⟨access, hbetween.moves hmoves, hresolved⟩, ⟨access', hbetween'.moves hmoves, hlisted⟩,
    fun h => hmoves.disabled (hdisabled h), hblocked⟩

theorem safe_userByLogin {Guar : Scene (clockWorld steady) → Scene (clockWorld steady) → Prop}
    {b : Scene (clockWorld steady)} {login : String} (hx : Inv x) (hb : Any b x) :
    (userByLogin login).Safe (fun _ => True) (Moves P) Guar
      (fun user y => Moves P x y ∧ ∀ found, user = some found → Found b y login found) x := by
  refine safe_bind.2 (safe_reading.2 fun y hy => ?_)
  cases hid : y.store.userIdByLogin login with
  | none => exact ⟨hy, fun found h => by cases h⟩
  | some id =>
    refine safe_reading.2 fun z hz => ⟨hy.trans hz, fun found hfound => ?_⟩
    obtain rfl : found.userId = id := by simpa using List.find?_some hfound
    have hmem : found ∈ z.store.users := List.mem_of_find?_eq_some hfound
    have hby := hb.trans hy.any
    have hbz := hby.trans hz.any
    refine ⟨⟨y.store, (between_now hby).moves hz, hid⟩, ⟨z.store, between_now hbz, hmem⟩,
      fun hdisabled => ⟨?_, ?_⟩, fun hblocked => (Moves.disabled hbz hblocked).2 found hmem rfl⟩
    · exact List.any_eq_true.2 ⟨found, hmem, by simp⟩
    · intro user huser hsame
      rw [List.inj_on_of_nodup_map ((hx.moves hy).moves hz).userIds huser hmem hsame]
      exact hdisabled

theorem safe_admitUser {b : Scene (clockWorld steady)} {peer : Peer} {token : SessionToken}
    {session : SessionRow} {now : Time} {user : Option UserRow} (hx : Inv x)
    (hsession : Genuine session x.past) (hlive : session.revokedAt = none)
    (hlifetime : now < session.expiresAt) (hactive : now - session.lastSeenAt < sessionIdleSeconds)
    (hnode : session.nodeStableId = peer.nodeStableId)
    (hclock : steady → b.outside ≤ now ∧ now ≤ x.outside)
    (huser : ∀ found, user = some found → Found b x peer.userLogin found) :
    SafeRequest (admitUser peer token session now user) (Answered b peer token session) x := by
  unfold admitUser
  cases hfilter : user.filter fun user => user.userId == session.userId && !peer.isTagged with
  | none => exact safe_revokeAndRefuse hx hsession
  | some found =>
    obtain ⟨hfound, hmatch⟩ := Option.filter_eq_some_iff.1 hfilter
    rw [Bool.and_eq_true, beq_iff_eq, Bool.not_eq_true'] at hmatch
    have hknown := huser found hfound
    dsimp only
    split
    · next hdisabled =>
      refine fun _ => ?_
      have hgenuine := hsession
      obtain ⟨opened, hopened, hsame, -⟩ := hsession
      refine ⟨⟨opened, hopened, hsame.verifier.symm⟩, fun row hrow hverifier => .inr ?_⟩
      have hid := (hx.sameSession (hx.rows row hrow) hgenuine hverifier).2
      rw [hid, ← hmatch.1]
      exact hknown.disabled hdisabled
    · next henabled =>
      have hadmitted {y : Scene (clockWorld steady)} (hy : Any x y) :
          Admitted b y peer token session ⟨found, session, token, now⟩ := by
        obtain ⟨hresolved, hlisted, -, hblocked⟩ := hknown.moves hy
        rw [hmatch.1] at hblocked
        exact ⟨hlive, hlifetime, hactive, hnode, hmatch.2, hmatch.1, hresolved,
          ⟨Option.not_isSome_iff_eq_none.1 henabled, hlisted⟩, fun h => henabled (hblocked h),
          fun h => (hclock h).1, rfl, rfl⟩
      split
      · refine safe_bind.2 (safe_write fun y hy access hok => ?_)
        have hmove : Move (fun _ => False) y
            (y.wrote (.touchSession session.sessionId now) access) := by
          refine .wrote hok (fun _ h => by cases h) fun id time h hsteady => ?_
          cases h
          exact (hclock hsteady).2.trans (hy.clock hsteady)
        exact ⟨.single hmove, hadmitted (hy.tail (hmove.mono fun _ h => h.elim))⟩
      · exact hadmitted .refl

theorem safe_admitSession {b : Scene (clockWorld steady)} {peer : Peer} {token : SessionToken}
    {session : SessionRow} {now : Time} (hx : Inv x) (hb : Any b x)
    (hsession : Genuine session x.past)
    (hrevoked : session.revokedAt.isSome → Dead session.verifier x)
    (hclock : steady → b.outside ≤ now ∧ now ≤ x.outside) :
    SafeRequest (admitSession peer token session now) (Answered b peer token session) x := by
  unfold admitSession
  split
  · next h => exact fun _ => hrevoked h
  split
  · exact safe_revokeAndRefuse hx hsession
  split
  · exact safe_revokeAndRefuse hx hsession
  split
  · exact safe_revokeAndRefuse hx hsession
  next hlive hlifetime hactive hnode =>
  refine safe_bind.2 ((safe_userByLogin hx hb).mono fun user y hy => ?_)
  exact safe_admitUser (hx.moves hy.1) (hy.1.genuine hsession)
    (Option.not_isSome_iff_eq_none.1 hlive) (not_le.1 hlifetime) (not_le.1 hactive)
    (not_not.1 hnode) (fun h => ⟨(hclock h).1, (hclock h).2.trans (hy.1.clock h)⟩) hy.2

/-- From the row on: the rest of a request whose first statement found the session. -/
theorem safe_found {peer : Peer} {token : SessionToken} {session : SessionRow} (hx : Inv x)
    (hsession : session ∈ x.store.sessions) :
    SafeRequest (nowSeconds >>= admitSession peer token session) (Answered x peer token session) x := by
  have hgenuine := hx.rows session hsession
  have hdead (hrevoked : session.revokedAt.isSome) : Dead session.verifier x := by
    obtain ⟨opened, hopened, hsame, -⟩ := hgenuine
    refine ⟨⟨opened, hopened, hsame.verifier.symm⟩, fun row hrow hverifier => .inl ?_⟩
    rw [List.inj_on_of_nodup_map hx.verifiers hrow hsession hverifier]
    exact hrevoked
  refine safe_bind.2 (safe_nowSeconds fun y hy now hnow => ?_)
  have hmove : Move (fun _ => False) y (y.asked () now now) := .asked now hnow
  have hmoves : Any x (y.asked () now now) := hy.tail (hmove.mono fun _ h => h.elim)
  exact ⟨.single hmove, safe_admitSession (hx.moves hmoves) hmoves (hmoves.genuine hgenuine)
    (fun h => (hdead h).moves hmoves) fun h => ⟨(hy.clock h).trans (hnow h), le_rfl⟩⟩

variable [Verifiers]

/-- What a request of a token comes to. -/
def Settled (text : List Char) : Answer → Scene (clockWorld steady) → Prop
  | .ok p, x => SessionToken.parse text = some p.token ∧ p.session.verifier = verifier p.token ∧
    Genuine p.session x.past
  | .error refusal, x => refusal.Ends →
    ∃ token, SessionToken.parse text = some token ∧ Dead (verifier token) x

theorem Moves.settled (h : Moves P x y) {text : List Char} {answer : Answer}
    (hx : Settled text answer x) : Settled text answer y := by
  cases answer with
  | ok p => exact ⟨hx.1, hx.2.1, h.genuine hx.2.2⟩
  | error refusal =>
    intro hends
    obtain ⟨token, hparse, hdead⟩ := hx hends
    exact ⟨token, hparse, hdead.moves h⟩

theorem safe_authenticateSession {peer : Peer} {text : List Char} (hx : Inv x) :
    SafeRequest (authenticateSession peer text) (Settled text) x := by
  unfold authenticateSession
  split
  · exact fun h => h.elim
  · next token hparse =>
    refine safe_bind.2 (safe_reading.2 fun y hy => ?_)
    cases hfind : y.store.sessionByVerifier (verifier token) with
    | none => exact fun h => h.elim
    | some session =>
      have hmem : session ∈ y.store.sessions := List.mem_of_find?_eq_some hfind
      have hverifier : session.verifier = verifier token := by simpa using List.find?_some hfind
      have hy := hx.moves hy
      refine ((safe_found hy hmem).reached (R := Any) (fun _ _ h => h) (fun _ _ h => h.any)
        (fun _ => .refl) fun _ _ _ => Relation.ReflTransGen.trans).mono fun answer z hz => ?_
      cases answer with
      | ok p =>
        obtain ⟨hadmitted, hmoves⟩ := hz
        rw [← hadmitted.sameSession, ← hadmitted.sameToken] at hverifier
        exact ⟨hadmitted.sameToken ▸ hparse, hverifier,
          hmoves.genuine (hadmitted.sameSession ▸ hy.rows session hmem)⟩
      | error refusal => exact fun hends => ⟨token, hparse, hverifier ▸ hz.1 hends⟩

end

end Sessions

end Metadata

end DistrHnsw
