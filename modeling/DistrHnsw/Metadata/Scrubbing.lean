import DistrHnsw.Metadata.Draining
import DistrHnsw.Metadata.Scrub
import Mathlib.Data.List.ProdSigma

/-!
# What a scrub goes by

Every change a scrub makes follows from what agents answered in the same job, and an object it calls
durable has copies that were read back.  `Warranted` says which step needs which answers; `Vouched`
is the invariant that keeps the copies counted in memory in step with the placements.
-/

namespace DistrHnsw

namespace Metadata

namespace Scrub

open Program Database

/-! ## What was answered -/

variable {O : Outside scrubWorld} {x y z : Scene O} {agents : List AgentTarget}
  {past past' : List (Event scrubWorld)} {object thing : ObjectId} {agent : AgentTarget}
  {incarnation : IncarnationId} {db db₁ db₂ : Database}

/-- The question was answered so. -/
def Answered (past : List (Event scrubWorld)) (q : Query) (answer : q.Answer) : Prop :=
  ∃ s, (.asked s q answer : Event scrubWorld) ∈ past

theorem Answered.later {q : Query} {answer : q.Answer} (h : Answered past q answer)
    (hpast : past <+: past') : Answered past' q answer := by
  obtain ⟨s, hs⟩ := h
  exact ⟨s, hpast.subset hs⟩

theorem answered_asked (x : Scene O) (q : Query) (answer : q.Answer) (e : O.State) :
    Answered (x.asked q answer e).past q answer :=
  ⟨x.store, List.mem_append_right _ (List.mem_singleton_self _)⟩

/-- The agent reported who it is and the incarnation it is in. -/
def Reported (past : List (Event scrubWorld)) (agent : AgentTarget) (incarnation : IncarnationId) :
    Prop :=
  ∃ free, Answered past (.health agent)
    (Health.reports agent.id agent.failureDomain incarnation free)

theorem Reported.later (h : Reported past agent incarnation) (hpast : past <+: past') :
    Reported past' agent incarnation := h.imp fun _ hfree => hfree.later hpast

/-- The agent listed all it holds of the kind. -/
def Listed (past : List (Event scrubWorld)) (agent : AgentTarget) (kind : ObjectKind)
    (listing : List (ObjectHash × ℕ)) : Prop :=
  Answered past (.inventory agent kind) (some listing)

/-- Every agent reported, and listed all it holds. -/
def Observed (past : List (Event scrubWorld)) (agents : List AgentTarget) : Prop :=
  ∀ agent ∈ agents, (∃ incarnation, Reported past agent incarnation) ∧
    ∀ kind, ∃ listing, Listed past agent kind listing

theorem Observed.later (h : Observed past agents) (hpast : past <+: past') : Observed past' agents :=
  fun agent hagent => ⟨(h agent hagent).1.imp fun _ hreported => hreported.later hpast,
    fun kind => ((h agent hagent).2 kind).imp fun _ hlisted => hlisted.later hpast⟩

/-! ## One placement -/

/-- What a verification makes of the placements. -/
structure Recorded (object : ObjectId) (agent : AgentId) (incarnation : IncarnationId)
    (state : PlacementState) (db db' : Database) : Prop where
  placements : db' = { db with placements := db'.placements }
  exists_row : ∃ row ∈ db'.placements, row.object = object ∧ row.agentId = agent
  row : ∀ row ∈ db'.placements, row.object = object → row.agentId = agent →
    row.incarnationId = some incarnation ∧ row.state = state
  others : ∀ row, ¬ (row.object = object ∧ row.agentId = agent) →
    (row ∈ db'.placements ↔ row ∈ db.placements)

/-- Changing the rows of a place changes no others. -/
theorem mem_updatePlacement_other {f : Placement → Placement} (hf : ∀ row, SamePlace (f row) row)
    {row : Placement} (hrow : ¬ (row.object = object ∧ row.agentId = agent.id)) :
    row ∈ (db.updatePlacement object agent.id f).placements ↔ row ∈ db.placements := by
  constructor
  · intro h
    obtain ⟨old, hold, heq⟩ := List.mem_map.1 h
    split at heq
    · next hplace =>
      subst heq
      exact absurd ⟨(hf old).1.trans hplace.1, (hf old).2.trans hplace.2⟩ hrow
    · exact heq ▸ hold
  · exact fun h => List.mem_map.2 ⟨row, h, if_neg hrow⟩

theorem recorded_of_ok {state : PlacementState}
    (hok : db.setPlacementVerification object agent incarnation state = .ok db₁) :
    Recorded object agent.id incarnation state db db₁ := by
  unfold setPlacementVerification at hok
  split at hok
  · cases hok
  cases hok
  have hplaced : ∃ row ∈ (db.ensurePendingPlacement object agent incarnation).placements,
      row.object = object ∧ row.agentId = agent.id := by
    rcases ensurePendingPlacement_cases db object agent incarnation with ⟨hsome, heq⟩ | ⟨-, heq⟩
    · obtain ⟨row, hrow, hplace⟩ := List.any_eq_true.1 hsome
      simp only [Bool.and_eq_true, beq_iff_eq] at hplace
      rw [heq]
      have hsame := adoptPlacement_same agent incarnation row
      refine ⟨_, List.mem_map.2 ⟨row, hrow, if_pos hplace⟩, hsame.1.trans hplace.1,
        hsame.2.trans hplace.2⟩
    · rw [heq]
      exact ⟨_, List.mem_append_right _ (List.mem_singleton_self _), rfl, rfl⟩
  have hensured : ∀ row, ¬ (row.object = object ∧ row.agentId = agent.id) →
      (row ∈ (db.ensurePendingPlacement object agent incarnation).placements ↔
        row ∈ db.placements) := by
    intro row hrow
    rcases ensurePendingPlacement_cases db object agent incarnation with ⟨-, heq⟩ | ⟨-, heq⟩
    · rw [heq]
      exact mem_updatePlacement_other (adoptPlacement_same agent incarnation) hrow
    · rw [heq]
      refine ⟨fun h => ?_, List.mem_append_left _⟩
      rcases List.mem_append.1 h with h | h
      · exact h
      · cases List.mem_singleton.1 h
        exact absurd ⟨rfl, rfl⟩ hrow
  refine ⟨?_, ?_, ?_, fun row hrow => ?_⟩
  · rcases ensurePendingPlacement_cases db object agent incarnation with ⟨-, heq⟩ | ⟨-, heq⟩ <;>
      rw [heq] <;> rfl
  · obtain ⟨row, hrow, hplace⟩ := hplaced
    exact ⟨_, List.mem_map.2 ⟨row, hrow, if_pos hplace⟩, hplace⟩
  · intro row hrow hobject hagent
    obtain ⟨old, hold, heq⟩ := List.mem_map.1 hrow
    split at heq
    · next hplace =>
      subst heq
      have howner : old.incarnationId = some incarnation :=
        incarnation_ensure hold hplace.1 hplace.2
      exact ⟨howner, rfl⟩
    · next hplace =>
      subst heq
      exact absurd ⟨hobject, hagent⟩ hplace
  · exact (mem_updatePlacement_other (f := fun row => { row with state := state })
      (fun _ => ⟨rfl, rfl⟩) hrow).trans (hensured row hrow)

/-- No placement is removed. -/
def KeepsRows (db db' : Database) : Prop :=
  ∀ row ∈ db.placements, ∃ row' ∈ db'.placements, SamePlace row' row

theorem KeepsRows.trans (h : KeepsRows db db₁) (h' : KeepsRows db₁ db₂) : KeepsRows db db₂ := by
  intro row hrow
  obtain ⟨row₁, hrow₁, hsame₁⟩ := h row hrow
  obtain ⟨row₂, hrow₂, hsame₂⟩ := h' row₁ hrow₁
  exact ⟨row₂, hrow₂, hsame₂.1.trans hsame₁.1, hsame₂.2.trans hsame₁.2⟩

theorem Recorded.keepsRows {state : PlacementState} {id : AgentId}
    (h : Recorded object id incarnation state db db₁) : KeepsRows db db₁ := by
  intro row hrow
  by_cases hplace : row.object = object ∧ row.agentId = id
  · obtain ⟨row', hrow', hobject, hid⟩ := h.exists_row
    exact ⟨row', hrow', hobject.trans hplace.1.symm, hid.trans hplace.2.symm⟩
  · exact ⟨row, (h.others row hplace).2 hrow, rfl, rfl⟩

theorem keepsRows_observed (hok : db.observeAgentIncarnation agent incarnation = .ok db₁) :
    KeepsRows db db₁ := by
  intro row hrow
  rcases observeAgentIncarnation_cases hok with ⟨_, -, -, -, -, rfl⟩ | ⟨_, -, -, -, -, -, heq⟩ |
    ⟨-, -, -, heq⟩
  · exact ⟨row, hrow, rfl, rfl⟩
  · exact ⟨row, heq ▸ hrow, rfl, rfl⟩
  · refine ⟨_, heq ▸ List.mem_map.2 ⟨row, hrow, rfl⟩, ?_⟩
    split <;> exact ⟨rfl, rfl⟩

/-- The agent is in the incarnation. -/
def Owns (db : Database) (agent : AgentTarget) (incarnation : IncarnationId) : Prop :=
  ∃ row ∈ db.incarnations, row.agentId = agent.id ∧ row.incarnationId = incarnation ∧
    row.status = .active

theorem Owns.active (h : Owns db agent incarnation) : db.activeIncarnation incarnation = true := by
  obtain ⟨row, hrow, -, hid, hstatus⟩ := h
  exact Drain.activeIncarnation_iff.2 ⟨row, hrow, hid, hstatus⟩

theorem owns_observed (hok : db.observeAgentIncarnation agent incarnation = .ok db₁) :
    Owns db₁ agent incarnation := by
  rcases observeAgentIncarnation_cases hok with ⟨row, hrow, hagent, hstatus, hid, rfl⟩ |
    ⟨_, -, -, -, -, heq, -⟩ | ⟨-, -, heq, -⟩
  · exact ⟨_, List.mem_map.2 ⟨row, hrow, if_pos hid⟩, hagent, hid, hstatus⟩
  all_goals
    exact ⟨_, heq ▸ List.mem_append_right _ (List.mem_singleton_self _), rfl, rfl, rfl⟩

/-- Contact with one agent leaves the others in their incarnations. -/
theorem Owns.observed {other : AgentTarget} {own : IncarnationId} (h : Owns db other own)
    (hone : OneActive db.incarnations) (hne : other.id ≠ agent.id)
    (hok : db.observeAgentIncarnation agent incarnation = .ok db₁) : Owns db₁ other own := by
  obtain ⟨row, hrow, hagent, hid, hstatus⟩ := h
  rcases observeAgentIncarnation_cases hok with ⟨known, -, -, -, -, rfl⟩ |
    ⟨old, hold, howner, -, -, heq, -⟩ | ⟨-, -, heq, -⟩
  · refine ⟨_, List.mem_map.2 ⟨row, hrow, rfl⟩, ?_⟩
    split <;> exact ⟨hagent, hid, hstatus⟩
  · have hother : row.incarnationId ≠ old.incarnationId := by
      intro hsame
      obtain rfl := hone.unique hrow hold hsame
      exact hne (hagent.symm.trans howner)
    refine ⟨row, heq ▸ List.mem_append_left _ (List.mem_map.2 ⟨row, hrow, if_neg hother⟩),
      hagent, hid, hstatus⟩
  · exact ⟨row, heq ▸ List.mem_append_left _ hrow, hagent, hid, hstatus⟩

/-! ## Warranted steps -/

section

variable [Sealing]

/-- The agent returned the object's bytes. -/
def ReadBack (past : List (Event scrubWorld)) (agent : AgentTarget) (object : ObjectId) : Prop :=
  ∃ bytes, Answered past (.get agent object) (Fetched.body bytes) ∧
    Sealing.digest bytes = object.hash

theorem ReadBack.later (h : ReadBack past agent object) (hpast : past <+: past') :
    ReadBack past' agent object := h.imp fun _ hbytes => ⟨hbytes.1.later hpast, hbytes.2⟩

/-- The object was listed, and what the agent returned was not it. -/
def FoundCorrupt (past : List (Event scrubWorld)) (agent : AgentTarget) (object : ObjectId) : Prop :=
  ∃ required size listing answer, required.object = object ∧ Listed past agent object.kind listing ∧
    (object.hash, size) ∈ listing ∧ Answered past (.get agent object) answer ∧
      ∀ bytes, answer = Fetched.body bytes → intact required size bytes = false

/-- The agent listed all it holds of the kind, and not the object. -/
def FoundMissing (past : List (Event scrubWorld)) (agent : AgentTarget) (object : ObjectId) : Prop :=
  ∃ listing, Listed past agent object.kind listing ∧ ∀ entry ∈ listing, entry.1 ≠ object.hash

/-- What a verification goes by. -/
def Grounds (past : List (Event scrubWorld)) (agent : AgentTarget) (object : ObjectId) :
    PlacementState → Prop
  | .confirmed => ReadBack past agent object
  | .corrupt => FoundCorrupt past agent object
  | .missing => FoundMissing past agent object
  | _ => False

/-- What a step of a scrub goes by; anything else it never does. -/
def Warranted (mode : JobMode) (agents : List AgentTarget) (past : List (Event scrubWorld)) :
    Event scrubWorld → Prop
  | .wrote _ (.portal (.observeAgentIncarnation agent incarnation)) =>
    agent ∈ agents ∧ Reported past agent incarnation
  | .wrote _ (.portal (.setPlacementVerification object agent incarnation state)) =>
    agent ∈ agents ∧ Reported past agent incarnation ∧ Grounds past agent object state
  | .wrote _ (.completeScan scan) => ∃ agent ∈ agents, agent.id = scan.agentId ∧
    Reported past agent scan.incarnationId ∧ ∃ listing, Listed past agent scan.kind listing ∧
      scan.inventoryDigest = inventoryDigest scan.kind listing
  | .wrote _ (.replaceObjectHealth _) => True
  | .asked _ (.put agent object bytes) _ =>
    mode = .repair ∧ agent ∈ agents ∧ Sealing.digest bytes = object.hash ∧ Observed past agents
  | .asked _ .now _ => True
  | .asked _ (.health _) _ => True
  | .asked _ (.inventory _ _) _ => True
  | .asked _ (.get _ _) _ => True
  | _ => False

variable {mode : JobMode}

theorem keepsRows_of_warranted {s s' : Store} {w : ScrubWrite}
    (h : Warranted mode agents past (.wrote s w)) (hok : w.perform s = .ok s') :
    KeepsRows s.database s'.database := by
  cases w with
  | portal w =>
    obtain ⟨db, hperform, hdb⟩ := bind_eq_ok.1 hok
    cases hdb
    cases w with
    | observeAgentIncarnation agent incarnation => exact keepsRows_observed hperform
    | setPlacementVerification object agent incarnation state =>
      exact (recorded_of_ok hperform).keepsRows
    | _ => exact h.elim
  | completeScan scan =>
    cases hok
    exact fun row hrow => ⟨row, hrow, rfl, rfl⟩
  | replaceObjectHealth health =>
    obtain ⟨rows, -, hrows⟩ := bind_eq_ok.1 hok
    cases hrows
    exact fun row hrow => ⟨row, hrow, rfl, rfl⟩

/-- A step that is warranted and removes no placement. -/
def Warrants (mode : JobMode) (agents : List AgentTarget) (x y : Scene O) : Prop :=
  (∃ event, y.past = x.past ++ [event] ∧ Warranted mode agents x.past event) ∧
    KeepsRows x.store.database y.store.database

/-- Alone, every step of the job is warranted, and `Q` holds when it is done. -/
def Sound {α : Type} (mode : JobMode) (agents : List AgentTarget) (p : Job α)
    (Q : α → Scene O → Prop) (x : Scene O) : Prop :=
  p.Safe (fun _ => True) Eq (Warrants mode agents) Q x

section Rules

variable {α β : Type} {Q : α → Scene O → Prop}

theorem sound_bind {p : Job α} {f : α → Job β} {R : β → Scene O → Prop} :
    Sound mode agents (p >>= f) R x ↔
      Sound mode agents p (fun a y => Sound mode agents (f a) R y) x := safe_bind

theorem Sound.mono {p : Job α} {R : α → Scene O → Prop} (h : Sound mode agents p Q x)
    (hQ : ∀ a y, Q a y → R a y) : Sound mode agents p R x := Safe.mono h hQ

theorem sound_pure {a : α} (h : Q a x) : Sound mode agents (pure a) Q x := h

theorem sound_reading {f : Store → α} (h : Q (f x.store) x) : Sound mode agents (reading f) Q x := by
  rintro y rfl
  exact h

theorem sound_query {q : Query} {Q : q.Answer → Scene O → Prop}
    (h : ∀ (a : q.Answer) e, O.answers x.outside q a e →
      Warranted mode agents x.past (.asked x.store q a) ∧ Q a (x.asked q a e)) :
    Sound mode agents (query (W := scrubWorld) q) Q x := by
  rintro y rfl a e hanswers -
  obtain ⟨hwarranted, hQ⟩ := h a e hanswers
  exact ⟨⟨⟨_, rfl, hwarranted⟩, fun row hrow => ⟨row, hrow, rfl, rfl⟩⟩, hQ⟩

theorem sound_write {w : ScrubWrite} {Q : Unit → Scene O → Prop}
    (hw : Warranted mode agents x.past (.wrote x.store w))
    (h : ∀ s, w.perform x.store = .ok s → Q () (x.wrote w s)) :
    Sound mode agents (write w) Q x := by
  rintro y rfl s hok -
  exact ⟨⟨⟨_, rfl, hw⟩, keepsRows_of_warranted hw hok⟩, h s hok⟩

end Rules

/-! ## The survey -/

variable {reachable : List ReachableAgent} {listings : List ((AgentId × ObjectId) × ℕ)}
  {completeScans : List (AgentId × ObjectKind)}

omit [Sealing] in
/-- The agent answered, and is in the incarnation it reported. -/
structure Known (agents : List AgentTarget) (x : Scene O) (agent : ReachableAgent) : Prop where
  configured : agent.target ∈ agents
  reported : Reported x.past agent.target agent.incarnationId
  owns : Owns x.store.database agent.target agent.incarnationId

omit [Sealing] in
theorem Known.later {agent : ReachableAgent} (h : Known agents x agent) (hpast : x.past <+: y.past)
    (hsame : y.store.database.incarnations = x.store.database.incarnations) :
    Known agents y agent := by
  refine ⟨h.configured, h.reported.later hpast, ?_⟩
  unfold Owns
  rw [hsame]
  exact h.owns

/-- The agents contacted so far. -/
structure Contacted (agents rest : List AgentTarget) (contacts : Contacts) (x : Scene O) : Prop where
  oneActive : OneActive x.store.database.incarnations
  known : ∀ agent ∈ contacts.reachable, Known agents x agent
  order : (contacts.reachable.map (·.target) ++ rest).Sublist agents

omit [Sealing] in
theorem Contacted.ne {rest : List AgentTarget} {contacts : Contacts}
    (h : Contacted agents (agent :: rest) contacts x) (hids : (agents.map (·.id)).Nodup) :
    ∀ other ∈ contacts.reachable, other.target.id ≠ agent.id := by
  intro other hother hsame
  have hnodup := (h.order.map (·.id)).nodup hids
  rw [List.map_append, List.map_cons] at hnodup
  refine List.disjoint_of_nodup_append hnodup ?_ List.mem_cons_self
  exact hsame ▸ List.mem_map_of_mem (List.mem_map_of_mem hother)

theorem contact_sound {rest : List AgentTarget} {contacts : Contacts}
    (hids : (agents.map (·.id)).Nodup) (hx : Contacted agents (agent :: rest) contacts x) :
    Sound mode agents (contact contacts agent) (Contacted agents rest) x := by
  have hskip (answer : Health) (e : O.State) : Contacted agents rest
      { contacts with
        issues := contacts.issues ++ [.unreachable agent.id]
        summaries := contacts.summaries ++ [⟨agent.id, agent.failureDomain, false, none, none,
          0, 0, 0, 0, 0, 0⟩] } (x.asked (.health agent) answer e) :=
    ⟨hx.oneActive, fun other hother => (hx.known other hother).later (List.prefix_append _ _) rfl,
      ((List.sublist_cons_self agent rest).append_left _).trans hx.order⟩
  refine sound_bind.2 (sound_query fun answer e _ => ⟨trivial, ?_⟩)
  cases answer with
  | unreachable => exact hskip .unreachable e
  | malformed => exact hskip .malformed e
  | reports id domain incarnation free =>
    dsimp only
    split
    · trivial
    · next hsame =>
      simp only [ne_eq, not_or, not_not] at hsame
      obtain ⟨rfl, rfl⟩ := hsame
      have hagent : agent ∈ agents :=
        hx.order.subset (List.mem_append_right _ List.mem_cons_self)
      have hreported : Reported (x.asked (.health agent) (Health.reports agent.id agent.failureDomain
          incarnation free) e).past agent incarnation :=
        ⟨free, answered_asked x (.health agent) _ e⟩
      refine sound_bind.2 (sound_reading (sound_bind.2 (sound_write ⟨hagent, hreported⟩ ?_)))
      intro s hok
      obtain ⟨db, hperform, hdb⟩ := bind_eq_ok.1 hok
      cases hdb
      have hpast : x.past <+: ((x.asked (.health agent) (Health.reports agent.id agent.failureDomain
          incarnation free) e).wrote (.portal (.observeAgentIncarnation agent incarnation))
            { x.store with database := db }).past :=
        (List.prefix_append _ _).trans (List.prefix_append _ _)
      refine ⟨?_, fun other hother => ?_, ?_⟩
      · exact (Write.incarnationStep (w := .observeAgentIncarnation agent incarnation) hperform
          hx.oneActive).oneActive hx.oneActive
      · rcases List.mem_append.1 hother with hother | hother
        · obtain ⟨hmem, hbefore, howns⟩ := hx.known other hother
          exact ⟨hmem, hbefore.later hpast,
            howns.observed hx.oneActive (hx.ne hids other hother) hperform⟩
        · obtain rfl := List.mem_singleton.1 hother
          exact ⟨hagent, hreported.later (List.prefix_append _ _), owns_observed hperform⟩
      · rw [List.map_append, List.append_assoc]
        exact hx.order

/-- The listings are what the agents said, and a complete scan is all of a listing. -/
structure Inventoried (reachable : List ReachableAgent) (listings : List ((AgentId × ObjectId) × ℕ))
    (completeScans : List (AgentId × ObjectKind)) (x : Scene O) : Prop where
  said : ∀ entry ∈ listings, ∃ agent ∈ reachable, agent.target.id = entry.1.1 ∧
    ∃ listing, Listed x.past agent.target entry.1.2.kind listing ∧
      (entry.1.2.hash, entry.2) ∈ listing
  complete : ∀ scan ∈ completeScans, ∃ agent ∈ reachable, agent.target.id = scan.1 ∧
    ∃ listing, Listed x.past agent.target scan.2 listing ∧
      ∀ entry ∈ listing, ((scan.1, ⟨scan.2, entry.1⟩), entry.2) ∈ listings
  nodup : completeScans.Nodup

omit [Sealing] in
theorem Inventoried.later (h : Inventoried reachable listings completeScans x)
    (hpast : x.past <+: y.past) : Inventoried reachable listings completeScans y where
  said entry hentry := by
    obtain ⟨agent, hagent, hid, listing, hlisted, hmem⟩ := h.said entry hentry
    exact ⟨agent, hagent, hid, listing, hlisted.later hpast, hmem⟩
  complete scan hscan := by
    obtain ⟨agent, hagent, hid, listing, hlisted, hmem⟩ := h.complete scan hscan
    exact ⟨agent, hagent, hid, listing, hlisted.later hpast, hmem⟩
  nodup := h.nodup

omit [Sealing] in
/-- One more listing. -/
theorem Inventoried.listed {agent : ReachableAgent} {kind : ObjectKind}
    {objects : List (ObjectHash × ℕ)} (h : Inventoried reachable listings completeScans x)
    (hagent : agent ∈ reachable) (hlisted : Listed x.past agent.target kind objects) :
    Inventoried reachable ((objects.map fun entry =>
      ((agent.target.id, ⟨kind, entry.1⟩), entry.2)).reverse ++ listings)
      (completeScans.insert (agent.target.id, kind)) x where
  said entry hentry := by
    rcases List.mem_append.1 hentry with hnew | hold
    · obtain ⟨own, hown, rfl⟩ := List.mem_map.1 (List.mem_reverse.1 hnew)
      exact ⟨agent, hagent, rfl, objects, hlisted, hown⟩
    · exact h.said entry hold
  complete scan hscan := by
    rcases List.mem_insert_iff.1 hscan with rfl | hold
    · refine ⟨agent, hagent, rfl, objects, hlisted, fun entry hentry => ?_⟩
      exact List.mem_append_left _ (List.mem_reverse.2 (List.mem_map.2 ⟨entry, hentry, rfl⟩))
    · obtain ⟨other, hother, hid, listing, hall, hmem⟩ := h.complete scan hold
      exact ⟨other, hother, hid, listing, hall, fun entry hentry =>
        List.mem_append_right _ (hmem entry hentry)⟩
  nodup := h.nodup.insert

/-- What is known while the agents list what they hold. -/
structure Listing (agents : List AgentTarget) (reachable : List ReachableAgent) (seen : Inventories)
    (x : Scene O) : Prop where
  known : ∀ agent ∈ reachable, Known agents x agent
  inventoried : Inventoried reachable seen.listings seen.completeScans x

omit [Sealing] in
theorem Listing.later {seen : Inventories} (h : Listing agents reachable seen x)
    (hpast : x.past <+: y.past)
    (hsame : y.store.database.incarnations = x.store.database.incarnations) :
    Listing agents reachable seen y :=
  ⟨fun agent hagent => (h.known agent hagent).later hpast hsame, h.inventoried.later hpast⟩

theorem observe_sound {seen : Inventories} {agent : ReachableAgent} (hagent : agent ∈ reachable)
    (kind : ObjectKind) (hx : Listing agents reachable seen x) :
    Sound mode agents (observe agent seen kind) (Listing agents reachable) x := by
  refine sound_bind.2 (sound_query fun answer e _ => ⟨trivial, ?_⟩)
  cases answer with
  | none =>
    have hasked := hx.later (y := x.asked (.inventory agent.target kind) none e)
      (List.prefix_append _ _) rfl
    exact sound_pure ⟨hasked.known, hasked.inventoried⟩
  | some objects =>
    refine sound_bind.2 (sound_query fun time e' _ => ⟨trivial, ?_⟩)
    have hlisted : Listed (x.asked (.inventory agent.target kind) (some objects) e).past agent.target
        kind objects := answered_asked x (.inventory agent.target kind) _ e
    have hasked := hx.later (y := (x.asked (.inventory agent.target kind) (some objects) e).asked
      .now time e') ((List.prefix_append _ _).trans (List.prefix_append _ _)) rfl
    have hnow := hlisted.later (List.prefix_append _ [.asked x.store .now time])
    obtain ⟨hmem, hreported, -⟩ := hasked.known agent hagent
    refine sound_bind.2 (sound_write ⟨agent.target, hmem, rfl, hreported, objects, hnow, rfl⟩ ?_)
    intro s hok
    cases hok
    refine sound_pure ⟨fun other hother => (hasked.known other hother).later
      (List.prefix_append _ _) rfl, ?_⟩
    exact (hasked.inventoried.listed hagent hnow).later (List.prefix_append _ _)

omit [Sealing] in
/-- As many scans as there are agents and kinds are the scans of all of them. -/
theorem Inventoried.all (h : Inventoried reachable listings completeScans x)
    (hids : (reachable.map (·.target.id)).Nodup)
    (hlength : completeScans.length = reachable.length * allKinds.length) :
    ∀ agent ∈ reachable, ∀ kind, ∃ listing, Listed x.past agent.target kind listing := by
  have hkinds : ∀ kind, kind ∈ allKinds := fun kind => by cases kind <;> decide
  have hsub : completeScans ⊆ reachable.map (·.target.id) ×ˢ allKinds := by
    intro scan hscan
    obtain ⟨agent, hagent, hid, -⟩ := h.complete scan hscan
    exact List.mem_product.2 ⟨hid ▸ List.mem_map_of_mem hagent, hkinds scan.2⟩
  have hperm := (h.nodup.subperm hsub).perm_of_length_le (by
    rw [List.length_product, List.length_map, hlength])
  intro agent hagent kind
  have hscan : (agent.target.id, kind) ∈ completeScans :=
    hperm.mem_iff.2 (List.mem_product.2 ⟨List.mem_map_of_mem hagent, hkinds kind⟩)
  obtain ⟨other, hother, hid, listing, hlisted, -⟩ := h.complete _ hscan
  obtain rfl := List.inj_on_of_nodup_map hids hother hagent hid
  exact ⟨listing, hlisted⟩

/-- What the rest of the job goes by. -/
structure Surveyed (survey : Survey) (x : Scene O) : Prop where
  known : ∀ agent ∈ survey.reachable, Known survey.agents x agent
  ids : (survey.reachable.map (·.target.id)).Nodup
  inventoried : Inventoried survey.reachable survey.listings survey.completeScans x
  observed : survey.completeObservation = true → Observed x.past survey.agents

omit [Sealing] in
theorem Surveyed.later {survey : Survey} (h : Surveyed survey x) (hpast : x.past <+: y.past)
    (hsame : y.store.database.incarnations = x.store.database.incarnations) : Surveyed survey y :=
  ⟨fun agent hagent => (h.known agent hagent).later hpast hsame, h.ids, h.inventoried.later hpast,
    fun hcomplete => (h.observed hcomplete).later hpast⟩

omit [Sealing] in
theorem surveyed_of_listing {seen : Inventories} (hids : (agents.map (·.id)).Nodup)
    (horder : (reachable.map (·.target)).Sublist agents) (h : Listing agents reachable seen x) :
    Surveyed ⟨agents, reachable, seen.listings, seen.completeScans⟩ x := by
  have hnodup : (reachable.map (·.target.id)).Nodup := by
    have hsub := (horder.map (·.id)).nodup hids
    rwa [List.map_map] at hsub
  refine ⟨h.known, hnodup, h.inventoried, fun hcomplete agent hagent => ?_⟩
  obtain ⟨hall, hscans⟩ := of_decide_eq_true hcomplete
  have heq : reachable.map (·.target) = agents :=
    horder.eq_of_length (by rw [List.length_map, hall])
  obtain ⟨own, hown, rfl⟩ := List.mem_map.1 (heq.symm ▸ hagent)
  exact ⟨⟨_, (h.known own hown).reported⟩, h.inventoried.all hnodup hscans own hown⟩

theorem survey_sound (hids : (agents.map (·.id)).Nodup)
    (hone : OneActive x.store.database.incarnations) :
    Sound mode agents (survey agents) (fun found y =>
      Surveyed ⟨agents, found.1.reachable, found.2.listings, found.2.completeScans⟩ y) x := by
  have hstart : Contacted agents agents ⟨[], [], []⟩ x :=
    ⟨hone, fun _ h => absurd h List.not_mem_nil, List.Sublist.refl _⟩
  refine sound_bind.2 (Sound.mono (safe_foldlM_rest
    (J := fun rest contacts => Contacted agents rest contacts)
    (fun agent rest contacts y hy => contact_sound hids hy) hstart) fun contacts y hy => ?_)
  have horder : (contacts.reachable.map (·.target)).Sublist agents := by
    have horder := hy.order
    rwa [List.append_nil] at horder
  refine sound_bind.2 (Sound.mono (safe_foldlM (J := Listing agents contacts.reachable)
    (fun agent hagent seen z hz => safe_foldlM (fun kind _ seen z hz =>
      observe_sound hagent kind hz) hz) ⟨hy.known, ?_⟩) fun seen z hz => ?_)
  · exact ⟨fun _ h => absurd h List.not_mem_nil, fun _ h => absurd h List.not_mem_nil,
      List.nodup_nil⟩
  · exact sound_pure (surveyed_of_listing hids horder hz)

/-! ## Copies -/

/-- The agent returned the object in this job, and its placement is confirmed in the incarnation the
agent reported. -/
structure Backed (agents : List AgentTarget) (object : ObjectId) (x : Scene O)
    (agent : ReachableAgent) : Prop extends Known agents x agent where
  read : ReadBack x.past agent.target object
  placed : ∃ row ∈ x.store.database.placements, row.object = object ∧
    row.agentId = agent.target.id
  confirmed : ∀ row ∈ x.store.database.placements, row.object = object →
    row.agentId = agent.target.id → row.incarnationId = some agent.incarnationId ∧
      row.state = .confirmed

theorem Backed.later {agent : ReachableAgent} (h : Backed agents object x agent)
    (hpast : x.past <+: y.past)
    (hsame : y.store.database.incarnations = x.store.database.incarnations)
    (hrows : ∀ row, row.object = object → row.agentId = agent.target.id →
      (row ∈ y.store.database.placements ↔ row ∈ x.store.database.placements)) :
    Backed agents object y agent := by
  obtain ⟨row, hrow, hobject, hid⟩ := h.placed
  exact ⟨h.toKnown.later hpast hsame, h.read.later hpast,
    ⟨row, (hrows row hobject hid).2 hrow, hobject, hid⟩,
    fun own hown hobject hid => h.confirmed own ((hrows own hobject hid).1 hown) hobject hid⟩

omit [Sealing] in
/-- Only placements of the object changed. -/
structure Touched (object : ObjectId) (x y : Scene O) : Prop where
  past : x.past <+: y.past
  database : ∃ rows, y.store.database = { x.store.database with placements := rows }
  others : ∀ row, row.object ≠ object →
    (row ∈ y.store.database.placements ↔ row ∈ x.store.database.placements)

omit [Sealing] in
theorem Touched.refl (object : ObjectId) (x : Scene O) : Touched object x x :=
  ⟨List.prefix_rfl, ⟨_, rfl⟩, fun _ _ => Iff.rfl⟩

omit [Sealing] in
theorem Touched.trans (h : Touched object x y) (h' : Touched object y z) : Touched object x z := by
  obtain ⟨rows, hrows⟩ := h.database
  obtain ⟨rows', hrows'⟩ := h'.database
  exact ⟨h.past.trans h'.past, ⟨rows', by rw [hrows', hrows]⟩,
    fun row hrow => (h'.others row hrow).trans (h.others row hrow)⟩

omit [Sealing] in
theorem Touched.incarnations (h : Touched object x y) :
    y.store.database.incarnations = x.store.database.incarnations := by
  obtain ⟨rows, hrows⟩ := h.database
  rw [hrows]

omit [Sealing] in
theorem touched_asked (object : ObjectId) (x : Scene O) (q : Query) (answer : q.Answer) (e : O.State) :
    Touched object x (x.asked q answer e) :=
  ⟨List.prefix_append _ _, ⟨_, rfl⟩, fun _ _ => Iff.rfl⟩

/-- The write of a verification. -/
abbrev record (object : ObjectId) (agent : ReachableAgent) (state : PlacementState) : ScrubWrite :=
  .portal (.setPlacementVerification object agent.target agent.incarnationId state)

omit [Sealing] in
theorem record_spec {agent : ReachableAgent} {state : PlacementState} {s s' : Store}
    (hok : (record object agent state).perform s = .ok s') :
    Recorded object agent.target.id agent.incarnationId state s.database s'.database := by
  obtain ⟨db, hperform, hdb⟩ := bind_eq_ok.1 hok
  cases hdb
  exact recorded_of_ok hperform

omit [Sealing] in
theorem touched_record {agent : ReachableAgent} {state : PlacementState} {s : Store}
    (hok : (record object agent state).perform x.store = .ok s) :
    Touched object x (x.wrote (record object agent state) s) :=
  ⟨List.prefix_append _ _, ⟨_, (record_spec hok).placements⟩,
    fun row hrow => (record_spec hok).others row fun h => hrow h.1⟩

variable {survey : Survey} {valid : List (AgentId × Domain)}

/-- The copies that count are those of agents that returned the object, each of them once. -/
structure Vouched (survey : Survey) (object : ObjectId) (valid : List (AgentId × Domain))
    (x : Scene O) : Prop where
  copies : ∀ copy ∈ valid, ∃ agent ∈ survey.reachable,
    (agent.target.id, agent.target.failureDomain) = copy ∧ Backed survey.agents object x agent
  ids : (valid.map Prod.fst).Nodup

theorem vouched_nil : Vouched survey object [] x :=
  ⟨fun _ h => absurd h List.not_mem_nil, List.nodup_nil⟩

theorem Vouched.asked (h : Vouched survey object valid x) (q : Query) (answer : q.Answer)
    (e : O.State) : Vouched survey object valid (x.asked q answer e) := by
  refine ⟨fun copy hcopy => ?_, h.ids⟩
  obtain ⟨agent, hagent, heq, hbacked⟩ := h.copies copy hcopy
  exact ⟨agent, hagent, heq, hbacked.later (List.prefix_append _ _) rfl fun _ _ _ => Iff.rfl⟩

/-- A placement on an agent that does not count is recorded. -/
theorem Vouched.record {agent : ReachableAgent} {state : PlacementState} {s : Store}
    (h : Vouched survey object valid x) (hfresh : ∀ copy ∈ valid, copy.1 ≠ agent.target.id)
    (hok : (record object agent state).perform x.store = .ok s) :
    Vouched survey object valid (x.wrote (record object agent state) s) := by
  refine ⟨fun copy hcopy => ?_, h.ids⟩
  obtain ⟨own, hown, rfl, hbacked⟩ := h.copies copy hcopy
  refine ⟨own, hown, rfl, hbacked.later (List.prefix_append _ _) (touched_record hok).incarnations
    fun row _ hid => (record_spec hok).others row fun hplace => ?_⟩
  exact hfresh _ hcopy (hid.symm.trans hplace.2)

/-- A copy that was read back is recorded and counts. -/
theorem Vouched.insert {agent : ReachableAgent} {s : Store} (h : Vouched survey object valid x)
    (hfresh : ∀ copy ∈ valid, copy.1 ≠ agent.target.id) (hagent : agent ∈ survey.reachable)
    (hknown : Known survey.agents x agent) (hread : ReadBack x.past agent.target object)
    (hok : (Scrub.record object agent .confirmed).perform x.store = .ok s) :
    Vouched survey object (Drain.insertCopy valid agent.target)
      (x.wrote (Scrub.record object agent .confirmed) s) := by
  have hrest := h.record hfresh hok
  refine ⟨fun copy hcopy => ?_, ?_⟩
  · rcases List.mem_cons.1 hcopy with rfl | hcopy
    · have hrecorded := record_spec hok
      obtain ⟨row, hrow, hobject, hid⟩ := hrecorded.exists_row
      refine ⟨agent, hagent, rfl, hknown.later (List.prefix_append _ _)
        (touched_record hok).incarnations, hread.later (List.prefix_append _ _),
        ⟨row, hrow, hobject, hid⟩, hrecorded.row⟩
    · exact hrest.copies copy (List.mem_filter.1 hcopy).1
  · rw [Drain.insertCopy, List.map_cons, List.nodup_cons]
    refine ⟨fun hmem => ?_, h.ids.sublist (List.filter_sublist.map Prod.fst)⟩
    obtain ⟨copy, hcopy, hsame⟩ := List.mem_map.1 hmem
    simpa [hsame] using (List.mem_filter.1 hcopy).2

/-! ## Verification -/

omit [Sealing] in
/-- The bytes of an answer. -/
def bodyBytes : Fetched → Option Bytes
  | .body bytes => some bytes
  | _ => none

omit [Sealing] in
theorem eq_body {answer : Fetched} {bytes : Bytes} (h : bodyBytes answer = some bytes) :
    answer = .body bytes := by
  cases answer with
  | body got => exact congrArg Fetched.body (Option.some.inj h)
  | _ => cases h

theorem fetchBytes_sound {Q : Option Bytes → Scene O → Prop}
    (h : ∀ (answer : Fetched) e, O.answers x.outside (.get agent object) answer e →
      Q (bodyBytes answer) (x.asked (.get agent object) answer e)) :
    Sound mode agents (fetchBytes agent object) Q x := by
  refine sound_bind.2 (sound_query fun answer e hanswers => ⟨trivial, ?_⟩)
  have hQ := h answer e hanswers
  cases answer <;> exact sound_pure hQ

/-- What is known while the copies of an object are read. -/
structure Verifying (survey : Survey) (required : RequiredObject) (start : Scene O)
    (rest : List ReachableAgent) (verification : Verification) (x : Scene O) : Prop where
  surveyed : Surveyed survey x
  touched : Touched required.object start x
  vouched : Vouched survey required.object verification.valid x
  todo : rest.Sublist survey.reachable
  fresh : ∀ agent ∈ rest, ∀ copy ∈ verification.valid, copy.1 ≠ agent.target.id
  source : ∀ bytes ∈ verification.sourceBytes, Sealing.digest bytes = required.object.hash

variable {required : RequiredObject} {rest : List ReachableAgent} {verification : Verification}
  {start : Scene O} {reached : ReachableAgent}

theorem Verifying.asked (h : Verifying survey required start rest verification x) (q : Query)
    (answer : q.Answer) (e : O.State) :
    Verifying survey required start rest verification (x.asked q answer e) :=
  ⟨h.surveyed.later (List.prefix_append _ _) rfl, h.touched.trans (touched_asked _ x q answer e),
    h.vouched.asked q answer e, h.todo, h.fresh, h.source⟩

/-- The next agent is done. -/
theorem Verifying.tail (h : Verifying survey required start (reached :: rest) verification x)
    {valid : List (AgentId × Domain)} {touched : List AgentId} {corrupt missing unverified : ℕ}
    (hvalid : valid = verification.valid) :
    Verifying survey required start rest
      ⟨valid, touched, corrupt, missing, unverified, verification.sourceBytes⟩ x :=
  ⟨h.surveyed, h.touched, hvalid ▸ h.vouched, (List.sublist_cons_self _ _).trans h.todo,
    fun agent hagent => hvalid ▸ h.fresh agent (List.mem_cons_of_mem _ hagent), h.source⟩

/-- The next agent's placement is recorded. -/
theorem Verifying.recorded {state : PlacementState} {s : Store}
    (h : Verifying survey required start (reached :: rest) verification x)
    (hok : (record required.object reached state).perform x.store = .ok s) :
    Verifying survey required start (reached :: rest) verification
      (x.wrote (record required.object reached state) s) :=
  ⟨h.surveyed.later (List.prefix_append _ _) (touched_record hok).incarnations,
    h.touched.trans (touched_record hok), h.vouched.record (h.fresh reached List.mem_cons_self) hok,
    h.todo, h.fresh, h.source⟩

theorem Verifying.known (h : Verifying survey required start (reached :: rest) verification x) :
    reached ∈ survey.reachable ∧ Known survey.agents x reached :=
  ⟨h.todo.subset List.mem_cons_self, h.surveyed.known reached (h.todo.subset List.mem_cons_self)⟩

/-- The next agent's copy was read back. -/
theorem Verifying.inserted {s : Store} {bytes : Option Bytes} {touched : List AgentId}
    (h : Verifying survey required start (reached :: rest) verification x)
    (hread : ReadBack x.past reached.target required.object)
    (hbytes : ∀ got ∈ bytes, Sealing.digest got = required.object.hash)
    (hok : (record required.object reached .confirmed).perform x.store = .ok s) :
    Verifying survey required start rest { verification with
      valid := Drain.insertCopy verification.valid reached.target
      touched := touched
      sourceBytes := verification.sourceBytes.or bytes }
      (x.wrote (record required.object reached .confirmed) s) := by
  have hrecorded := h.recorded hok
  obtain ⟨hmem, hknown⟩ := h.known
  refine ⟨hrecorded.surveyed, hrecorded.touched,
    h.vouched.insert (h.fresh reached List.mem_cons_self) hmem hknown hread hok,
    (List.sublist_cons_self _ _).trans h.todo, fun agent hagent copy hcopy => ?_, fun got hgot => ?_⟩
  · rcases List.mem_cons.1 hcopy with rfl | hcopy
    · have hnodup := (h.todo.map (·.target.id)).nodup h.surveyed.ids
      rw [List.map_cons, List.nodup_cons] at hnodup
      exact fun hsame => hnodup.1 (List.mem_map.2 ⟨agent, hagent, hsame.symm⟩)
    · exact h.fresh agent (List.mem_cons_of_mem _ hagent) copy (List.mem_filter.1 hcopy).1
  · rcases Option.or_eq_some_iff.1 hgot with hgot | ⟨-, hgot⟩
    · exact h.source got hgot
    · exact hbytes got hgot

theorem verifyListed_sound {size : ℕ} {summaries : List AgentScrubSummary}
    (hlisted : survey.listings.lookup (reached.target.id, required.object) = some size)
    (hx : Verifying survey required start (reached :: rest) verification x) :
    Sound mode survey.agents (verifyListed required reached size (verification, summaries))
      (fun state => Verifying survey required start rest state.1) x := by
  refine sound_bind.2 (fetchBytes_sound fun answer e _ => ?_)
  have hasked := hx.asked (.get reached.target required.object) answer e
  obtain ⟨hmem, hconfigured, hreported, -⟩ := hasked.known
  split
  · next hvalid =>
    obtain ⟨bytes, hbytes, hintact⟩ := (Option.any_eq_true _ _).1 hvalid
    have hdigest : Sealing.digest bytes = required.object.hash := by
      simp only [intact, Bool.and_eq_true, beq_iff_eq] at hintact
      exact hintact.1.1
    have hread : ReadBack (x.asked (.get reached.target required.object) answer e).past
        reached.target required.object :=
      ⟨bytes, eq_body hbytes ▸ answered_asked x (.get reached.target required.object) _ e,
        hdigest⟩
    refine sound_bind.2 (sound_write ⟨hconfigured, hreported, hread⟩ fun s hok => sound_pure ?_)
    refine hasked.inserted hread (fun got hgot => ?_) hok
    rw [hbytes] at hgot
    cases hgot
    exact hdigest
  · next hvalid =>
    have hcorrupt : FoundCorrupt (x.asked (.get reached.target required.object) answer e).past
        reached.target required.object := by
      obtain ⟨before, after, hsplit, -⟩ := List.lookup_eq_some_iff.1 hlisted
      obtain ⟨agent, hagent, hid, listing, hlisting, hentry⟩ := hasked.surveyed.inventoried.said
        ((reached.target.id, required.object), size) (by rw [hsplit]; simp)
      obtain rfl := List.inj_on_of_nodup_map hasked.surveyed.ids hagent hmem hid
      refine ⟨required, size, listing, answer, rfl, hlisting, hentry,
        answered_asked x (.get agent.target required.object) answer e, fun bytes hbody => ?_⟩
      subst hbody
      simpa [bodyBytes] using hvalid
    refine sound_bind.2 (sound_write ⟨hconfigured, hreported, hcorrupt⟩ fun s hok => ?_)
    exact sound_pure ((hasked.recorded hok).tail rfl)

theorem verifyAgent_sound {existing : List AgentId} {state : Verification × List AgentScrubSummary}
    (hx : Verifying survey required start (reached :: rest) state.1 x) :
    Sound mode survey.agents (verifyAgent survey required existing state reached)
      (fun state => Verifying survey required start rest state.1) x := by
  obtain ⟨hmem, hconfigured, hreported, -⟩ := hx.known
  unfold verifyAgent
  split
  · next size hlisted => exact verifyListed_sound hlisted hx
  · next hunlisted =>
    split
    · split
      · next hscanned =>
        have hmissing : FoundMissing x.past reached.target required.object := by
          obtain ⟨agent, hagent, hid, listing, hlisting, hall⟩ :=
            hx.surveyed.inventoried.complete _ (List.contains_iff_mem.1 hscanned)
          obtain rfl := List.inj_on_of_nodup_map hx.surveyed.ids hagent hmem hid
          refine ⟨listing, hlisting, fun entry hentry hhash => ?_⟩
          have hnot := List.lookup_eq_none_iff.1 hunlisted _ (hall entry hentry)
          simp [hhash] at hnot
        refine sound_bind.2 (sound_write ⟨hconfigured, hreported, hmissing⟩ fun s hok => ?_)
        exact sound_pure ((hx.recorded hok).tail rfl)
      · exact sound_pure (hx.tail rfl)
    · exact sound_pure (hx.tail rfl)

/-- The copies of an object are verified. -/
structure Verified (survey : Survey) (object : ObjectId) (start : Scene O)
    (verification : Verification) (x : Scene O) : Prop where
  surveyed : Surveyed survey x
  touched : Touched object start x
  vouched : Vouched survey object verification.valid x
  source : ∀ bytes ∈ verification.sourceBytes, Sealing.digest bytes = object.hash

omit [Sealing] in
theorem countUnreached_valid {existing : List AgentId} (all : List AgentTarget)
    (state : Verification × List AgentScrubSummary) :
    (all.foldl (countUnreached survey existing) state).1.valid = state.1.valid ∧
      (all.foldl (countUnreached survey existing) state).1.sourceBytes = state.1.sourceBytes := by
  induction all generalizing state with
  | nil => exact ⟨rfl, rfl⟩
  | cons agent all ih =>
    rw [List.foldl_cons]
    refine ⟨(ih _).1.trans ?_, (ih _).2.trans ?_⟩ <;>
    · unfold countUnreached
      split <;> rfl

theorem verifyObject_sound {summaries : List AgentScrubSummary} (hx : Surveyed survey x) :
    Sound mode survey.agents (verifyObject survey required summaries)
      (fun state => Verified survey required.object x state.1) x := by
  refine sound_bind.2 (sound_reading (sound_bind.2 ?_))
  have hstart : Verifying survey required x survey.reachable ⟨[], [], 0, 0, 0, none⟩ x :=
    ⟨hx, .refl _ x, vouched_nil, List.Sublist.refl _, fun _ _ _ h => absurd h List.not_mem_nil,
      fun _ h => by cases h⟩
  refine Sound.mono (safe_foldlM_rest
    (J := fun rest (state : Verification × List AgentScrubSummary) y =>
      Verifying survey required x rest state.1 y)
    (fun agent rest state y hy => verifyAgent_sound hy) hstart) fun state y hy => sound_pure ?_
  obtain ⟨hvalid, hsource⟩ := countUnreached_valid survey.agents state
  exact ⟨hy.surveyed, hy.touched, hvalid.symm ▸ hy.vouched, hsource.symm ▸ hy.source⟩

/-! ## Repair -/

theorem Verified.asked (h : Verified survey object start verification x) (q : Query)
    (answer : q.Answer) (e : O.State) :
    Verified survey object start verification (x.asked q answer e) :=
  ⟨h.surveyed.later (List.prefix_append _ _) rfl, h.touched.trans (touched_asked _ x q answer e),
    h.vouched.asked q answer e, h.source⟩

/-- A copy is made where none counted. -/
theorem Verified.inserted {s : Store} {touched : List AgentId}
    (h : Verified survey object start verification x) (hmem : reached ∈ survey.reachable)
    (hfresh : ∀ copy ∈ verification.valid, copy.1 ≠ reached.target.id)
    (hread : ReadBack x.past reached.target object)
    (hok : (record object reached .confirmed).perform x.store = .ok s) :
    Verified survey object start { verification with
      valid := Drain.insertCopy verification.valid reached.target
      touched := touched } (x.wrote (record object reached .confirmed) s) :=
  ⟨h.surveyed.later (List.prefix_append _ _) (touched_record hok).incarnations,
    h.touched.trans (touched_record hok),
    h.vouched.insert hfresh hmem (h.surveyed.known reached hmem) hread hok, h.source⟩

theorem repairAt_sound {bytes : Bytes} {source : AgentId} {state : Repairing}
    (hx : Verified survey object start state.verification x) (hmode : mode = .repair)
    (hcomplete : survey.completeObservation = true) (hbytes : Sealing.digest bytes = object.hash)
    (hmem : reached ∈ survey.reachable)
    (hfresh : ∀ copy ∈ state.verification.valid, copy.1 ≠ reached.target.id) :
    Sound mode survey.agents (repairAt object bytes source reached state)
      (fun state => Verified survey object start state.verification) x := by
  obtain ⟨hconfigured, hreported, -⟩ := hx.surveyed.known reached hmem
  refine sound_bind.2 (sound_query fun answer e _ =>
    ⟨⟨hmode, hconfigured, hbytes, hx.surveyed.observed hcomplete⟩, ?_⟩)
  have hasked := hx.asked (.put reached.target object bytes) answer e
  cases answer with
  | failed error => exact sound_pure hasked
  | rejected => exact sound_pure hasked
  | stored =>
    refine sound_bind.2 (fetchBytes_sound fun answer e' _ => ?_)
    have hread := hasked.asked (.get reached.target object) answer e'
    split
    · next hvalid =>
      obtain ⟨got, hgot, hdigest⟩ := (Option.any_eq_true _ _).1 hvalid
      have hback := answered_asked (x.asked (.put reached.target object bytes) Stored.stored e)
        (.get reached.target object) answer e'
      obtain rfl := eq_body hgot
      refine sound_bind.2 (sound_write ⟨hconfigured, ?_, got, hback, eq_of_beq hdigest⟩
        fun s hok => sound_pure ?_)
      · exact (hreported.later (List.prefix_append _ _)).later (List.prefix_append _ _)
      · exact hread.inserted hmem hfresh ⟨got, hback, eq_of_beq hdigest⟩ hok
    · exact sound_pure hread

theorem repairObject_sound {bytes : Bytes} {state : Repairing}
    (hx : Verified survey object start state.verification x) (hmode : mode = .repair)
    (hcomplete : survey.completeObservation = true) (hbytes : Sealing.digest bytes = object.hash) :
    Sound mode survey.agents (repairObject survey object bytes state)
      (fun state => Verified survey object start state.verification) x := by
  refine sound_bind.2 (safe_require fun source _ => sound_bind.2 (sound_reading ?_))
  refine safe_foldlM (J := fun (state : Repairing) => Verified survey object start state.verification)
    (fun agent hagent state y hy => ?_) hx
  unfold repairAgent
  split
  · exact hy
  · next hnot =>
    split
    · refine repairAt_sound hy hmode hcomplete hbytes hagent fun copy hcopy hsame => hnot ?_
      exact List.any_eq_true.2 ⟨copy, hcopy, beq_iff_eq.2 hsame⟩
    · exact hy

/-! ## Verdicts -/

omit [Sealing] in
/-- No configured agent's placement of the object is missing or corrupt. -/
def NoneDamaged (agents : List AgentTarget) (object : ObjectId) (db : Database) : Prop :=
  ∀ row ∈ db.placements, row.object = object → (∃ agent ∈ agents, agent.id = row.agentId) →
    row.state ≠ .missing ∧ row.state ≠ .corrupt

omit [Sealing] in
theorem noneDamaged_iff : ((db.placementStates object).any fun row =>
    agents.any (·.id == row.1) && damaged row) = false ↔ NoneDamaged agents object db := by
  simp only [NoneDamaged, placementStates, allPlacements, damaged, List.any_eq_false, List.mem_map,
    List.mem_insertionSort, List.mem_filter, beq_iff_eq, Bool.and_eq_true, Bool.or_eq_true,
    List.any_eq_true, not_and, not_or]
  constructor
  · intro h row hrow hobject hagent
    exact h _ ⟨row, ⟨hrow, hobject⟩, rfl⟩ hagent
  · rintro h _ ⟨row, ⟨hrow, hobject⟩, rfl⟩ hagent
    exact h row hrow hobject hagent

/-- What a health row of an object says is true. -/
structure Truthful (agents : List AgentTarget) (row : ObjectHealth) (x : Scene O) : Prop where
  copies : ∃ copies : List ReachableAgent, (copies.map (·.target.id)).Nodup ∧
    copies.length = row.verifiedCopies ∧
    (copies.map (·.target.failureDomain)).dedup.length = row.verifiedDomains ∧
    ∀ agent ∈ copies, Backed agents row.object x agent
  lost : row.state = .lost ↔ row.verifiedCopies = 0
  atRisk : row.state = .atRisk ↔
    row.verifiedCopies ≠ 0 ∧ row.verifiedDomains < minimumReplicas
  durable : row.state = .durable ↔ desiredReplicas ≤ row.verifiedCopies ∧
    minimumReplicas ≤ row.verifiedDomains ∧ NoneDamaged agents row.object x.store.database

/-- A job on another object leaves the verdict true. -/
theorem Truthful.touched {row : ObjectHealth} (h : Truthful agents row x) (htouched : Touched thing x y)
    (hne : row.object ≠ thing) : Truthful agents row y := by
  obtain ⟨copies, hids, hcopies, hdomains, hbacked⟩ := h.copies
  refine ⟨⟨copies, hids, hcopies, hdomains, fun agent hagent => ?_⟩, h.lost, h.atRisk,
    h.durable.trans (and_congr_right fun _ => and_congr_right fun _ => ?_)⟩
  · exact (hbacked agent hagent).later htouched.past htouched.incarnations fun own hobject _ =>
      htouched.others own (hobject ▸ hne)
  · unfold NoneDamaged
    refine forall_congr' fun own => ?_
    by_cases hobject : own.object = row.object
    · rw [htouched.others own (hobject ▸ hne)]
    · simp [hobject]

omit [Sealing] in
theorem classify_spec (agents : List AgentTarget) (object : ObjectId) (verification : Verification)
    (db : Database) :
    (classify agents object verification db = .lost ↔ verification.valid.length = 0) ∧
    (classify agents object verification db = .atRisk ↔
      verification.valid.length ≠ 0 ∧ verification.domains < minimumReplicas) ∧
    (classify agents object verification db = .durable ↔
      desiredReplicas ≤ verification.valid.length ∧ minimumReplicas ≤ verification.domains ∧
        NoneDamaged agents object db) := by
  rw [← noneDamaged_iff]
  unfold classify minimumReplicas desiredReplicas
  split_ifs <;> grind

/-- The verdict on copies that count. -/
theorem Vouched.truthful (h : Vouched survey object verification.valid x) (file : FileId)
    (generation : ℕ) : Truthful survey.agents ⟨object, file, generation, verification.valid.length,
      verification.domains, classify survey.agents object verification x.store.database⟩ x := by
  obtain ⟨copies, hcopies, hbacked⟩ := exists_map_eq (P := Backed survey.agents object x)
    (f := fun agent : ReachableAgent => (agent.target.id, agent.target.failureDomain))
    fun copy hcopy => (h.copies copy hcopy).imp fun _ hagent => hagent.2
  have hlength : copies.length = verification.valid.length := by rw [← hcopies, List.length_map]
  obtain ⟨hlost, hatRisk, hdurable⟩ :=
    classify_spec survey.agents object verification x.store.database
  refine ⟨⟨copies, ?_, hlength, ?_, hbacked⟩, hlost, hatRisk, hdurable⟩
  · have hids := h.ids
    rwa [← hcopies, List.map_map] at hids
  · rw [Verification.domains, ← hcopies, List.map_map]
    rfl

/-! ## The job -/

/-- Repair or not, the verdict is that on the copies that count. -/
theorem repairWhenObserved_sound {progress : Progress} {state : ObjectHealthState}
    (hx : Verified survey required.object start verification x)
    (hstate : state = classify survey.agents required.object verification x.store.database) :
    Sound mode survey.agents (repairWhenObserved survey mode required verification progress state)
      (fun result y => result.1.health = progress.health ∧
        Verified survey required.object start result.2.1 y ∧
        result.2.2 = classify survey.agents required.object result.2.1 y.store.database) x := by
  unfold repairWhenObserved
  split
  · next hwanted =>
    split
    · next hcomplete =>
      cases hsource : verification.sourceBytes with
      | none => exact sound_pure ⟨rfl, hx, hstate⟩
      | some bytes =>
        have hstart : Verified survey required.object start
            (Repairing.mk verification progress.repairs progress.issues 0 0).verification x := hx
        refine sound_bind.2 ((repairObject_sound hstart hwanted.2 hcomplete
          (hx.source bytes hsource)).mono fun done y hy => ?_)
        exact sound_bind.2 (sound_reading (sound_pure ⟨rfl, hy, rfl⟩))
    · exact sound_pure ⟨rfl, hx, hstate⟩
  · exact sound_pure ⟨rfl, hx, hstate⟩

/-- Only placements changed, and every verdict about an object that came up once is true. -/
structure Judging (survey : Survey) (all : List ObjectId) (tables : Tables) (rest : List RequiredObject)
    (progress : Progress) (x : Scene O) : Prop where
  surveyed : Surveyed survey x
  tables : x.store.database.toTables = tables
  order : progress.health.map (·.object) ++ rest.map (·.object) = all
  truthful : (progress.health.map (·.object)).Nodup →
    ∀ row ∈ progress.health, Truthful survey.agents row x

variable {all : List ObjectId} {tables : Tables} {todo : List RequiredObject} {progress : Progress}

/-- One more verdict. -/
theorem Judging.judged {before after : Progress} {row : ObjectHealth}
    (hx : Judging survey all tables (required :: todo) progress x)
    (hy : Verified survey required.object x verification y)
    (hbefore : before.health = progress.health) (hafter : after.health = before.health ++ [row])
    (hrow : row.object = required.object) (htruthful : Truthful survey.agents row y) :
    Judging survey all tables todo after y where
  surveyed := hy.surveyed
  tables := by
    obtain ⟨rows, hrows⟩ := hy.touched.database
    rw [hrows]
    exact hx.tables
  order := by
    rw [hafter, hbefore, List.map_append, List.append_assoc, List.map_cons, List.map_nil, hrow]
    exact hx.order
  truthful hnodup own hown := by
    rw [hafter, hbefore] at hnodup hown
    rw [List.map_append] at hnodup
    rcases List.mem_append.1 hown with hown | hown
    · refine (hx.truthful hnodup.of_append_left own hown).touched hy.touched fun hsame => ?_
      refine List.disjoint_of_nodup_append hnodup (List.mem_map_of_mem hown) ?_
      rw [hsame, ← hrow]
      exact List.mem_singleton_self _
    · obtain rfl := List.mem_singleton.1 hown
      exact htruthful

theorem scrubObject_sound (hx : Judging survey all tables (required :: todo) progress x) :
    Sound mode survey.agents (scrubObject survey mode progress required)
      (Judging survey all tables todo) x := by
  refine sound_bind.2 ((verifyObject_sound hx.surveyed).mono fun verified y hy => ?_)
  refine sound_bind.2 (sound_reading (sound_bind.2 ((repairWhenObserved_sound hy rfl).mono
    fun result z hz => ?_)))
  obtain ⟨hhealth, hverified, hstate⟩ := hz
  have hrow := hverified.vouched.truthful required.fileId required.generation
  rw [← hstate] at hrow
  dsimp only
  split
  · exact sound_pure (hx.judged hverified hhealth rfl rfl hrow)
  · exact sound_bind.2 (sound_reading (sound_pure (hx.judged hverified hhealth rfl rfl hrow)))

omit [Sealing] in
/-- The rows of a job are of different objects. -/
theorem foldlM_insertObjectHealth {health rows rows' : List ObjectHealth}
    (hok : health.foldlM insertObjectHealth rows = .ok rows') (hrows : (rows.map (·.object)).Nodup) :
    rows' = rows ++ health ∧ (rows'.map (·.object)).Nodup := by
  induction health generalizing rows with
  | nil =>
    cases hok
    exact ⟨(List.append_nil _).symm, hrows⟩
  | cons row health ih =>
    rw [List.foldlM_cons] at hok
    obtain ⟨next, hnext, hok⟩ := bind_eq_ok.1 hok
    obtain ⟨generation, -, hnext⟩ := bind_eq_ok.1 hnext
    obtain ⟨-, -, hnext⟩ := bind_eq_ok.1 hnext
    obtain ⟨-, -, hnext⟩ := bind_eq_ok.1 hnext
    split at hnext
    · cases hnext
    · next hnew =>
      cases hnext
      have hfresh : row.object ∉ rows.map (·.object) := by
        intro hmem
        obtain ⟨old, hold, hsame⟩ := List.mem_map.1 hmem
        exact hnew (.inr (List.any_eq_true.2 ⟨old, hold, beq_iff_eq.2 hsame⟩))
      obtain ⟨heq, hnodup⟩ := ih hok (by
        rw [List.map_append]
        exact hrows.append (List.nodup_singleton _) (by simpa using hfresh))
      exact ⟨by rw [heq, List.append_assoc, List.singleton_append], hnodup⟩

/-- What a finished job leaves: one true verdict about each object that the projection requires. -/
structure Scrubbed (agents : List AgentTarget) (report : ScrubReport) (x : Scene O) : Prop where
  required : ∃ required, x.store.database.requiredObjects = .ok required ∧
    x.store.objectHealth.map (·.object) = required.map (·.object)
  nodup : (x.store.objectHealth.map (·.object)).Nodup
  truthful : ∀ row ∈ x.store.objectHealth, Truthful agents row x
  health : report.health = objectHealthSummary x.store.objectHealth
  observed : report.completeObservation = true → Observed x.past agents

omit [Sealing] in
theorem requiredObjects_eq (h : db.toTables = db₁.toTables) :
    db.requiredObjects = db₁.requiredObjects := by
  cases db
  cases db₁
  cases h
  rfl

theorem scrubObjects_sound {seen : Inventories} {wanted : List RequiredObject}
    (hx : Surveyed survey x) : Sound mode survey.agents (scrubObjects survey mode seen wanted)
      (Judging survey (wanted.map (·.object)) x.store.database.toTables []) x := by
  refine safe_foldlM_rest (J := Judging survey (wanted.map (·.object)) x.store.database.toTables)
    (fun own rest progress y hy => scrubObject_sound hy) ?_
  exact ⟨hx, rfl, rfl, fun _ _ h => absurd h List.not_mem_nil⟩

/-- Writing the verdicts down changes nothing they are about. -/
theorem Truthful.replaced {row : ObjectHealth} {health : List ObjectHealth} {s : Store}
    (h : Truthful agents row x) (hsame : s.database = x.store.database) :
    Truthful agents row (x.wrote (.replaceObjectHealth health) s) := by
  obtain ⟨copies, hids, hcopies, hdomains, hbacked⟩ := h.copies
  refine ⟨⟨copies, hids, hcopies, hdomains, fun agent hagent => ?_⟩, h.lost, h.atRisk, ?_⟩
  · exact (hbacked agent hagent).later (List.prefix_append _ _)
      (congrArg (fun db : Database => db.incarnations) hsame) fun own _ _ => by
        rw [Scene.wrote_store, hsame]
  · rw [Scene.wrote_store, hsame]
    exact h.durable

theorem runJob_sound (hids : (agents.map (·.id)).Nodup)
    (hone : OneActive x.store.database.incarnations) :
    Sound mode agents (runJob mode agents) (Scrubbed agents) x := by
  refine sound_bind.2 ((survey_sound hids hone).mono fun found y hy => ?_)
  refine sound_bind.2 (sound_reading (sound_bind.2 (safe_require fun wanted hknown => ?_)))
  refine sound_bind.2 ((scrubObjects_sound hy).mono fun progress z hz => ?_)
  refine sound_bind.2 (sound_write trivial fun s hok => ?_)
  obtain ⟨rows, hrows, hs⟩ := bind_eq_ok.1 hok
  cases hs
  obtain ⟨rfl, hnodup⟩ := foldlM_insertObjectHealth hrows List.nodup_nil
  refine sound_bind.2 (sound_reading (sound_pure ?_))
  rw [List.nil_append] at hnodup ⊢
  refine ⟨⟨wanted, ?_, ?_⟩, hnodup, fun row hrow => ?_, rfl, fun hcomplete => ?_⟩
  · exact (requiredObjects_eq hz.tables).trans (toOption_eq_some.1 hknown)
  · have horder := hz.order
    rwa [List.map_nil, List.append_nil] at horder
  · exact (hz.truthful hnodup row hrow).replaced rfl
  · exact (hz.surveyed.observed hcomplete).later (List.prefix_append _ _)

/-! ## Every verdict and every step -/

omit [Sealing] in
theorem durable_of_exitCode {report : ScrubReport} (h : report.exitCode = 0)
    {rows : List ObjectHealth} (hhealth : report.health = objectHealthSummary rows) :
    report.completeObservation = true ∧ ∀ row ∈ rows, row.state = .durable := by
  unfold ScrubReport.exitCode at h
  dsimp only at h
  split at h
  · next hzero =>
    obtain ⟨hcomplete, hnone, -⟩ := hzero
    rw [hhealth] at hnone
    simp only [objectHealthSummary, Nat.add_eq_zero_iff, List.countP_eq_zero, beq_iff_eq] at hnone
    obtain ⟨⟨hdegraded, hatRisk⟩, hlost⟩ := hnone
    refine ⟨hcomplete, fun row hrow => ?_⟩
    cases hstate : row.state with
    | durable => rfl
    | degraded => exact absurd hstate (hdegraded row hrow)
    | atRisk => exact absurd hstate (hatRisk row hrow)
    | lost => exact absurd hstate (hlost row hrow)
  · cases h

omit [Sealing] in
theorem exitCode_of_durable {report : ScrubReport} {rows : List ObjectHealth}
    (hcomplete : report.completeObservation = true) (hissues : report.issues = [])
    (hhealth : report.health = objectHealthSummary rows)
    (hdurable : ∀ row ∈ rows, row.state = .durable) : report.exitCode = 0 := by
  have hnone : ∀ state, state ≠ .durable → rows.countP (·.state == state) = 0 := by
    intro state hne
    refine List.countP_eq_zero.2 fun row hrow hsame => hne ?_
    rw [← hdurable row hrow]
    exact (eq_of_beq hsame).symm
  unfold ScrubReport.exitCode
  refine if_pos ⟨hcomplete, ?_, hissues⟩
  simp [hhealth, objectHealthSummary, hnone]

/-- Enough copies of the object were read back in this job, and none is known to be damaged. -/
structure Durable (agents : List AgentTarget) (object : ObjectId) (x : Scene O) : Prop where
  copies : ∃ copies : List ReachableAgent, (copies.map (·.target.id)).Nodup ∧
    desiredReplicas ≤ copies.length ∧
    minimumReplicas ≤ (copies.map (·.target.failureDomain)).dedup.length ∧
    ∀ agent ∈ copies, Backed agents object x agent
  intact : NoneDamaged agents object x.store.database

theorem Truthful.isDurable {row : ObjectHealth} (h : Truthful agents row x)
    (hdurable : row.state = .durable) : Durable agents row.object x := by
  obtain ⟨copies, hids, hcopies, hdomains, hbacked⟩ := h.copies
  obtain ⟨hdesired, hminimum, hintact⟩ := h.durable.1 hdurable
  exact ⟨⟨copies, hids, hcopies ▸ hdesired, hdomains ▸ hminimum, hbacked⟩, hintact⟩

theorem scrubbed_of_steps {s : Store} {e : O.State} {report : ScrubReport}
    (hids : (agents.map (·.id)).Nodup) (hone : OneActive s.database.incarnations)
    (hrun : Steps (runJob mode agents) ⟨s, e, []⟩ (.done report) y) : Scrubbed agents report y :=
  ((runJob_sound hids hone).steps hrun (fun _ _ h => h) trivial (fun _ _ _ => id)
    (J := fun _ => True) trivial).2

/-- A finished scrub leaves one verdict about each required object, and every verdict is true: the
copies it counts were read back in this job and have confirmed placements in the incarnations the
agents reported.  When it exits with 0, every agent was observed and every required object is
durable. -/
theorem scrub_verdicts_are_true {s : Store} {e : O.State} {report : ScrubReport}
    (hids : (agents.map (·.id)).Nodup) (hone : OneActive s.database.incarnations)
    (hrun : Steps (runJob mode agents) ⟨s, e, []⟩ (.done report) y) :
    Scrubbed agents report y ∧ (report.exitCode = 0 → Observed y.past agents ∧
      ∃ wanted, y.store.database.requiredObjects = .ok wanted ∧
        ∀ own ∈ wanted, Durable agents own.object y) := by
  have hdone := scrubbed_of_steps hids hone hrun
  refine ⟨hdone, fun hzero => ?_⟩
  obtain ⟨hcomplete, hdurable⟩ := durable_of_exitCode hzero hdone.health
  obtain ⟨wanted, hwanted, hobjects⟩ := hdone.required
  refine ⟨hdone.observed hcomplete, wanted, hwanted, fun own hown => ?_⟩
  have hmem : own.object ∈ y.store.objectHealth.map (·.object) :=
    hobjects ▸ List.mem_map_of_mem hown
  obtain ⟨row, hrow, hsame⟩ := List.mem_map.1 hmem
  exact hsame ▸ (hdone.truthful row hrow).isDurable (hdurable row hrow)

/-- Every step so far was warranted by what came before it. -/
def AllWarranted (mode : JobMode) (agents : List AgentTarget) (past : List (Event scrubWorld)) :
    Prop :=
  ∀ before event later, past = before ++ event :: later → Warranted mode agents before event

theorem AllWarranted.append {event : Event scrubWorld} (h : AllWarranted mode agents past)
    (hevent : Warranted mode agents past event) : AllWarranted mode agents (past ++ [event]) := by
  intro before own later hsplit
  rcases List.eq_nil_or_concat later with rfl | ⟨init, last, rfl⟩
  · obtain ⟨rfl, hsame⟩ := List.append_inj' hsplit rfl
    exact List.singleton_inj.1 hsame ▸ hevent
  · rw [List.concat_eq_append, ← List.cons_append, ← List.append_assoc] at hsplit
    exact h before own init (List.append_inj' hsplit rfl).1

theorem steps_warranted {s : Store} {e : O.State} {p : Job ScrubReport}
    (hids : (agents.map (·.id)).Nodup) (hone : OneActive s.database.incarnations)
    (hrun : Steps (runJob mode agents) ⟨s, e, []⟩ p y) :
    AllWarranted mode agents y.past ∧ KeepsRows s.database y.store.database := by
  refine ((runJob_sound hids hone).steps hrun (fun _ _ h => h) trivial
    (J := fun z => AllWarranted mode agents z.past ∧ KeepsRows s.database z.store.database)
    (fun x z hstep hx => ?_) ⟨?_, fun row hrow => ⟨row, hrow, rfl, rfl⟩⟩).1
  · obtain ⟨⟨event, hpast, hevent⟩, hrows⟩ := hstep
    rw [hpast]
    exact ⟨hx.1.append hevent, hx.2.trans hrows⟩
  · intro before event later hsplit
    exact absurd hsplit.symm (List.append_ne_nil_of_right_ne_nil _ (List.cons_ne_nil _ _))

/-- A warranted write leaves the files, their history and the collection proofs alone. -/
theorem tables_of_warranted {s s' : Store} {w : ScrubWrite}
    (h : Warranted mode agents past (.wrote s w)) (hok : w.perform s = .ok s') :
    s'.database.toTables = s.database.toTables := by
  cases w with
  | portal w =>
    obtain ⟨db, hperform, hdb⟩ := bind_eq_ok.1 hok
    cases hdb
    cases w with
    | observeAgentIncarnation agent incarnation =>
      obtain ⟨incarnations, placements, rfl⟩ := observeAgentIncarnation_places hperform
      rfl
    | setPlacementVerification object agent incarnation state =>
      rw [(recorded_of_ok hperform).placements]
    | _ => exact h.elim
  | completeScan scan =>
    cases hok
    rfl
  | replaceObjectHealth health =>
    obtain ⟨rows, -, hrows⟩ := bind_eq_ok.1 hok
    cases hrows
    rfl

end

/-! ## An upload of which one copy is left -/

/-- The objects of one upload. -/
def stock : List ObjectId :=
  [⟨.chunk, namingOnly.digest [1, 2, 3]⟩, ⟨.manifest, namingOnly.digest [4, 5]⟩]

/-- The objects are left on the first of two agents. -/
def oneLeft : Fleet :=
  ⟨fun agent object => agent == 1 && stock.contains object, fun _ => true, fun agent => agent + 100⟩

/-- What an agent lists that holds some of the objects. -/
def listingOf (bodyOf : ObjectId → Bytes) (stock : List ObjectId) (fleet : Fleet) (agent : AgentId)
    (kind : ObjectKind) : List (ObjectHash × ℕ) :=
  (stock.filter fun object => object.kind == kind && fleet.holds agent object).map
    fun object => (object.hash, (bodyOf object).length)

/-- Agents list what they hold and do what they are asked. -/
def listing {Gives : Fleet → ∀ q : Query, q.Answer → Prop} :
    Responder (@scrubFleet namingOnly Gives) := fun fleet q =>
  match q with
  | .inventory agent kind => (some (listingOf Drain.uploadedBytes stock fleet agent.id kind), fleet)
  | q => @Fleet.reply namingOnly Drain.uploadedBytes (answersAt 2000) fleet q

/-- The agents may answer so, if any answers count. -/
theorem faithful_listing : (@listing fun _ _ _ => True).Faithful := by
  intro fleet q
  let _ := namingOnly
  cases q with
  | inventory agent kind => exact ⟨rfl, trivial⟩
  | _ => exact ⟨Fleet.answers_reply Drain.uploadedBytes (answersAt 2000) _, trivial⟩

/-- The upload is scrubbed. -/
def scrubOf (mode : JobMode) :
    Job ScrubReport × Scene (@scrubFleet namingOnly fun _ _ _ => True) :=
  letI := namingOnly
  advance listing 1000 (runJob mode twoAgents) ⟨⟨(uploadAt 1000 1000 .new).2, []⟩, oneLeft, []⟩

theorem steps_scrubOf (mode : JobMode) : Steps (@runJob namingOnly mode twoAgents)
    ⟨⟨(uploadAt 1000 1000 .new).2, []⟩, oneLeft, []⟩ (scrubOf mode).1 (scrubOf mode).2 :=
  let _ := namingOnly
  steps_advance faithful_listing 1000 _ _

theorem oneActive_upload : OneActive (uploadAt 1000 1000 .new).2.incarnations :=
  ⟨by decide +kernel, by decide +kernel⟩

/-- A repair exits with 0. -/
theorem exists_report : ∃ report, (scrubOf .repair).1 = .done report ∧ report.exitCode = 0 := by
  have hdone : ∃ report, (scrubOf .repair).1.result = some report ∧ report.exitCode = 0 := by
    decide +kernel
  exact hdone.imp fun _ h => ⟨eq_done h.1, h.2⟩

theorem scrub_verdicts_are_true_repaired : ∃ report, report.exitCode = 0 ∧
    @Scrubbed _ namingOnly twoAgents report (scrubOf .repair).2 ∧
      (scrubOf .repair).2.store.objectHealth.length = 2 := by
  let _ := namingOnly
  obtain ⟨report, hdone, hzero⟩ := exists_report
  have hrun := steps_scrubOf .repair
  rw [hdone] at hrun
  exact ⟨report, hzero, (scrub_verdicts_are_true (by decide) oneActive_upload hrun).1,
    by decide +kernel⟩

end Scrub

end Metadata

end DistrHnsw
