import DistrHnsw.Metadata.Scrubbing

/-!
# What scrubs find and repairs restore

Among agents that lose nothing while they are asked, the copies a scrub counts are there.  When the
agents also do what they are asked, a repair makes everything durable that is left in one copy.
-/

namespace DistrHnsw

namespace Metadata

namespace Scrub

open Program Database

section

variable [Sealing] {Gives : Fleet → ∀ q : Query, q.Answer → Prop} {agents : List AgentTarget}
  {object : ObjectId} {fleet fleet' fleet'' : Fleet} {mode : JobMode}

/-! ## Copies that are there -/

omit [Sealing] in
/-- Every copy that was held is held, and no agent has come or gone. -/
structure Grown (fleet fleet' : Fleet) : Prop where
  online : fleet'.online = fleet.online
  holds : ∀ agent object, fleet.holds agent object = true → fleet'.holds agent object = true

omit [Sealing] in
theorem Grown.refl (fleet : Fleet) : Grown fleet fleet := ⟨rfl, fun _ _ h => h⟩

omit [Sealing] in
theorem Grown.trans (h : Grown fleet fleet') (h' : Grown fleet' fleet'') : Grown fleet fleet'' :=
  ⟨h'.online.trans h.online, fun agent object hheld => h'.holds _ _ (h.holds agent object hheld)⟩

omit [Sealing] in
theorem grown_setHolds (fleet : Fleet) (agent : AgentId) (object : ObjectId) :
    Grown fleet (fleet.setHolds agent object true) := by
  refine ⟨rfl, fun other thing hheld => ?_⟩
  by_cases hthis : other = agent ∧ thing = object
  · obtain ⟨rfl, rfl⟩ := hthis
    exact Fleet.setHolds_self
  · rwa [Fleet.setHolds_of_ne hthis]

theorem grown_answers {q : Query} (hq : q.Keeps) {answer : q.Answer}
    (h : fleet.answers q answer fleet') : Grown fleet fleet' := by
  have hputs {agent : AgentTarget} {thing : ObjectId} {bytes : Bytes} {answer : Stored}
      (h : fleet.puts agent thing bytes fleet' answer) : Grown fleet fleet' := by
    cases answer with
    | stored => exact h.2.2 ▸ grown_setHolds fleet _ _
    | failed error =>
      rcases h with rfl | ⟨-, rfl⟩
      · exact .refl _
      · exact grown_setHolds fleet _ _
    | rejected =>
      rcases h with rfl | ⟨-, rfl⟩
      · exact .refl _
      · exact grown_setHolds fleet _ _
  cases q with
  | put agent object bytes => exact hputs h
  | health agent => exact h.1 ▸ .refl _
  | get agent object => exact h.1 ▸ .refl _
  | delete agent object proof => exact hq.elim
  | _ => exact (show fleet' = fleet from h) ▸ Grown.refl fleet

/-- A scrub asks for no deletion. -/
theorem keeps_of_warranted {past : List (Event scrubWorld)} {s : Store} {q : Query}
    {answer : q.Answer} (h : Warranted mode agents past (.asked s q answer)) : q.Keeps := by
  cases q with
  | delete agent object proof => exact h.elim
  | _ => trivial

/-- Every copy that was read back is there. -/
def AllThere (x : Scene (scrubFleet Gives)) : Prop :=
  ∀ agent object, ReadBack x.past agent object → x.outside.holds agent.id object = true

theorem allThere_of_steps {α : Type} {p p' : Job α} {s : Store} {y : Scene (scrubFleet Gives)}
    (hrun : Steps p ⟨s, fleet, []⟩ p' y) (hwarranted : AllWarranted mode agents y.past) :
    AllThere y := by
  have hevents : ∀ event ∈ y.past, ∃ past, Warranted mode agents past event := by
    intro event hevent
    obtain ⟨before, later, hsplit⟩ := List.append_of_mem hevent
    exact ⟨before, hwarranted before event later hsplit⟩
  refine hrun.keeps_events hevents (fun x w s' _ _ hx agent object hread => ?_)
    (fun x q answer fleet' hevent hanswers hx agent object hread => ?_)
    (fun agent object hread => ?_)
  · obtain ⟨bytes, ⟨s, hs⟩, hdigest⟩ := hread
    rcases List.mem_append.1 hs with hs | hs
    · exact hx agent object ⟨bytes, ⟨s, hs⟩, hdigest⟩
    · cases List.mem_singleton.1 hs
  · obtain ⟨past, hwarranted⟩ := hevent
    have hgrown := grown_answers (keeps_of_warranted hwarranted) hanswers.1
    obtain ⟨bytes, ⟨s, hs⟩, hdigest⟩ := hread
    rcases List.mem_append.1 hs with hs | hs
    · exact hgrown.holds _ _ (hx agent object ⟨bytes, ⟨s, hs⟩, hdigest⟩)
    · cases List.mem_singleton.1 hs
      exact hgrown.holds _ _ (hanswers.1.2 hdigest).2
  · obtain ⟨_, ⟨_, hs⟩, _⟩ := hread
    exact absurd hs List.not_mem_nil

omit [Sealing] in
/-- The configured agents that hold the object. -/
def holders (agents : List AgentTarget) (fleet : Fleet) (object : ObjectId) : List AgentTarget :=
  agents.filter fun agent => fleet.holds agent.id object

omit [Sealing] in
/-- In how many failure domains the object is held. -/
def heldDomains (agents : List AgentTarget) (fleet : Fleet) (object : ObjectId) : ℕ :=
  ((holders agents fleet object).map (·.failureDomain)).dedup.length

/-- Copies that were read back are at most as many as are held. -/
theorem AllThere.counted {x : Scene (scrubFleet Gives)} (h : AllThere x) {row : ObjectHealth}
    (hrow : Truthful agents row x) :
    row.verifiedCopies ≤ (holders agents x.outside row.object).length ∧
      row.verifiedDomains ≤ heldDomains agents x.outside row.object := by
  obtain ⟨copies, hids, hcopies, hdomains, hbacked⟩ := hrow.copies
  have hsub : copies.map (·.target) ⊆ holders agents x.outside row.object := by
    intro target htarget
    obtain ⟨agent, hagent, rfl⟩ := List.mem_map.1 htarget
    have hheld := hbacked agent hagent
    exact List.mem_filter.2 ⟨hheld.configured, h _ _ hheld.read⟩
  constructor
  · have hnodup : (copies.map (·.target)).Nodup := by
      refine List.Nodup.of_map (·.id) ?_
      rwa [List.map_map]
    rw [← hcopies, ← List.length_map (·.target)]
    exact (hnodup.subperm hsub).length_le
  · rw [← hdomains]
    refine ((List.nodup_dedup _).subperm fun domain hdomain => ?_).length_le
    rw [List.mem_dedup] at hdomain ⊢
    obtain ⟨agent, hagent, rfl⟩ := List.mem_map.1 hdomain
    exact List.mem_map.2 ⟨agent.target, hsub (List.mem_map_of_mem hagent), rfl⟩

/-- Among agents that lose nothing during the job, a scrub counts at most the copies that are held;
when it exits with 0, every object that the projection requires is held in two failure domains. -/
theorem counted_copies_are_held {s : Store} {report : ScrubReport} {y : Scene (scrubFleet Gives)}
    (hids : (agents.map (·.id)).Nodup) (hone : OneActive s.database.incarnations)
    (hrun : Steps (runJob mode agents) ⟨s, fleet, []⟩ (.done report) y) :
    (∀ row ∈ y.store.objectHealth,
      row.verifiedCopies ≤ (holders agents y.outside row.object).length ∧
        row.verifiedDomains ≤ heldDomains agents y.outside row.object) ∧
    (report.exitCode = 0 → ∃ wanted, y.store.database.requiredObjects = .ok wanted ∧
      ∀ own ∈ wanted, minimumReplicas ≤ heldDomains agents y.outside own.object) := by
  have hthere : AllThere y := allThere_of_steps hrun (steps_warranted hids hone hrun).1
  have hdone := scrubbed_of_steps hids hone hrun
  refine ⟨fun row hrow => hthere.counted (hdone.truthful row hrow), fun hzero => ?_⟩
  obtain ⟨-, hdurable⟩ := durable_of_exitCode hzero hdone.health
  obtain ⟨wanted, hwanted, hobjects⟩ := hdone.required
  refine ⟨wanted, hwanted, fun own hown => ?_⟩
  have hmem : own.object ∈ y.store.objectHealth.map (·.object) :=
    hobjects ▸ List.mem_map_of_mem hown
  obtain ⟨row, hrow, hsame⟩ := List.mem_map.1 hmem
  have htrue := hdone.truthful row hrow
  rw [← hsame]
  exact (htrue.durable.1 (hdurable row hrow)).2.1.trans (hthere.counted htrue).2

/-- What a sound part of a job leaves is held. -/
theorem Sound.grown {α : Type} {p : Job α} {x : Scene (scrubFleet Gives)}
    {Q : α → Scene (scrubFleet Gives) → Prop} (h : Sound mode agents p Q x) :
    Sound mode agents p (fun a y => Q a y ∧ Grown x.outside y.outside) x := by
  suffices hfrom : ∀ fleet, Grown fleet x.outside →
      Sound mode agents p (fun a y => Q a y ∧ Grown fleet y.outside) x from hfrom _ (.refl _)
  intro fleet hgrown
  induction p generalizing x with
  | done a => exact ⟨h, hgrown⟩
  | fail => trivial
  | read next ih =>
    rintro y rfl
    exact ih _ (h x rfl) hgrown
  | write w next ih =>
    rintro y rfl s hok hfine
    exact ⟨(h x rfl s hok hfine).1, ih (h x rfl s hok hfine).2 hgrown⟩
  | ask q next ih =>
    rintro y rfl answer fleet' hanswers hfine
    have hstep := h x rfl answer fleet' hanswers hfine
    obtain ⟨⟨event, hpast, hwarranted⟩, -⟩ := hstep.1
    obtain rfl := List.singleton_inj.1 (List.append_inj_right hpast rfl)
    exact ⟨hstep.1, ih _ hstep.2 (hgrown.trans
      (grown_answers (keeps_of_warranted hwarranted) hanswers.1))⟩

/-! ## Agents that do what they are asked -/

variable {bodyOf : ObjectId → Bytes} {known : List ObjectId}

omit [Sealing] in
/-- The agent is online and holds the object. -/
def Serves (fleet : Fleet) (agent : AgentTarget) (object : ObjectId) : Prop :=
  fleet.online agent.id = true ∧ fleet.holds agent.id object = true

/-- Agents list the known objects they hold with their lengths, and maybe others; while they are
online they report, return what they hold and store what is intact. -/
def Prompt (bodyOf : ObjectId → Bytes) (known : List ObjectId) (fleet : Fleet) :
    ∀ q : Query, q.Answer → Prop
  | .health agent, answer => fleet.online agent.id = true → ∃ free, answer =
      Health.reports agent.id agent.failureDomain (fleet.incarnation agent.id) free
  | .inventory agent kind, answer => ∃ listing, answer = some listing ∧
      listingOf bodyOf known fleet agent.id kind ⊆ listing ∧ ∀ entry ∈ listing,
        fleet.holds agent.id ⟨kind, entry.1⟩ = true → entry.2 = (bodyOf ⟨kind, entry.1⟩).length
  | .get agent object, answer => Serves fleet agent object → answer = Fetched.body (bodyOf object)
  | .put agent object bytes, answer => fleet.online agent.id = true →
      Sealing.digest bytes = object.hash → answer = Stored.stored
  | _, _ => True

/-- A job among such agents. -/
abbrev promptWorld (bodyOf : ObjectId → Bytes) (known : List ObjectId) : Outside scrubWorld :=
  scrubFleet (Prompt bodyOf known)

variable {x y : Scene (promptWorld bodyOf known)}

/-- Among such agents a part of a job ends in `Q`. -/
def Ends {α : Type} (p : Job α) (Q : α → Scene (promptWorld bodyOf known) → Prop)
    (x : Scene (promptWorld bodyOf known)) : Prop :=
  p.Safe (fun _ => True) Eq (fun _ _ => True) Q x

section Rules

variable {α β : Type} {Q R : α → Scene (promptWorld bodyOf known) → Prop}

theorem ends_bind {p : Job α} {f : α → Job β} {R : β → Scene (promptWorld bodyOf known) → Prop} :
    Ends (p >>= f) R x ↔ Ends p (fun a y => Ends (f a) R y) x := safe_bind

theorem Ends.mono {p : Job α} (h : Ends p Q x) (hQ : ∀ a y, Q a y → R a y) : Ends p R x :=
  Safe.mono h hQ

/-- What is sound ends in both. -/
theorem Ends.sound {p : Job α} (h : Ends p Q x) (hsound : Sound mode agents p R x) :
    Ends p (fun a y => Q a y ∧ R a y) x := Safe.and h hsound

theorem ends_trivial (p : Job α) (x : Scene (promptWorld bodyOf known)) :
    Ends p (fun _ _ => True) x := by
  induction p generalizing x with
  | done a => trivial
  | fail => trivial
  | read next ih => exact fun y _ => ih y.store y
  | write w next ih => exact fun y _ s _ _ => ⟨trivial, ih _⟩
  | ask q next ih => exact fun y _ answer fleet _ _ => ⟨trivial, ih answer _⟩

theorem ends_pure {a : α} (h : Q a x) : Ends (pure a) Q x := h

theorem ends_reading {f : Store → α} (h : Q (f x.store) x) : Ends (reading f) Q x := by
  rintro y rfl
  exact h

theorem ends_query {q : Query} {Q : q.Answer → Scene (promptWorld bodyOf known) → Prop}
    (h : ∀ (answer : q.Answer) fleet, x.outside.answers q answer fleet →
      Prompt bodyOf known x.outside q answer → Q answer (x.asked q answer fleet)) :
    Ends (query (W := scrubWorld) q) Q x := by
  rintro y rfl answer fleet ⟨hanswers, hprompt⟩ -
  exact ⟨trivial, h answer fleet hanswers hprompt⟩

theorem ends_write {w : ScrubWrite} {Q : Unit → Scene (promptWorld bodyOf known) → Prop}
    (h : ∀ s, w.perform x.store = .ok s → Q () (x.wrote w s)) : Ends (write w) Q x := by
  rintro y rfl s hok -
  exact ⟨trivial, h s hok⟩

/-- An agent that holds the object returns it. -/
theorem ends_fetchBytes {agent : AgentTarget}
    {Q : Option Bytes → Scene (promptWorld bodyOf known) → Prop}
    (h : ∀ answer : Fetched, (Serves x.outside agent object → answer = .body (bodyOf object)) →
      Q (bodyBytes answer) (x.asked (.get agent object) answer x.outside)) :
    Ends (fetchBytes agent object) Q x := by
  refine ends_bind.2 (ends_query fun answer fleet hanswers hprompt => ?_)
  obtain rfl := hanswers.1
  have hQ := h answer hprompt
  cases answer <;> exact ends_pure hQ

end Rules

omit [Sealing] in
/-- The next of those that are left is done, and the others stay so. -/
theorem done_cons {β : Type} {all rest : List β} {b : β} {P Q : β → Prop}
    (h : ∀ c ∈ all, c ∈ b :: rest ∨ P c) (hb : Q b) (hPQ : ∀ c, P c → Q c) :
    ∀ c ∈ all, c ∈ rest ∨ Q c := by
  intro c hc
  rcases h c hc with hleft | hdone
  · rcases List.mem_cons.1 hleft with rfl | hrest
    · exact .inr hb
    · exact .inl hrest
  · exact .inr (hPQ c hdone)

/-! ### The survey -/

omit [Sealing] in
/-- No agent was replaced since it was last seen. -/
def Settled (agents : List AgentTarget) (fleet : Fleet) (db : Database) : Prop :=
  ∀ agent ∈ agents, ∀ row ∈ db.incarnations, row.agentId = agent.id → row.status = .active →
    row.incarnationId = fleet.incarnation agent.id

omit [Sealing] in
theorem Settled.observed {db db' : Database} {agent : AgentTarget} (h : Settled agents fleet db)
    (hok : db.observeAgentIncarnation agent (fleet.incarnation agent.id) = .ok db') :
    Settled agents fleet db' := by
  intro other hother row hrow hid hstatus
  have hnew (hrow : row ∈ [(⟨agent.id, fleet.incarnation agent.id, agent.failureDomain, .active⟩ :
      Incarnation)]) : row.incarnationId = fleet.incarnation other.id := by
    cases List.mem_singleton.1 hrow
    exact congrArg fleet.incarnation hid
  rcases observeAgentIncarnation_cases hok with ⟨_, -, -, -, -, rfl⟩ | ⟨old, -, -, -, -, heq, -⟩ |
    ⟨-, -, heq, -⟩
  · obtain ⟨own, hown, rfl⟩ := List.mem_map.1 hrow
    by_cases hthis : own.incarnationId = fleet.incarnation agent.id
    · rw [if_pos hthis] at hid hstatus ⊢
      exact h other hother own hown hid hstatus
    · rw [if_neg hthis] at hid hstatus ⊢
      exact h other hother own hown hid hstatus
  · rcases List.mem_append.1 (heq ▸ hrow) with hrow | hrow
    · obtain ⟨own, hown, rfl⟩ := List.mem_map.1 hrow
      by_cases hthis : own.incarnationId = old.incarnationId
      · rw [changeRow, if_pos hthis] at hstatus
        cases hstatus
      · rw [changeRow, if_neg hthis] at hid hstatus ⊢
        exact h other hother own hown hid hstatus
    · exact hnew hrow
  · rcases List.mem_append.1 (heq ▸ hrow) with hrow | hrow
    · exact h other hother row hrow hid hstatus
    · exact hnew hrow

omit [Sealing] in
theorem Settled.observation {db : Database} {agent : AgentTarget} (h : Settled agents fleet db)
    (hagent : agent ∈ agents) (previous : IncarnationId) :
    incarnationObservation db agent.id (fleet.incarnation agent.id) ≠ .superseded previous := by
  unfold incarnationObservation
  split
  · next current hactive =>
    obtain ⟨row, hfind, rfl⟩ := Option.map_eq_some_iff.1 hactive
    have hrow := List.find?_some hfind
    simp only [Bool.and_eq_true, beq_iff_eq] at hrow
    rw [if_pos (h agent hagent row (List.mem_of_find?_eq_some hfind) hrow.1 hrow.2)]
    simp
  · simp

/-- The agents contacted so far are all before the rest. -/
structure Reached (agents rest : List AgentTarget) (fleet : Fleet) (db : Database)
    (contacts : Contacts) (x : Scene (promptWorld bodyOf known)) : Prop where
  all : contacts.reachable.map (·.target) ++ rest = agents
  outside : x.outside = fleet
  quiet : Settled agents fleet db → Settled agents fleet x.store.database ∧ contacts.issues = []

theorem contact_ends {agent : AgentTarget} {rest : List AgentTarget} {db : Database}
    {contacts : Contacts} (hup : fleet.online agent.id = true)
    (hx : Reached agents (agent :: rest) fleet db contacts x) :
    Ends (contact contacts agent) (Reached agents rest fleet db) x := by
  refine ends_bind.2 (ends_query fun answer fleet' hanswers hprompt => ?_)
  obtain rfl := hx.outside
  obtain ⟨free, rfl⟩ := hprompt hup
  obtain rfl : fleet' = x.outside := hanswers.1
  dsimp only
  rw [if_neg (by simp)]
  refine ends_bind.2 (ends_reading (ends_bind.2 (ends_write fun s hok => ends_pure ⟨?_, rfl,
    fun hsettled => ?_⟩)))
  · rw [List.map_append, List.append_assoc]
    exact hx.all
  · obtain ⟨hbefore, hnone⟩ := hx.quiet hsettled
    obtain ⟨db', hperform, hs⟩ := bind_eq_ok.1 hok
    cases hs
    refine ⟨hbefore.observed hperform, ?_⟩
    have hagent : agent ∈ agents := hx.all ▸ List.mem_append_right _ List.mem_cons_self
    dsimp only
    split
    · next previous hreplaced => exact absurd hreplaced (hbefore.observation hagent previous)
    · exact hnone

/-- The agent's listing of the kind is in. -/
def Covered (bodyOf : ObjectId → Bytes) (known : List ObjectId) (fleet : Fleet) (seen : Inventories)
    (scan : AgentId × ObjectKind) : Prop :=
  scan ∈ seen.completeScans ∧ ∀ entry ∈ listingOf bodyOf known fleet scan.1 scan.2,
    ((scan.1, ⟨scan.2, entry.1⟩), entry.2) ∈ seen.listings

/-- Of all listings those to do are not in. -/
structure Gathering (all todo : List (AgentId × ObjectKind)) (fleet : Fleet) (issues : List Issue)
    (seen : Inventories) (x : Scene (promptWorld bodyOf known)) : Prop where
  outside : x.outside = fleet
  quiet : seen.issues = issues
  sizes : ∀ entry ∈ seen.listings, fleet.holds entry.1.1 entry.1.2 = true →
    entry.2 = (bodyOf entry.1.2).length
  covered : ∀ scan ∈ all, scan ∈ todo ∨ Covered bodyOf known fleet seen scan

omit [Sealing] in
theorem mem_listingOf {agent : AgentId} {kind : ObjectKind} {entry : ObjectHash × ℕ} :
    entry ∈ listingOf bodyOf known fleet agent kind ↔ ⟨kind, entry.1⟩ ∈ known ∧
      fleet.holds agent ⟨kind, entry.1⟩ = true ∧ entry.2 = (bodyOf ⟨kind, entry.1⟩).length := by
  obtain ⟨hash, size⟩ := entry
  simp only [listingOf, List.mem_map, List.mem_filter, Bool.and_eq_true, beq_iff_eq, Prod.mk.injEq]
  constructor
  · rintro ⟨object, ⟨hknown, rfl, hheld⟩, rfl, rfl⟩
    exact ⟨hknown, hheld, rfl⟩
  · rintro ⟨hknown, hheld, rfl⟩
    exact ⟨_, ⟨hknown, rfl, hheld⟩, rfl, rfl⟩

theorem observe_ends {agent : ReachableAgent} {kind : ObjectKind} {seen : Inventories}
    {all todo : List (AgentId × ObjectKind)} {issues : List Issue}
    (hx : Gathering all ((agent.target.id, kind) :: todo) fleet issues seen x) :
    Ends (observe agent seen kind) (Gathering all todo fleet issues) x := by
  refine ends_bind.2 (ends_query fun answer fleet' hanswers hprompt => ?_)
  obtain ⟨listing, rfl, hlisted, hsizes⟩ := hprompt
  obtain rfl : fleet' = x.outside := hanswers
  refine ends_bind.2 (ends_query fun time fleet' hanswers _ => ?_)
  obtain rfl : fleet' = x.outside := hanswers
  refine ends_bind.2 (ends_write fun s _ => ends_pure ⟨hx.outside, hx.quiet, fun entry hentry => ?_,
    done_cons hx.covered ⟨List.mem_insert_self, fun entry hentry => ?_⟩ fun scan hcovered => ?_⟩)
  · rcases List.mem_append.1 hentry with hnew | hold
    · obtain ⟨own, hown, rfl⟩ := List.mem_map.1 (List.mem_reverse.1 hnew)
      exact fun hheld => hsizes own hown (hx.outside ▸ hheld)
    · exact hx.sizes entry hold
  · refine List.mem_append_left _ (List.mem_reverse.2 (List.mem_map.2 ⟨entry, ?_, rfl⟩))
    exact hlisted (hx.outside ▸ hentry)
  · exact ⟨List.mem_insert_of_mem hcovered.1, fun entry hentry =>
      List.mem_append_right _ (hcovered.2 entry hentry)⟩

/-- Everything was observed, and what the agents hold is listed. -/
structure Found (bodyOf : ObjectId → Bytes) (known : List ObjectId) (fleet : Fleet)
    (survey : Survey) : Prop where
  all : survey.reachable.map (·.target) = survey.agents
  complete : survey.completeObservation = true
  listed : ∀ agent ∈ survey.reachable, ∀ object ∈ known,
    fleet.holds agent.target.id object = true →
      survey.listings.lookup (agent.target.id, object) = some (bodyOf object).length

omit [Sealing] in
theorem lookup_of_mem {κ υ : Type} [BEq κ] [LawfulBEq κ] {l : List (κ × υ)} {k : κ} {v : υ}
    (hmem : (k, v) ∈ l) (hvalues : ∀ entry ∈ l, entry.1 = k → entry.2 = v) :
    l.lookup k = some v := by
  cases hlookup : l.lookup k with
  | none =>
    have hnot := List.lookup_eq_none_iff.1 hlookup _ hmem
    simp at hnot
  | some own =>
    obtain ⟨before, after, rfl, -⟩ := List.lookup_eq_some_iff.1 hlookup
    exact congrArg some (hvalues (k, own) (by simp) rfl)

/-- The scans that every agent and kind needs. -/
def allScans (reachable : List ReachableAgent) : List (AgentId × ObjectKind) :=
  reachable.flatMap fun agent => allKinds.map fun kind => (agent.target.id, kind)

omit [Sealing] in
theorem mem_allScans {reachable : List ReachableAgent} {agent : ReachableAgent}
    (hagent : agent ∈ reachable) (kind : ObjectKind) :
    (agent.target.id, kind) ∈ allScans reachable := by
  refine List.mem_flatMap.2 ⟨agent, hagent, List.mem_map.2 ⟨kind, ?_, rfl⟩⟩
  cases kind <;> decide

/-- Once all listings are in, everything was observed. -/
theorem Gathering.found {contacts : Contacts} {seen : Inventories} {issues : List Issue}
    (h : Gathering (allScans contacts.reachable) [] fleet issues seen x)
    (hall : contacts.reachable.map (·.target) = agents)
    (hsurveyed : Surveyed ⟨agents, contacts.reachable, seen.listings, seen.completeScans⟩ x) :
    Found bodyOf known fleet ⟨agents, contacts.reachable, seen.listings, seen.completeScans⟩ := by
  have hcovered : ∀ agent ∈ contacts.reachable, ∀ kind,
      Covered bodyOf known fleet seen (agent.target.id, kind) := fun agent hagent kind =>
    (h.covered _ (mem_allScans hagent kind)).resolve_left List.not_mem_nil
  refine ⟨hall, decide_eq_true ⟨?_, ?_⟩, fun agent hagent object hknown hheld => ?_⟩
  · show contacts.reachable.length = agents.length
    rw [← hall, List.length_map]
  · have hlength : (contacts.reachable.map (·.target.id) ×ˢ allKinds).length =
        contacts.reachable.length * allKinds.length := by
      rw [List.length_product, List.length_map]
    refine hlength ▸ le_antisymm ?_ ?_
    · refine (hsurveyed.inventoried.nodup.subperm fun scan hscan => ?_).length_le
      obtain ⟨agent, hagent, hid, -⟩ := hsurveyed.inventoried.complete scan hscan
      refine List.mem_product.2 ⟨hid ▸ List.mem_map_of_mem hagent, ?_⟩
      cases scan.2 <;> decide
    · have hnodup : (contacts.reachable.map (·.target.id) ×ˢ allKinds).Nodup :=
        hsurveyed.ids.product (by decide)
      refine (hnodup.subperm fun scan hscan => ?_).length_le
      obtain ⟨hid, -⟩ := List.mem_product.1 hscan
      obtain ⟨agent, hagent, hsame⟩ := List.mem_map.1 hid
      have hscanned := (hcovered agent hagent scan.2).1
      rwa [hsame] at hscanned
  · refine lookup_of_mem ((hcovered agent hagent object.kind).2
      (object.hash, (bodyOf object).length) (mem_listingOf.2 ⟨hknown, hheld, rfl⟩)) ?_
    rintro ⟨⟨holder, own⟩, size⟩ hentry hsame
    cases hsame
    exact h.sizes _ hentry hheld

theorem survey_ends (hids : (agents.map (·.id)).Nodup)
    (hone : OneActive x.store.database.incarnations)
    (hup : ∀ agent ∈ agents, x.outside.online agent.id = true) :
    Ends (survey agents) (fun found y => Surveyed ⟨agents, found.1.reachable, found.2.listings,
      found.2.completeScans⟩ y ∧ Found bodyOf known x.outside ⟨agents, found.1.reachable,
        found.2.listings, found.2.completeScans⟩ ∧
      (Settled agents x.outside x.store.database → found.2.issues = [])) x := by
  have hfold : Ends (survey agents) (fun found y =>
      found.1.reachable.map (·.target) = agents ∧
        Gathering (allScans found.1.reachable) [] x.outside found.1.issues found.2 y ∧
        (Settled agents x.outside x.store.database → found.1.issues = [])) x := by
    refine ends_bind.2 (Ends.mono (safe_foldlM_rest
      (J := fun rest => Reached agents rest x.outside x.store.database)
      (fun agent rest contacts y hy => contact_ends (hup agent (hy.all ▸ List.mem_append_right _
        List.mem_cons_self)) hy) ⟨rfl, rfl, fun h => ⟨h, rfl⟩⟩) fun contacts y hy => ?_)
    have hall := hy.all
    rw [List.append_nil] at hall
    refine ends_bind.2 (Ends.mono (safe_foldlM_rest (J := fun rest =>
      Gathering (allScans contacts.reachable) (allScans rest) x.outside contacts.issues)
      (fun agent rest seen z hz => ?_) ⟨hy.outside, rfl, fun _ h => absurd h List.not_mem_nil,
        fun _ h => .inl h⟩) fun seen z hz =>
          ends_pure ⟨hall, hz, fun hsettled => (hy.quiet hsettled).2⟩)
    exact safe_foldlM_rest (J := fun kinds => Gathering (allScans contacts.reachable)
      (kinds.map (fun kind => (agent.target.id, kind)) ++ allScans rest) x.outside contacts.issues)
      (fun kind kinds seen z hz => observe_ends hz) hz
  have hsound : Sound .repair agents (survey agents) (fun found y => Surveyed ⟨agents,
      found.1.reachable, found.2.listings, found.2.completeScans⟩ y) x := survey_sound hids hone
  refine (hfold.sound hsound).mono fun found y hy => ?_
  obtain ⟨⟨hall, hgathered, hquiet⟩, hsurveyed⟩ := hy
  exact ⟨hsurveyed, hgathered.found hall hsurveyed,
    fun hsettled => hgathered.quiet.trans (hquiet hsettled)⟩

/-! ### Verification -/

variable {survey : Survey} {required : RequiredObject} {start : Scene (promptWorld bodyOf known)}
  {verification : Verification}

/-- Copies that were verified leave bytes to copy from. -/
theorem verifyListed_ends {agent : ReachableAgent} {size : ℕ}
    {state : Verification × List AgentScrubSummary} (hx : x.outside = fleet) :
    Ends (verifyListed required agent size state) (fun after y => y.outside = fleet ∧
      (state.1.sourceBytes.isSome = true ∨ Serves fleet agent.target required.object ∧
        intact required size (bodyOf required.object) = true →
          after.1.sourceBytes.isSome = true)) x := by
  refine ends_bind.2 (ends_fetchBytes fun answer hprompt => ?_)
  split
  · next hvalid =>
    obtain ⟨bytes, hbytes, -⟩ := (Option.any_eq_true _ _).1 hvalid
    refine ends_bind.2 (ends_write fun s _ => ends_pure ⟨hx, fun _ => ?_⟩)
    simp [hbytes]
  · next hvalid =>
    refine ends_bind.2 (ends_write fun s _ => ends_pure ⟨hx, fun h => ?_⟩)
    rcases h with hsome | ⟨hheld, hintact⟩
    · exact hsome
    · rw [hprompt (hx ▸ hheld)] at hvalid
      exact absurd hintact hvalid

/-- The agent holds the object as it was listed and as it should be. -/
def Intact (bodyOf : ObjectId → Bytes) (survey : Survey) (fleet : Fleet) (required : RequiredObject)
    (agent : ReachableAgent) : Prop :=
  Serves fleet agent.target required.object ∧
    ∃ size, survey.listings.lookup (agent.target.id, required.object) = some size ∧
      intact required size (bodyOf required.object) = true

theorem verifyAgent_ends {agent : ReachableAgent} {existing : List AgentId}
    {state : Verification × List AgentScrubSummary} (hx : x.outside = fleet) :
    Ends (verifyAgent survey required existing state agent) (fun after y => y.outside = fleet ∧
      (state.1.sourceBytes.isSome = true ∨ Intact bodyOf survey fleet required agent →
        after.1.sourceBytes.isSome = true)) x := by
  unfold verifyAgent
  split
  · next size hlisted =>
    refine (verifyListed_ends hx).mono fun after y hy => ⟨hy.1, fun h => hy.2 (h.imp_right ?_)⟩
    rintro ⟨hserves, own, hown, hintact⟩
    cases hlisted.symm.trans hown
    exact ⟨hserves, hintact⟩
  · next hunlisted =>
    have hsame : state.1.sourceBytes.isSome = true ∨ Intact bodyOf survey fleet required agent →
        state.1.sourceBytes.isSome = true := by
      rintro (hsome | ⟨-, size, hsize, -⟩)
      · exact hsome
      · cases hunlisted.symm.trans hsize
    split
    · split
      · exact ends_bind.2 (ends_write fun s _ => ends_pure ⟨hx, hsame⟩)
      · exact ends_pure ⟨hx, hsame⟩
    · exact ends_pure ⟨hx, hsame⟩

theorem verifyObject_ends {summaries : List AgentScrubSummary} :
    Ends (verifyObject survey required summaries) (fun state _ =>
      (∃ agent ∈ survey.reachable, Intact bodyOf survey x.outside required agent) →
        state.1.sourceBytes.isSome = true) x := by
  refine ends_bind.2 (ends_reading (ends_bind.2 ?_))
  refine Ends.mono (safe_foldlM_rest (J := fun (rest : List ReachableAgent)
    (state : Verification × List AgentScrubSummary) (y : Scene (promptWorld bodyOf known)) =>
      y.outside = x.outside ∧ ∀ agent ∈ survey.reachable, agent ∈ rest ∨
        (Intact bodyOf survey x.outside required agent → state.1.sourceBytes.isSome = true))
    (fun agent rest state y hy => ?_) ⟨rfl, fun agent hagent => .inl hagent⟩) fun state y hy =>
      ends_pure ?_
  · refine (verifyAgent_ends hy.1).mono fun after z hz => ⟨hz.1, ?_⟩
    exact done_cons hy.2 (fun hintact => hz.2 (.inr hintact))
      fun other hsome hintact => hz.2 (.inl (hsome hintact))
  · rw [(countUnreached_valid survey.agents state).2]
    rintro ⟨agent, hagent, hintact⟩
    exact (hy.2 agent hagent).resolve_left List.not_mem_nil hintact

/-! ### Repair -/

omit [Sealing] in
theorem insertCopy_of_fresh {valid : List (AgentId × Domain)} {agent : AgentTarget}
    (h : ∀ copy ∈ valid, copy.1 ≠ agent.id) :
    Drain.insertCopy valid agent = (agent.id, agent.failureDomain) :: valid := by
  rw [Drain.insertCopy, List.filter_eq_self.2 fun copy hcopy => bne_iff_ne.2 (h copy hcopy)]

omit [Sealing] in
/-- Lists with more values have more different ones. -/
theorem dedup_length_le {l l' : List Domain} (h : l ⊆ l') : l.dedup.length ≤ l'.dedup.length := by
  refine ((List.nodup_dedup l).subperm fun domain hdomain => ?_).length_le
  exact List.mem_dedup.2 (h (List.mem_dedup.1 hdomain))

/-- One agent is asked to store the object and has it. -/
theorem repairAt_ends {agent : ReachableAgent} {bytes : Bytes} {source : AgentId} {state : Repairing}
    (hbytes : Sealing.digest bytes = object.hash)
    (hbody : Sealing.digest (bodyOf object) = object.hash)
    (hup : x.outside.online agent.target.id = true) :
    Ends (repairAt object bytes source agent state) (fun after y =>
      after.verification.valid = Drain.insertCopy state.verification.valid agent.target ∧
        after.issues = state.issues ∧ y.outside.online = x.outside.online ∧
        ∀ row, ¬ (row.object = object ∧ row.agentId = agent.target.id) →
          (row ∈ y.store.database.placements ↔ row ∈ x.store.database.placements)) x := by
  refine ends_bind.2 (ends_query fun answer fleet' hanswers hprompt => ?_)
  obtain rfl := hprompt hup hbytes
  obtain ⟨-, -, rfl⟩ := hanswers
  refine ends_bind.2 (ends_fetchBytes fun answer hprompt => ?_)
  rw [hprompt ⟨hup, Fleet.setHolds_self⟩, if_pos (by simpa [bodyBytes] using hbody)]
  exact ends_bind.2 (ends_write fun s hok => ends_pure ⟨rfl, rfl, rfl, (record_spec hok).others⟩)

/-- Of the agents that are done, each counts or needs no repair. -/
structure Restoring (survey : Survey) (object : ObjectId) (damagedAgents : List AgentId)
    (issues : List Issue) (start : Scene (promptWorld bodyOf known)) (rest : List ReachableAgent)
    (state : Repairing) (x : Scene (promptWorld bodyOf known)) : Prop where
  quiet : state.issues = issues
  online : ∀ agent ∈ survey.reachable, x.outside.online agent.target.id = true
  done : ∀ agent ∈ survey.reachable, agent ∈ rest ∨
    (∃ copy ∈ state.verification.valid, copy.1 = agent.target.id) ∨
      agent.target.id ∉ damagedAgents ∧ minimumReplicas ≤ state.verification.domains
  rows : ∀ row, row.object = object → (∀ copy ∈ state.verification.valid, copy.1 ≠ row.agentId) →
    (row ∈ x.store.database.placements ↔ row ∈ start.store.database.placements)

variable {damagedAgents : List AgentId} {issues : List Issue} {rest : List ReachableAgent}
  {state : Repairing}

omit [Sealing] in
/-- An agent that does not extend the floor finds it met. -/
theorem floor_of_not_extends {valid : List (AgentId × Domain)} {agent : AgentTarget}
    (h : extendsFloor valid agent = false) : minimumReplicas ≤ (valid.map (·.2)).dedup.length := by
  by_contra hbelow
  simp only [extendsFloor, Bool.and_eq_false_iff, decide_eq_false_iff_not, Bool.not_eq_false',
    Bool.and_eq_true, decide_eq_true_eq] at h
  rcases h with h | h
  · exact h (.inl (Nat.lt_of_not_le hbelow))
  · exact hbelow h.2

theorem repairAgent_ends {agent : ReachableAgent} {bytes : Bytes} {source : AgentId}
    (hagent : agent ∈ survey.reachable)
    (hbytes : Sealing.digest bytes = object.hash)
    (hbody : Sealing.digest (bodyOf object) = object.hash)
    (hx : Restoring survey object damagedAgents issues start (agent :: rest) state x) :
    Ends (repairAgent object bytes source damagedAgents state agent)
      (Restoring survey object damagedAgents issues start rest) x := by
  have hskip (hown : (∃ copy ∈ state.verification.valid, copy.1 = agent.target.id) ∨
      agent.target.id ∉ damagedAgents ∧ minimumReplicas ≤ state.verification.domains) :
      Restoring survey object damagedAgents issues start rest state x :=
    ⟨hx.quiet, hx.online, done_cons hx.done hown fun _ hdone => hdone, hx.rows⟩
  unfold repairAgent
  split
  · next hvalid =>
    obtain ⟨copy, hcopy, hsame⟩ := List.any_eq_true.1 hvalid
    exact ends_pure (hskip (.inl ⟨copy, hcopy, eq_of_beq hsame⟩))
  · next hinvalid =>
    have hfresh : ∀ copy ∈ state.verification.valid, copy.1 ≠ agent.target.id :=
      fun copy hcopy hsame => hinvalid (List.any_eq_true.2 ⟨copy, hcopy, beq_iff_eq.2 hsame⟩)
    split
    · refine (repairAt_ends hbytes hbody (hx.online agent hagent)).mono fun after y hy => ?_
      obtain ⟨hvalid, hquiet, hup, hrows⟩ := hy
      rw [insertCopy_of_fresh hfresh] at hvalid
      refine ⟨hquiet.trans hx.quiet, hup ▸ hx.online,
        done_cons hx.done (.inl ⟨_, hvalid ▸ List.mem_cons_self, rfl⟩) fun other hdone => ?_,
        fun row hobject hnone => ?_⟩
      · rcases hdone with ⟨copy, hcopy, hsame⟩ | ⟨hsound, hfloor⟩
        · exact .inl ⟨copy, hvalid ▸ List.mem_cons_of_mem _ hcopy, hsame⟩
        · refine .inr ⟨hsound, hfloor.trans (dedup_length_le ?_)⟩
          rw [hvalid, List.map_cons]
          exact List.subset_cons_self _ _
      · rw [hvalid] at hnone
        have hother : row.agentId ≠ agent.target.id :=
          fun hsame => hnone _ List.mem_cons_self hsame.symm
        exact (hrows row fun h => hother h.2).trans
          (hx.rows row hobject fun copy hcopy => hnone copy (List.mem_cons_of_mem _ hcopy))
    · next hneither =>
      simp only [Bool.or_eq_true, not_or, Bool.not_eq_true, List.contains_eq_mem,
        decide_eq_true_eq] at hneither
      exact ends_pure (hskip (.inr ⟨hneither.2, floor_of_not_extends hneither.1⟩))

theorem repairObject_ends {bytes : Bytes} (hbytes : Sealing.digest bytes = object.hash)
    (hbody : Sealing.digest (bodyOf object) = object.hash)
    (hup : ∀ agent ∈ survey.reachable, x.outside.online agent.target.id = true) :
    Ends (repairObject survey object bytes state) (Restoring survey object
      (((x.store.database.placementStates object).filter damaged).map (·.1)) state.issues x [])
        x := by
  refine ends_bind.2 (safe_require fun source _ => ends_bind.2 (ends_reading ?_))
  refine (safe_foldlM_rest (J := fun rest after y => rest ⊆ survey.reachable ∧
      Restoring survey object (((x.store.database.placementStates object).filter damaged).map (·.1))
        state.issues x rest after y)
    (fun agent rest state y hy => ?_) ⟨List.Subset.refl _, rfl, hup,
      fun agent hagent => .inl hagent, fun _ _ _ => Iff.rfl⟩).mono fun state y hy => hy.2
  have hsub := List.cons_subset.1 hy.1
  exact (repairAgent_ends hsub.1 hbytes hbody hy.2).mono fun after z hz => ⟨hsub.2, hz⟩

/-- After a repair the object is durable. -/
theorem Restoring.durable {object : ObjectId} (h : Restoring survey object
      (((start.store.database.placementStates object).filter damaged).map (·.1)) issues start []
        state x)
    (hvouched : Vouched survey object state.verification.valid x)
    (hids : (survey.reachable.map (·.target.id)).Nodup)
    (hall : survey.reachable.map (·.target) = survey.agents)
    (hdomains : minimumReplicas ≤ (survey.agents.map (·.failureDomain)).dedup.length) :
    classify survey.agents object state.verification x.store.database = .durable := by
  have hdone : ∀ agent ∈ survey.reachable,
      (∃ copy ∈ state.verification.valid, copy.1 = agent.target.id) ∨ agent.target.id ∉
        ((start.store.database.placementStates object).filter damaged).map (·.1) ∧
          minimumReplicas ≤ state.verification.domains :=
    fun agent hagent => (h.done agent hagent).resolve_left List.not_mem_nil
  have hfloor : minimumReplicas ≤ state.verification.domains := by
    by_contra hbelow
    refine hbelow (hdomains.trans (dedup_length_le fun domain hdomain => ?_))
    rw [← hall, List.map_map] at hdomain
    obtain ⟨agent, hagent, rfl⟩ := List.mem_map.1 hdomain
    obtain ⟨copy, hcopy, hsame⟩ := (hdone agent hagent).resolve_right fun hnot => hbelow hnot.2
    obtain ⟨own, hown, rfl, -⟩ := hvouched.copies copy hcopy
    obtain rfl := List.inj_on_of_nodup_map hids hown hagent hsame
    exact List.mem_map.2 ⟨_, hcopy, rfl⟩
  have hcopies : state.verification.domains ≤ state.verification.valid.length := by
    unfold Verification.domains
    exact (List.dedup_sublist _).length_le.trans_eq (List.length_map _)
  refine (classify_spec _ _ _ _).2.2.2 ⟨hfloor.trans hcopies, hfloor, fun row hrow hobject hown => ?_⟩
  obtain ⟨target, htarget, hsame⟩ := hown
  rw [← hall] at htarget
  obtain ⟨agent, hagent, rfl⟩ := List.mem_map.1 htarget
  by_cases hcounts : ∃ copy ∈ state.verification.valid, copy.1 = agent.target.id
  · obtain ⟨copy, hcopy, hcopyId⟩ := hcounts
    obtain ⟨own, hown, rfl, hbacked⟩ := hvouched.copies copy hcopy
    obtain ⟨-, hstate⟩ := hbacked.confirmed row hrow hobject (hsame.symm.trans hcopyId.symm)
    rw [hstate]
    exact ⟨by decide, by decide⟩
  · obtain ⟨hsound, -⟩ := (hdone agent hagent).resolve_left hcounts
    have hbefore := (h.rows row hobject fun copy hcopy hid =>
      hcounts ⟨copy, hcopy, hid.trans hsame.symm⟩).1 hrow
    have hmem : (row.agentId, row.state, row.incarnationId) ∈
        start.store.database.placementStates object := by
      refine List.mem_map.2 ⟨row, List.mem_insertionSort _ |>.2 (List.mem_filter.2 ⟨hbefore, ?_⟩), rfl⟩
      exact beq_iff_eq.2 hobject
    have hnot : ¬ damaged (row.agentId, row.state, row.incarnationId) = true := fun hbad =>
      hsound (hsame ▸ List.mem_map.2 ⟨_, List.mem_filter.2 ⟨hmem, hbad⟩, rfl⟩)
    simpa [damaged] using hnot

theorem repairWhenObserved_ends {progress : Progress} {verdict : ObjectHealthState}
    (hx : Verified survey required.object start verification x)
    (hsource : verification.sourceBytes.isSome = true)
    (hfound : Found bodyOf known fleet survey)
    (hdomains : minimumReplicas ≤ (survey.agents.map (·.failureDomain)).dedup.length)
    (hbody : Sealing.digest (bodyOf required.object) = required.object.hash)
    (hup : ∀ agent ∈ survey.reachable, x.outside.online agent.target.id = true) :
    Ends (repairWhenObserved survey .repair required verification progress verdict)
      (fun result _ => result.2.2 = .durable ∧ result.1.issues = progress.issues) x := by
  unfold repairWhenObserved
  split
  · rw [if_pos hfound.complete]
    cases hbytes : verification.sourceBytes with
    | none => rw [hbytes] at hsource; cases hsource
    | some bytes =>
      have hdigest := hx.source bytes hbytes
      have hstart : Verified survey required.object start
          (Repairing.mk verification progress.repairs progress.issues 0 0).verification x := hx
      have hsound : Sound .repair survey.agents (repairObject survey required.object bytes
          ⟨verification, progress.repairs, progress.issues, 0, 0⟩)
          (fun done => Verified survey required.object start done.verification) x :=
        repairObject_sound hstart rfl hfound.complete hdigest
      refine ends_bind.2 (((repairObject_ends hdigest hbody hup).sound hsound).mono fun done y hy =>
        ends_bind.2 (ends_reading (ends_pure ?_)))
      exact ⟨hy.1.durable hy.2.vouched hx.surveyed.ids hfound.all hdomains, hy.1.quiet⟩
  · next hunwanted =>
    refine ends_pure ⟨?_, rfl⟩
    by_contra hnot
    exact hunwanted ⟨hnot, rfl⟩

/-! ### The job -/

/-- An object of which an intact copy is left among the agents. -/
def Restorable (bodyOf : ObjectId → Bytes) (known : List ObjectId) (agents : List AgentTarget)
    (fleet : Fleet) (required : RequiredObject) : Prop :=
  required.object ∈ known ∧ (∃ agent ∈ agents, fleet.holds agent.id required.object = true) ∧
    Sealing.digest (bodyOf required.object) = required.object.hash ∧
    required.expectedLen.all (· == (bodyOf required.object).length) = true

theorem Restorable.exists_intact (h : Restorable bodyOf known survey.agents fleet required)
    (hfound : Found bodyOf known fleet survey)
    (hup : ∀ agent ∈ survey.agents, fleet.online agent.id = true) (hgrown : Grown fleet fleet') :
    ∃ agent ∈ survey.reachable, Intact bodyOf survey fleet' required agent := by
  obtain ⟨hknown, ⟨agent, hagent, hheld⟩, hbody, hfits⟩ := h
  have hmem := hagent
  rw [← hfound.all] at hmem
  obtain ⟨own, hown, rfl⟩ := List.mem_map.1 hmem
  refine ⟨own, hown, ⟨hgrown.online ▸ hup _ hagent, hgrown.holds _ _ hheld⟩, _,
    hfound.listed own hown _ hknown hheld, ?_⟩
  simp [intact, hbody, hfits]

/-- What the repair of each object goes by. -/
structure Restorer (bodyOf : ObjectId → Bytes) (known : List ObjectId) (fleet : Fleet)
    (survey : Survey) : Prop where
  found : Found bodyOf known fleet survey
  online : ∀ agent ∈ survey.agents, fleet.online agent.id = true
  domains : minimumReplicas ≤ (survey.agents.map (·.failureDomain)).dedup.length

omit [Sealing] in
theorem Restorer.online_reachable (h : Restorer bodyOf known fleet survey)
    (hgrown : Grown fleet fleet') :
    ∀ agent ∈ survey.reachable, fleet'.online agent.target.id = true := by
  intro agent hagent
  rw [hgrown.online]
  exact h.online _ (h.found.all ▸ List.mem_map_of_mem hagent)

/-- What is restorable becomes durable. -/
theorem scrubObject_ends {progress : Progress} (hrestorer : Restorer bodyOf known fleet survey)
    (hx : Surveyed survey x) (hgrown : Grown fleet x.outside) :
    Ends (scrubObject survey .repair progress required) (fun after _ =>
      ∃ row, after.health = progress.health ++ [row] ∧ row.object = required.object ∧
        (Restorable bodyOf known survey.agents fleet required →
          row.state = .durable ∧ after.issues = progress.issues)) x := by
  have hverify : Sound .repair survey.agents (verifyObject survey required progress.summaries)
      (fun state y => Verified survey required.object x state.1 y ∧ Grown fleet y.outside) x :=
    (verifyObject_sound hx).grown.mono fun state y hy => ⟨hy.1, hgrown.trans hy.2⟩
  refine ends_bind.2 ((verifyObject_ends.sound hverify).mono fun verified y hy => ?_)
  obtain ⟨hsource, hverified, hgrown'⟩ := hy
  refine ends_bind.2 (ends_reading (ends_bind.2 ?_))
  have hrepair : Ends (repairWhenObserved survey .repair required verified.1
      (progress.verified verified.1 verified.2)
      (classify survey.agents required.object verified.1 y.store.database)) (fun result _ =>
        Restorable bodyOf known survey.agents fleet required →
          result.2.2 = .durable ∧ result.1.issues = progress.issues) y := by
    by_cases hleft : Restorable bodyOf known survey.agents fleet required
    · refine (repairWhenObserved_ends hverified ?_ hrestorer.found hrestorer.domains hleft.2.2.1
        (hrestorer.online_reachable hgrown')).mono fun _ _ hdurable _ => hdurable
      exact hsource (hleft.exists_intact hrestorer.found hrestorer.online hgrown)
    · exact (ends_trivial _ y).mono fun _ _ _ h => absurd h hleft
  have hjudged : Sound .repair survey.agents (repairWhenObserved survey .repair required verified.1
      (progress.verified verified.1 verified.2)
      (classify survey.agents required.object verified.1 y.store.database)) _ y :=
    repairWhenObserved_sound hverified rfl
  refine (hrepair.sound hjudged).mono fun result z hz => ?_
  obtain ⟨hdurable, hhealth, -, -⟩ := hz
  have hrow : result.1.health = progress.health := hhealth
  dsimp only
  rw [hrow]
  split
  · exact ends_pure ⟨_, rfl, rfl, hdurable⟩
  · exact ends_bind.2 (ends_reading (ends_pure ⟨_, rfl, rfl, hdurable⟩))

/-- The object was found durable. -/
def FoundDurable (health : List ObjectHealth) (object : ObjectId) : Prop :=
  ∃ row ∈ health, row.object = object ∧ row.state = .durable

theorem scrubObjects_ends {seen : Inventories} {wanted : List RequiredObject}
    (hrestorer : Restorer bodyOf known fleet survey) (hx : Surveyed survey x)
    (hgrown : Grown fleet x.outside) :
    Ends (scrubObjects survey .repair seen wanted) (fun progress y =>
      Judging survey (wanted.map (·.object)) x.store.database.toTables [] progress y ∧
        (∀ own ∈ wanted, Restorable bodyOf known survey.agents fleet own →
          FoundDurable progress.health own.object) ∧
        ((∀ own ∈ wanted, Restorable bodyOf known survey.agents fleet own) →
          progress.issues = seen.issues)) x := by
  refine Ends.mono (safe_foldlM_rest (J := fun rest progress y =>
      (Judging survey (wanted.map (·.object)) x.store.database.toTables rest progress y ∧
        Grown fleet y.outside) ∧ (∀ own ∈ wanted, own ∈ rest ∨
          (Restorable bodyOf known survey.agents fleet own →
            FoundDurable progress.health own.object)) ∧
        ((∀ own ∈ wanted, Restorable bodyOf known survey.agents fleet own) → rest ⊆ wanted ∧
          progress.issues = seen.issues))
    (fun own rest progress y hy => ?_) ⟨⟨⟨hx, rfl, rfl, fun _ _ h => absurd h List.not_mem_nil⟩,
      hgrown⟩, fun own hown => .inl hown, fun _ => ⟨List.Subset.refl _, rfl⟩⟩) fun progress y hy =>
        ⟨hy.1.1, fun own hown => (hy.2.1 own hown).resolve_left List.not_mem_nil,
          fun hall => (hy.2.2 hall).2⟩
  obtain ⟨⟨hjudging, hgrown'⟩, hdone, hquiet⟩ := hy
  have hsound : Sound .repair survey.agents (scrubObject survey .repair progress own) _ y :=
    (scrubObject_sound hjudging).grown
  refine ((scrubObject_ends hrestorer hjudging.surveyed hgrown').sound hsound).mono
    fun after z hz => ?_
  obtain ⟨⟨row, hhealth, hobject, hdurable⟩, hjudged, hmore⟩ := hz
  refine ⟨⟨hjudged, hgrown'.trans hmore⟩,
    done_cons hdone (fun hleft => ?_) (fun other hbefore hleft => ?_), fun hall => ?_⟩
  · refine ⟨row, ?_, hobject, (hdurable hleft).1⟩
    exact hhealth ▸ List.mem_append_right _ (List.mem_singleton_self _)
  · obtain ⟨old, hold, hfound⟩ := hbefore hleft
    exact ⟨old, hhealth ▸ List.mem_append_left _ hold, hfound⟩
  · obtain ⟨hsub, hissues⟩ := hquiet hall
    obtain ⟨hown, hrest⟩ := List.cons_subset.1 hsub
    exact ⟨hrest, (hdurable (hall own hown)).2.trans hissues⟩

theorem runJob_ends (hids : (agents.map (·.id)).Nodup)
    (hone : OneActive x.store.database.incarnations)
    (hup : ∀ agent ∈ agents, x.outside.online agent.id = true)
    (hdomains : minimumReplicas ≤ (agents.map (·.failureDomain)).dedup.length) :
    Ends (runJob .repair agents) (fun report y => ∃ wanted,
      y.store.database.requiredObjects = .ok wanted ∧
        (∀ own ∈ wanted, Restorable bodyOf known agents x.outside own →
          FoundDurable y.store.objectHealth own.object) ∧
        report.completeObservation = true ∧
        (Settled agents x.outside x.store.database →
          (∀ own ∈ wanted, Restorable bodyOf known agents x.outside own) →
            report.issues = [])) x := by
  have hsurvey : Sound .repair agents (survey agents) _ x := (survey_sound hids hone).grown
  refine ends_bind.2 (((survey_ends hids hone hup).sound hsurvey).mono fun found y hy => ?_)
  obtain ⟨⟨hsurveyed, hfound, hsettled⟩, -, hgrown⟩ := hy
  refine ends_bind.2 (ends_reading (ends_bind.2 (safe_require fun wanted hknown => ?_)))
  refine ends_bind.2 ((scrubObjects_ends ⟨hfound, hup, hdomains⟩ hsurveyed hgrown).mono
    fun progress z hz => ?_)
  obtain ⟨hjudging, hdurable, hquiet⟩ := hz
  refine ends_bind.2 (ends_write fun s hok => ends_bind.2 (ends_reading (ends_pure ?_)))
  obtain ⟨rows, hrows, hs⟩ := bind_eq_ok.1 hok
  cases hs
  obtain ⟨rfl, -⟩ := foldlM_insertObjectHealth hrows List.nodup_nil
  exact ⟨wanted, (requiredObjects_eq hjudging.tables).trans (toOption_eq_some.1 hknown), hdurable,
    hfound.complete, fun h hall => (hquiet hall).trans (hsettled h)⟩

theorem ends_of_steps {s : Store} {report : ScrubReport} {y : Scene (promptWorld bodyOf known)}
    {Q : ScrubReport → Scene (promptWorld bodyOf known) → Prop}
    (h : Ends (runJob .repair agents) Q ⟨s, fleet, []⟩)
    (hrun : Steps (runJob .repair agents) ⟨s, fleet, []⟩ (.done report) y) : Q report y :=
  (h.steps hrun (fun _ _ h => h) trivial (fun _ _ _ => id) (J := fun _ => True) trivial).2

/-- Among agents that do what they are asked, and in enough failure domains, a repair that finishes
leaves every required object durable of which one intact copy was left. -/
theorem repair_restores {s : Store} {report : ScrubReport} {y : Scene (promptWorld bodyOf known)}
    (hids : (agents.map (·.id)).Nodup) (hone : OneActive s.database.incarnations)
    (hup : ∀ agent ∈ agents, fleet.online agent.id = true)
    (hdomains : minimumReplicas ≤ (agents.map (·.failureDomain)).dedup.length)
    (hrun : Steps (runJob .repair agents) ⟨s, fleet, []⟩ (.done report) y) :
    ∃ wanted, y.store.database.requiredObjects = .ok wanted ∧ ∀ own ∈ wanted,
      Restorable bodyOf known agents fleet own → Durable agents own.object y ∧
        minimumReplicas ≤ heldDomains agents y.outside own.object := by
  obtain ⟨wanted, hwanted, hdurable, -⟩ := ends_of_steps (runJob_ends hids hone hup hdomains) hrun
  have hdone := scrubbed_of_steps hids hone hrun
  have hthere : AllThere y := allThere_of_steps hrun (steps_warranted hids hone hrun).1
  refine ⟨wanted, hwanted, fun own hown hleft => ?_⟩
  obtain ⟨row, hrow, hobject, hstate⟩ := hdurable own hown hleft
  have htrue := hdone.truthful row hrow
  rw [← hobject]
  exact ⟨htrue.isDurable hstate, (htrue.durable.1 hstate).2.1.trans (hthere.counted htrue).2⟩

/-- When no agent was replaced and an intact copy of each required object is left, the repair exits
with 0. -/
theorem repair_exits_clean {s : Store} {report : ScrubReport} {y : Scene (promptWorld bodyOf known)}
    (hids : (agents.map (·.id)).Nodup) (hone : OneActive s.database.incarnations)
    (hup : ∀ agent ∈ agents, fleet.online agent.id = true)
    (hdomains : minimumReplicas ≤ (agents.map (·.failureDomain)).dedup.length)
    (hsettled : Settled agents fleet s.database)
    (hrun : Steps (runJob .repair agents) ⟨s, fleet, []⟩ (.done report) y)
    (hleft : ∀ wanted, y.store.database.requiredObjects = .ok wanted →
      ∀ own ∈ wanted, Restorable bodyOf known agents fleet own) : report.exitCode = 0 := by
  obtain ⟨wanted, hwanted, hdurable, hcomplete, hquiet⟩ :=
    ends_of_steps (runJob_ends hids hone hup hdomains) hrun
  have hdone := scrubbed_of_steps hids hone hrun
  refine exitCode_of_durable hcomplete (hquiet hsettled (hleft wanted hwanted)) hdone.health
    fun row hrow => ?_
  obtain ⟨required, hrequired, hobjects⟩ := hdone.required
  cases hwanted.symm.trans hrequired
  obtain ⟨own, hown, hsame⟩ := List.mem_map.1 (hobjects ▸ List.mem_map_of_mem hrow)
  obtain ⟨found, hfound, hobject, hstate⟩ := hdurable own hown (hleft wanted hwanted own hown)
  obtain rfl := List.inj_on_of_nodup_map hdone.nodup hfound hrow (hobject.trans hsame)
  exact hstate

end

theorem counted_copies_are_held_repaired :
    2 ≤ heldDomains twoAgents (scrubOf .repair).2.outside ⟨.manifest, namingOnly.digest [4, 5]⟩ ∧
      heldDomains twoAgents oneLeft ⟨.manifest, namingOnly.digest [4, 5]⟩ = 1 := by
  let _ := namingOnly
  obtain ⟨report, hdone, hzero⟩ := exists_report
  have hrun := steps_scrubOf .repair
  rw [hdone] at hrun
  obtain ⟨wanted, hwanted, hheld⟩ :=
    (counted_copies_are_held (by decide) oneActive_upload hrun).2 hzero
  have hmem : ∃ own ∈ wanted, own.object = ⟨.manifest, namingOnly.digest [4, 5]⟩ := by
    have hall : ∀ wanted, (scrubOf .repair).2.store.database.requiredObjects.toOption = some wanted →
        ∃ own ∈ wanted, own.object = ⟨.manifest, namingOnly.digest [4, 5]⟩ := by
      decide +kernel
    exact hall wanted (toOption_eq_some.2 hwanted)
  obtain ⟨own, hown, hobject⟩ := hmem
  exact ⟨hobject ▸ hheld own hown, by decide +kernel⟩

/-- Such agents, but what they do not hold they list as a broken copy. -/
def worn : Responder (@promptWorld namingOnly Drain.uploadedBytes stock) := fun fleet q =>
  match q with
  | .inventory agent kind => (some ((stock.filter (·.kind == kind)).map fun object => (object.hash,
      if fleet.holds agent.id object then (Drain.uploadedBytes object).length else 0)), fleet)
  | q => @listing (@Prompt namingOnly Drain.uploadedBytes stock) fleet q

theorem faithful_worn : worn.Faithful := by
  intro fleet q
  let _ := namingOnly
  cases q with
  | health agent =>
    exact ⟨(faithful_listing fleet (.health agent)).1, fun hup => ⟨none, if_pos hup⟩⟩
  | inventory agent kind =>
    refine ⟨rfl, _, rfl, fun entry hentry => ?_, fun entry hentry hheld => ?_⟩
    · obtain ⟨hknown, hheld, hlength⟩ := mem_listingOf.1 hentry
      refine List.mem_map.2 ⟨_, List.mem_filter.2 ⟨hknown, beq_self_eq_true kind⟩, ?_⟩
      rw [if_pos hheld, ← hlength]
    · obtain ⟨⟨own, hash⟩, hown, rfl⟩ := List.mem_map.1 hentry
      obtain rfl : own = kind := eq_of_beq (List.mem_filter.1 hown).2
      exact if_pos hheld
  | get agent object =>
    exact ⟨(faithful_listing fleet (.get agent object)).1,
      fun hserves => if_pos (Bool.and_eq_true_iff.2 hserves)⟩
  | put agent object bytes =>
    refine ⟨(faithful_listing fleet (.put agent object bytes)).1, fun hup hbytes => ?_⟩
    exact congrArg Prod.fst (if_pos ⟨hbytes, hup⟩)
  | _ => exact ⟨(faithful_listing fleet _).1, trivial⟩

/-- The upload is repaired by such agents. -/
def restored : Job ScrubReport × Scene (@promptWorld namingOnly Drain.uploadedBytes stock) :=
  letI := namingOnly
  advance worn 1000 (runJob .repair twoAgents) ⟨⟨(uploadAt 1000 1000 .new).2, []⟩, oneLeft, []⟩

theorem exists_restored : ∃ report, restored.1 = .done report := by
  have hdone : ∃ report, restored.1.result = some report :=
    Option.isSome_iff_exists.1 (by decide +kernel)
  exact hdone.imp fun _ h => eq_done h

theorem steps_restored : Steps (@runJob namingOnly .repair twoAgents)
    ⟨⟨(uploadAt 1000 1000 .new).2, []⟩, oneLeft, []⟩ restored.1 restored.2 :=
  let _ := namingOnly
  steps_advance faithful_worn 1000 _ _

/-- The manifest is required, and whatever is required is left on the first agent. -/
theorem restorable_wanted {wanted : List RequiredObject}
    (hwanted : restored.2.store.database.requiredObjects = .ok wanted) :
    (∃ own ∈ wanted, own.object = ⟨.manifest, namingOnly.digest [4, 5]⟩) ∧
      ∀ own ∈ wanted, @Restorable namingOnly Drain.uploadedBytes stock twoAgents oneLeft own := by
  have hall : ∀ wanted, restored.2.store.database.requiredObjects.toOption = some wanted →
      (∃ own ∈ wanted, own.object = ⟨.manifest, namingOnly.digest [4, 5]⟩) ∧
        ∀ own ∈ wanted, own.object ∈ stock ∧
          (∃ agent ∈ twoAgents, oneLeft.holds agent.id own.object = true) ∧
          namingOnly.digest (Drain.uploadedBytes own.object) = own.object.hash ∧
          own.expectedLen.all (· == (Drain.uploadedBytes own.object).length) = true := by
    decide +kernel
  exact hall wanted (toOption_eq_some.2 hwanted)

theorem repair_restores_restored :
    @Durable _ namingOnly twoAgents ⟨.manifest, namingOnly.digest [4, 5]⟩ restored.2 ∧
      heldDomains twoAgents oneLeft ⟨.manifest, namingOnly.digest [4, 5]⟩ = 1 := by
  let _ := namingOnly
  obtain ⟨report, hdone⟩ := exists_restored
  have hrun := steps_restored
  rw [hdone] at hrun
  obtain ⟨wanted, hwanted, hdurable⟩ :=
    repair_restores (by decide) oneActive_upload (fun _ _ => rfl) (by decide) hrun
  obtain ⟨⟨own, hown, hobject⟩, hleft⟩ := restorable_wanted hwanted
  exact ⟨hobject ▸ (hdurable own hown (hleft own hown)).1, by decide +kernel⟩

theorem repair_exits_clean_restored :
    ∃ report, restored.1 = .done report ∧ report.exitCode = 0 := by
  let _ := namingOnly
  obtain ⟨report, hdone⟩ := exists_restored
  have hrun := steps_restored
  rw [hdone] at hrun
  refine ⟨report, hdone, repair_exits_clean (by decide) oneActive_upload (fun _ _ => rfl)
    (by decide) ?_ hrun fun wanted hwanted => (restorable_wanted hwanted).2⟩
  unfold Settled
  decide +kernel

end Scrub

end Metadata

end DistrHnsw
