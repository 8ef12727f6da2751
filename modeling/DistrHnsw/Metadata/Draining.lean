import DistrHnsw.Lib.Rows
import DistrHnsw.Metadata.Drain
import DistrHnsw.Metadata.Placements
import DistrHnsw.Metadata.PortalRuns
import DistrHnsw.Metadata.Visibility

/-!
# The floor while draining

A drain counts the copies it can read; the floor is about confirmed placements.  As long as every
copy that is counted lies in a domain where the object is confirmed, no drain takes an object below
the floor; a copy left on an agent that was drained before shows what happens otherwise.
-/

namespace DistrHnsw

namespace Metadata

namespace Drain

open Program Portal Database

/-! ## Confirmed domains -/

section

variable {db db₁ db₂ : Database} {object thing : ObjectId} {drained : AgentId} {domain : Domain}

/-- A placement of the object that counts is in the domain. -/
def Confirmed (db : Database) (object : ObjectId) (domain : Domain) : Prop :=
  ∃ row ∈ db.placements, row.object = object ∧ db.liveConfirmed row = true ∧
    row.failureDomain = domain

/-- A placement of the object that counts is in the domain, on another agent. -/
def ConfirmedOff (db : Database) (drained : AgentId) (object : ObjectId) (domain : Domain) : Prop :=
  ∃ row ∈ db.placements, row.object = object ∧ row.agentId ≠ drained ∧
    db.liveConfirmed row = true ∧ row.failureDomain = domain

theorem ConfirmedOff.confirmed (h : ConfirmedOff db drained object domain) :
    Confirmed db object domain := by
  obtain ⟨row, hrow, hobject, -, hrest⟩ := h
  exact ⟨row, hrow, hobject, hrest⟩

theorem two_le_confirmedDomains : 2 ≤ db.confirmedDomains object ↔
    ∃ a b, a ≠ b ∧ Confirmed db object a ∧ Confirmed db object b := by
  have hmem (domain : Domain) : domain ∈ (db.placements.filter fun row =>
      row.object == object && db.liveConfirmed row).map (·.failureDomain) ↔
        Confirmed db object domain := by
    simp [Confirmed, List.mem_map, List.mem_filter, and_assoc]
  constructor
  · intro h
    obtain ⟨a, ha, b, hb, hne⟩ := two_le_dedup_length h
    exact ⟨a, b, hne, (hmem a).1 ha, (hmem b).1 hb⟩
  · rintro ⟨a, b, hne, ha, hb⟩
    exact two_le_dedup_of_ne ((hmem a).2 ha) ((hmem b).2 hb) hne

/-- Every placement that counts has one that counts in its place and domain. -/
def Covers (db db' : Database) : Prop :=
  ∀ row ∈ db.placements, db.liveConfirmed row = true → ∃ row' ∈ db'.placements,
    SamePlace row' row ∧ row'.failureDomain = row.failureDomain ∧ db'.liveConfirmed row' = true

theorem Covers.confirmed (h : Covers db db₁) (hd : Confirmed db object domain) :
    Confirmed db₁ object domain := by
  obtain ⟨row, hrow, rfl, hlive, rfl⟩ := hd
  obtain ⟨row', hrow', hplace, hdomain, hlive'⟩ := h row hrow hlive
  exact ⟨row', hrow', hplace.1, hlive', hdomain⟩

theorem Covers.confirmedOff (h : Covers db db₁) (hd : ConfirmedOff db drained object domain) :
    ConfirmedOff db₁ drained object domain := by
  obtain ⟨row, hrow, rfl, hagent, hlive, rfl⟩ := hd
  obtain ⟨row', hrow', hplace, hdomain, hlive'⟩ := h row hrow hlive
  exact ⟨row', hrow', hplace.1, fun heq => hagent (hplace.2.symm.trans heq), hlive', hdomain⟩

theorem Covers.two_le (h : Covers db db₁) (hfloor : 2 ≤ db.confirmedDomains object) :
    2 ≤ db₁.confirmedDomains object := by
  obtain ⟨a, b, hne, ha, hb⟩ := two_le_confirmedDomains.1 hfloor
  exact two_le_confirmedDomains.2 ⟨a, b, hne, h.confirmed ha, h.confirmed hb⟩

/-- The incarnations are the same, and so are the placements of other objects. -/
structure OnlyObject (object : ObjectId) (db db' : Database) : Prop where
  incarnations : db'.incarnations = db.incarnations
  rows : ∀ row, row.object ≠ object → (row ∈ db'.placements ↔ row ∈ db.placements)

theorem OnlyObject.liveConfirmed (h : OnlyObject object db db₁) (row : Placement) :
    db₁.liveConfirmed row = db.liveConfirmed row := by
  have hactive : db₁.activeIncarnation = db.activeIncarnation := by
    unfold Database.activeIncarnation
    rw [h.incarnations]
  unfold Database.liveConfirmed
  rw [hactive]

theorem OnlyObject.confirmed (h : OnlyObject object db db₁) (hne : thing ≠ object) :
    Confirmed db₁ thing domain ↔ Confirmed db thing domain := by
  constructor
  · rintro ⟨row, hrow, rfl, hlive, hdomain⟩
    exact ⟨row, (h.rows row hne).1 hrow, rfl, h.liveConfirmed row ▸ hlive, hdomain⟩
  · rintro ⟨row, hrow, rfl, hlive, hdomain⟩
    exact ⟨row, (h.rows row hne).2 hrow, rfl, (h.liveConfirmed row).trans hlive, hdomain⟩

theorem OnlyObject.confirmedOff (h : OnlyObject object db db₁) (hne : thing ≠ object) :
    ConfirmedOff db₁ drained thing domain ↔ ConfirmedOff db drained thing domain := by
  constructor
  · rintro ⟨row, hrow, rfl, hagent, hlive, hdomain⟩
    exact ⟨row, (h.rows row hne).1 hrow, rfl, hagent, h.liveConfirmed row ▸ hlive, hdomain⟩
  · rintro ⟨row, hrow, rfl, hagent, hlive, hdomain⟩
    exact ⟨row, (h.rows row hne).2 hrow, rfl, hagent, (h.liveConfirmed row).trans hlive, hdomain⟩

/-! ## The writes of a drain -/

/-- The placement is under an incarnation that ended. -/
def Ended (db : Database) (row : Placement) : Prop :=
  ∃ other ∈ db.incarnations, row.incarnationId = some other.incarnationId ∧ other.status ≠ .active

theorem not_ended_of_liveConfirmed (hkeyed : Keyed db) {row : Placement}
    (hlive : db.liveConfirmed row = true) : ¬ Ended db row := by
  rintro ⟨other, hother, hincarnation, hstatus⟩
  simp only [liveConfirmed, hincarnation, Option.all_some, Bool.and_eq_true, activeIncarnation,
    List.any_eq_true, beq_iff_eq] at hlive
  obtain ⟨-, active, hactive, hid, hstatus'⟩ := hlive
  rw [hkeyed.active.unique hactive hother hid] at hstatus'
  exact hstatus hstatus'

/-- The placements of the object on the agent are recorded where the agent is. -/
def RecordedAt (db : Database) (object : ObjectId) (agent : AgentTarget) : Prop :=
  ∀ row ∈ db.placements, row.object = object → row.agentId = agent.id → ¬ Ended db row →
    row.failureDomain = agent.failureDomain

/-- A row as a verification leaves it. -/
def confirmedRow (agent : AgentTarget) (incarnation : IncarnationId) (row : Placement) : Placement :=
  { adoptPlacement agent incarnation row with state := .confirmed }

/-- Two updates of one placement are one. -/
theorem updatePlacement_twice {agent : AgentId} {f g : Placement → Placement}
    (hf : ∀ row, SamePlace (f row) row) : (db.updatePlacement object agent f).updatePlacement object
      agent g = db.updatePlacement object agent fun row => g (f row) := by
  have hrows : (db.placements.map fun row =>
      if row.object = object ∧ row.agentId = agent then f row else row).map
        (fun row => if row.object = object ∧ row.agentId = agent then g row else row) =
      db.placements.map fun row =>
        if row.object = object ∧ row.agentId = agent then g (f row) else row := by
    rw [List.map_map]
    refine List.map_congr_left fun row _ => ?_
    by_cases hthis : row.object = object ∧ row.agentId = agent
    · simp [hthis, (hf row).1, (hf row).2]
    · simp [hthis]
  unfold updatePlacement
  rw [hrows]

theorem updatePlacement_of_not {agent : AgentId} {f : Placement → Placement} {rows : List Placement}
    (h : ∀ row ∈ rows, ¬ (row.object = object ∧ row.agentId = agent)) :
    rows.map (fun row => if row.object = object ∧ row.agentId = agent then f row else row) = rows :=
  (List.map_congr_left fun row hrow => if_neg (h row hrow)).trans (List.map_id' rows)

/-- The placement is confirmed, or a confirmed one is added. -/
theorem setPlacementVerification_cases {agent : AgentTarget} {incarnation : IncarnationId}
    (hok : db.setPlacementVerification object agent incarnation .confirmed = .ok db₁) :
    (db₁ = db.updatePlacement object agent.id (confirmedRow agent incarnation) ∧
        ∃ row ∈ db.placements, row.object = object ∧ row.agentId = agent.id) ∨
      (∀ row ∈ db.placements, ¬ (row.object = object ∧ row.agentId = agent.id)) ∧
        db₁ = { db with placements := db.placements ++
          [⟨object, agent.id, agent.failureDomain, some incarnation, .confirmed⟩] } := by
  unfold setPlacementVerification at hok
  rw [if_neg (by decide)] at hok
  cases hok
  rcases ensurePendingPlacement_cases db object agent incarnation with ⟨hsome, heq⟩ | ⟨hnone, heq⟩
  · refine .inl ⟨?_, ?_⟩
    · rw [heq, updatePlacement_twice (adoptPlacement_same agent incarnation)]
      rfl
    · simpa [hasPlacement, List.any_eq_true] using hsome
  · have hno : ∀ row ∈ db.placements, ¬ (row.object = object ∧ row.agentId = agent.id) := by
      simpa [hasPlacement, List.any_eq_false] using hnone
    refine .inr ⟨hno, ?_⟩
    rw [heq]
    unfold updatePlacement
    simp [updatePlacement_of_not hno]

/-- What a confirmed copy changes. -/
theorem setPlacementVerification_spec {agent : AgentTarget} {incarnation : IncarnationId}
    (hkeyed : Keyed db) (hactive : db.activeIncarnation incarnation = true)
    (hplace : RecordedAt db object agent)
    (hok : db.setPlacementVerification object agent incarnation .confirmed = .ok db₁) :
    Covers db db₁ ∧ OnlyObject object db db₁ ∧
      (∀ row ∈ db₁.placements, row.agentId ≠ agent.id → row ∈ db.placements) ∧
      ∃ row ∈ db₁.placements, row.object = object ∧ row.agentId = agent.id ∧
        db₁.liveConfirmed row = true ∧ row.failureDomain = agent.failureDomain := by
  have hlive {row : Placement} (hstate : row.state = .confirmed)
      (hunder : row.incarnationId = some incarnation) : db.liveConfirmed row = true := by
    simp [liveConfirmed, hstate, hunder, hactive]
  -- Neither the place nor, while it counts, the domain of a row changes.
  have hconfirmed (row : Placement) : SamePlace (confirmedRow agent incarnation row) row ∧
      (confirmedRow agent incarnation row).state = .confirmed ∧
      (confirmedRow agent incarnation row).incarnationId = some incarnation ∧
      (row.failureDomain = agent.failureDomain →
        (confirmedRow agent incarnation row).failureDomain = agent.failureDomain) ∧
      (row.incarnationId ≠ some incarnation →
        (confirmedRow agent incarnation row).failureDomain = agent.failureDomain) := by
    unfold confirmedRow adoptPlacement
    split
    · next hsame => exact ⟨⟨rfl, rfl⟩, rfl, hsame, fun h => h, fun h => absurd hsame h⟩
    · exact ⟨⟨rfl, rfl⟩, rfl, rfl, fun _ => rfl, fun _ => rfl⟩
  have hnotEnded {row : Placement} (hunder : row.incarnationId = some incarnation) :
      ¬ Ended db row := by
    rintro ⟨other, hother, hincarnation, hstatus⟩
    simp only [activeIncarnation, List.any_eq_true, Bool.and_eq_true, beq_iff_eq] at hactive
    obtain ⟨active, hmem, hid, hstatus'⟩ := hactive
    rw [hunder, Option.some.injEq] at hincarnation
    rw [hkeyed.active.unique hmem hother (hid.trans hincarnation)] at hstatus'
    exact hstatus hstatus'
  rcases setPlacementVerification_cases hok with ⟨rfl, row, hrow, hobject, hagent⟩ | ⟨hno, rfl⟩
  · refine ⟨fun row hrow hcounts => ?_, ⟨rfl, fun row hne => ?_⟩, fun row hrow hne => ?_, ?_⟩
    · by_cases hthis : row.object = object ∧ row.agentId = agent.id
      · obtain ⟨hsame, hstate, hunder, hdomain, -⟩ := hconfirmed row
        refine ⟨_, List.mem_map.2 ⟨row, hrow, if_pos hthis⟩, hsame, ?_, hlive hstate hunder⟩
        have hrecorded := hplace row hrow hthis.1 hthis.2 (not_ended_of_liveConfirmed hkeyed hcounts)
        rw [hdomain hrecorded, hrecorded]
      · exact ⟨row, List.mem_map.2 ⟨row, hrow, if_neg hthis⟩, ⟨rfl, rfl⟩, rfl, hcounts⟩
    · constructor
      · intro hrow
        rcases mem_updatePlacement hrow with hrow | ⟨old, -, hobject, -, rfl⟩
        · exact hrow
        · exact absurd ((hconfirmed old).1.1.trans hobject) hne
      · exact fun hrow => List.mem_map.2 ⟨row, hrow, if_neg fun h => hne h.1⟩
    · rcases mem_updatePlacement hrow with hrow | ⟨old, -, -, hagent, rfl⟩
      · exact hrow
      · exact absurd ((hconfirmed old).1.2.trans hagent) hne
    · obtain ⟨hsame, hstate, hunder, hkept, hmoved⟩ := hconfirmed row
      refine ⟨_, List.mem_map.2 ⟨row, hrow, if_pos ⟨hobject, hagent⟩⟩, hsame.1.trans hobject,
        hsame.2.trans hagent, hlive hstate hunder, ?_⟩
      by_cases hold : row.incarnationId = some incarnation
      · exact hkept (hplace row hrow hobject hagent (hnotEnded hold))
      · exact hmoved hold
  · refine ⟨fun row hrow hcounts => ⟨row, List.mem_append_left _ hrow, ⟨rfl, rfl⟩, rfl, hcounts⟩,
      ⟨rfl, fun row hne => ?_⟩, fun row hrow hne => ?_, ?_⟩
    · rw [List.mem_append, List.mem_singleton]
      refine ⟨fun h => h.resolve_right fun h => ?_, .inl⟩
      rw [h] at hne
      exact hne rfl
    · rcases List.mem_append.1 hrow with hrow | hrow
      · exact hrow
      · rw [List.mem_singleton.1 hrow] at hne
        exact absurd rfl hne
    · exact ⟨_, List.mem_append_right _ (List.mem_singleton_self _), rfl, rfl, hlive rfl rfl, rfl⟩

/-- Orphaning the source leaves the copies on other agents. -/
theorem setPlacementState_spec (hok : db.setPlacementState object drained .orphaned = .ok db₁) :
    OnlyObject object db db₁ ∧ ∀ domain, ConfirmedOff db drained object domain →
      Confirmed db₁ object domain := by
  unfold setPlacementState at hok
  split at hok
  · cases hok
    refine ⟨⟨rfl, fun row hne => ⟨fun hrow => ?_, fun hrow => ?_⟩⟩, ?_⟩
    · rcases mem_updatePlacement hrow with hrow | ⟨old, -, hobject, -, rfl⟩
      · exact hrow
      · exact absurd hobject hne
    · exact List.mem_map.2 ⟨row, hrow, if_neg fun h => hne h.1⟩
    · rintro domain ⟨row, hrow, hobject, hagent, hlive, hdomain⟩
      exact ⟨row, List.mem_map.2 ⟨row, hrow, if_neg fun h => hagent h.2⟩, hobject, hlive, hdomain⟩
  · cases hok

/-- What an observation of the incarnation that is active, or of the first one, changes. -/
structure Observed (db : Database) (agent : AgentTarget) (incarnation : IncarnationId)
    (db' : Database) : Prop where
  covers : Covers db db'
  active : db'.activeIncarnation incarnation = true
  stays : ∀ id, db.activeIncarnation id = true → db'.activeIncarnation id = true
  owners : ∀ row ∈ db'.incarnations, row.status = .active →
    (∃ old ∈ db.incarnations, old.incarnationId = row.incarnationId ∧ old.agentId = row.agentId ∧
      old.status = .active) ∨ row.agentId = agent.id ∧ row.incarnationId = incarnation
  rows : ∀ row ∈ db'.placements, ¬ Ended db' row → ∃ old ∈ db.placements, SamePlace row old ∧
    row.failureDomain = old.failureDomain ∧ ¬ Ended db old

theorem activeIncarnation_iff {id : IncarnationId} : db.activeIncarnation id = true ↔
    ∃ row ∈ db.incarnations, row.incarnationId = id ∧ row.status = .active := by
  simp [activeIncarnation, List.any_eq_true]

theorem observed {agent : AgentTarget} {incarnation : IncarnationId}
    (hreports : ∀ row ∈ db.incarnations, row.agentId = agent.id → row.status = .active →
      row.incarnationId = incarnation)
    (hok : db.observeAgentIncarnation agent incarnation = .ok db₁) :
    Observed db agent incarnation db₁ := by
  have hcovers {db' : Database} {row : Placement} (hlive : db.liveConfirmed row = true)
      (hstays : ∀ id, db.activeIncarnation id = true → db'.activeIncarnation id = true) :
      db'.liveConfirmed row = true := by
    unfold liveConfirmed at hlive ⊢
    cases hunder : row.incarnationId with
    | none => simpa [hunder] using hlive
    | some id =>
      simp only [hunder, Option.all_some, Bool.and_eq_true] at hlive ⊢
      exact ⟨hlive.1, hstays id hlive.2⟩
  rcases observeAgentIncarnation_cases hok with
    ⟨row, hrow, hagent, hstatus, hid, rfl⟩ | ⟨old, hold, hagent, hstatus, hfresh, -, -⟩ |
    ⟨hnone, hfresh, hincarnations, hplacements⟩
  · -- A known incarnation keeps its status.
    have hmem {other : Incarnation} (h : other ∈ db.incarnations) : ∃ other' ∈
        (db.updateIncarnation incarnation fun row => { row with failureDomain :=
          agent.failureDomain }).incarnations, other'.incarnationId = other.incarnationId ∧
          other'.agentId = other.agentId ∧ other'.status = other.status := by
      refine ⟨_, List.mem_map.2 ⟨other, h, rfl⟩, ?_⟩
      split <;> exact ⟨rfl, rfl, rfl⟩
    have hstays : ∀ id, db.activeIncarnation id = true → (db.updateIncarnation incarnation
        fun row => { row with failureDomain := agent.failureDomain }).activeIncarnation id = true := by
      intro id h
      obtain ⟨other, hother, rfl, hactive⟩ := activeIncarnation_iff.1 h
      obtain ⟨other', hother', hid', -, hstatus'⟩ := hmem hother
      exact activeIncarnation_iff.2 ⟨other', hother', hid', hstatus'.trans hactive⟩
    refine ⟨fun p hp hlive => ⟨p, hp, ⟨rfl, rfl⟩, rfl, hcovers hlive hstays⟩,
      hstays _ (activeIncarnation_iff.2 ⟨row, hrow, hid, hstatus⟩), hstays, fun other hother hactive =>
        .inl ?_, fun p hp hended => ⟨p, hp, ⟨rfl, rfl⟩, rfl, fun h => hended ?_⟩⟩
    · obtain ⟨own, hown, rfl⟩ := List.mem_map.1 hother
      refine ⟨own, hown, ?_⟩
      split at hactive <;> split <;> exact ⟨rfl, rfl, hactive⟩
    · obtain ⟨other, hother, hunder, hstatus⟩ := h
      obtain ⟨other', hother', hid', -, hstatus'⟩ := hmem hother
      exact ⟨other', hother', by rw [hunder, hid'], hstatus' ▸ hstatus⟩
  · exact absurd (hreports old hold hagent hstatus) (hfresh old hold)
  · -- The first incarnation of the agent adopts what it held.
    have hstays : ∀ id, db.activeIncarnation id = true → db₁.activeIncarnation id = true := by
      intro id h
      obtain ⟨other, hother, hrest⟩ := activeIncarnation_iff.1 h
      refine activeIncarnation_iff.2 ⟨other, ?_, hrest⟩
      rw [hincarnations]
      exact List.mem_append_left _ hother
    have hactive : db₁.activeIncarnation incarnation = true := by
      refine activeIncarnation_iff.2 ⟨⟨agent.id, incarnation, agent.failureDomain, .active⟩, ?_, rfl, rfl⟩
      rw [hincarnations]
      exact List.mem_append_right _ (List.mem_singleton_self _)
    refine ⟨fun p hp hlive => ?_, hactive, hstays, fun other hother hstatus => ?_,
      fun p hp hended => ?_⟩
    · refine ⟨_, hplacements ▸ List.mem_map.2 ⟨p, hp, rfl⟩, ?_⟩
      split
      · next hadopted =>
        refine ⟨⟨rfl, rfl⟩, rfl, ?_⟩
        simp only [liveConfirmed, hadopted.2, Option.all_none, Bool.and_true] at hlive
        simp [liveConfirmed, hlive, hactive]
      · exact ⟨⟨rfl, rfl⟩, rfl, hcovers hlive hstays⟩
    · rw [hincarnations] at hother
      rcases List.mem_append.1 hother with hother | hother
      · exact .inl ⟨other, hother, rfl, rfl, hstatus⟩
      · rw [List.mem_singleton.1 hother]
        exact .inr ⟨rfl, rfl⟩
    · rw [hplacements] at hp
      obtain ⟨old, hold, rfl⟩ := List.mem_map.1 hp
      refine ⟨old, hold, ?_⟩
      split at hended
      · next hadopted =>
        rw [if_pos hadopted]
        refine ⟨⟨rfl, rfl⟩, rfl, ?_⟩
        rintro ⟨other, -, hunder, -⟩
        rw [hadopted.2] at hunder
        cases hunder
      · next hnot =>
        rw [if_neg hnot]
        refine ⟨⟨rfl, rfl⟩, rfl, fun h => hended ?_⟩
        obtain ⟨other, hother, hrest⟩ := h
        exact ⟨other, hincarnations ▸ List.mem_append_left _ hother, hrest⟩

end

/-! ## The run -/

section

variable [Sealing] {agents : List AgentTarget} {drained : AgentId} {live : List LiveAgent}
  {history : List HistoryObject} {object thing : ObjectId} {rest : List ObjectId}
  {x y : Scene fleetWorld}

/-- Every history object has confirmed placements that count in two domains. -/
def Floor (db : Database) : Prop :=
  ∀ row ∈ db.historyObjects, 2 ≤ db.confirmedDomains row.object

/-- Two domains are confirmed without the drained agent, or every copy that can be read there lies
in a confirmed one. -/
def Backed (agents : List AgentTarget) (drained : AgentId) (db : Database) (fleet : Fleet)
    (object : ObjectId) : Prop :=
  (∃ a b, a ≠ b ∧ ConfirmedOff db drained object a ∧ ConfirmedOff db drained object b) ∨
    ∀ agent ∈ agents, agent.id ≠ drained → fleet.online agent.id = true →
      fleet.holds agent.id object = true → ConfirmedOff db drained object agent.failureDomain

/-- The state of a drain with some objects still to go. -/
structure Draining (agents : List AgentTarget) (drained : AgentId) (live : List LiveAgent)
    (history : List HistoryObject) (rest : List ObjectId) (x : Scene fleetWorld) : Prop where
  keyed : Keyed x.store
  sameHistory : x.store.historyObjects = history
  floor : ∀ row ∈ history, 2 ≤ x.store.confirmedDomains row.object
  live : ∀ agent ∈ live, agent.target ∈ agents ∧ x.outside.online agent.target.id = true ∧
    x.store.activeIncarnation agent.incarnationId = true
  recorded : ∀ object ∈ rest, (∃ row ∈ history, row.object = object) → ∀ agent ∈ agents,
    x.outside.online agent.id = true → RecordedAt x.store object agent
  backed : ∀ object ∈ rest, (∃ row ∈ history, row.object = object) →
    Backed agents drained x.store x.outside object

theorem Draining.floor_store (h : Draining agents drained live history rest x) : Floor x.store := by
  unfold Floor
  rw [h.sameHistory]
  exact h.floor

/-- Answers about other objects change nothing. -/
theorem Draining.asked (h : Draining agents drained live history rest x)
    (hstore : y.store = x.store) (honline : y.outside.online = x.outside.online)
    (hholds : ∀ object ∈ rest, ∀ agent, y.outside.holds agent object = x.outside.holds agent object) :
    Draining agents drained live history rest y where
  keyed := hstore ▸ h.keyed
  sameHistory := hstore ▸ h.sameHistory
  floor := hstore ▸ h.floor
  live := by
    rw [hstore, honline]
    exact h.live
  recorded := by
    rw [hstore, honline]
    exact h.recorded
  backed thing hthing hhistory := by
    rw [hstore]
    refine (h.backed thing hthing hhistory).imp id fun hcopies agent hagent hne hup hholds' => ?_
    rw [honline] at hup
    rw [hholds thing hthing] at hholds'
    exact hcopies agent hagent hne hup hholds'

/-- A write about an object that is done changes nothing else. -/
theorem Draining.wrote (h : Draining agents drained live history rest x) {w : Write} {s : Database}
    (hok : w.perform x.store = .ok s) (honly : OnlyObject object x.store s)
    (hhistory : s.historyObjects = x.store.historyObjects) (hnot : object ∉ rest)
    (hfloor : ∀ row ∈ history, row.object = object → 2 ≤ s.confirmedDomains row.object) :
    Draining agents drained live history rest (x.wrote w s) where
  keyed := (Written.step (.start _) w hok).keyed h.keyed
  sameHistory := hhistory.trans h.sameHistory
  floor row hrow := by
    by_cases hthis : row.object = object
    · exact hfloor row hrow hthis
    · obtain ⟨a, b, hne, ha, hb⟩ := two_le_confirmedDomains.1 (h.floor row hrow)
      exact two_le_confirmedDomains.2
        ⟨a, b, hne, (honly.confirmed hthis).2 ha, (honly.confirmed hthis).2 hb⟩
  live agent hagent := by
    obtain ⟨hmem, hup, hactive⟩ := h.live agent hagent
    refine ⟨hmem, hup, ?_⟩
    obtain ⟨row, hrow, hrest⟩ := activeIncarnation_iff.1 hactive
    exact activeIncarnation_iff.2 ⟨row, honly.incarnations ▸ hrow, hrest⟩
  recorded thing hthing hhist agent hagent hup row hrow hobject hid hended := by
    have hne : row.object ≠ object := fun heq => hnot ((hobject.symm.trans heq) ▸ hthing)
    refine h.recorded thing hthing hhist agent hagent hup row ((honly.rows row hne).1 hrow) hobject hid
      fun hbefore => hended ?_
    obtain ⟨other, hother, hend⟩ := hbefore
    exact ⟨other, honly.incarnations ▸ hother, hend⟩
  backed thing hthing hhist := by
    have hne : thing ≠ object := fun heq => hnot (heq ▸ hthing)
    rcases h.backed thing hthing hhist with ⟨a, b, hab, ha, hb⟩ | hcopies
    · exact .inl ⟨a, b, hab, (honly.confirmedOff hne).2 ha, (honly.confirmedOff hne).2 hb⟩
    · exact .inr fun agent hagent hother hup hholds =>
        (honly.confirmedOff hne).2 (hcopies agent hagent hother hup hholds)

theorem Draining.tail (h : Draining agents drained live history (object :: rest) x) :
    Draining agents drained live history rest x :=
  ⟨h.keyed, h.sameHistory, h.floor, h.live,
    fun thing hthing => h.recorded thing (List.mem_cons_of_mem _ hthing),
    fun thing hthing => h.backed thing (List.mem_cons_of_mem _ hthing)⟩

/-! ### Copies -/

/-- Every step leaves the floor. -/
abbrev KeepsFloor : Scene (fleetWorld) → Scene fleetWorld → Prop := fun _ y => Floor y.store

/-- A copy that is read intact is held by an online agent. -/
theorem fetchValid_safe {Q : Option Bytes → Scene fleetWorld → Prop} (agent : AgentTarget)
    (hfloor : Floor x.store)
    (hQ : ∀ got y, y.store = x.store → y.outside = x.outside →
      (got.isSome → x.outside.online agent.id = true ∧ x.outside.holds agent.id object = true) →
      Q got y) :
    (fetchValid agent object).Safe (fun _ => True) Eq KeepsFloor Q x := by
  refine safe_bind.2 (safe_query.2 ?_)
  rintro x rfl answer fleet hanswers -
  obtain ⟨rfl, hgets⟩ : fleet = x.outside ∧ x.outside.gets agent object answer := hanswers
  refine ⟨hfloor, ?_⟩
  cases answer with
  | failed => exact hQ none _ rfl rfl fun h => nomatch h
  | refused => exact hQ none _ rfl rfl fun h => nomatch h
  | body bytes =>
    refine hQ _ _ rfl rfl fun h => ?_
    by_cases hdigest : Sealing.digest bytes = object.hash
    · exact hgets hdigest
    · rw [if_neg hdigest] at h
      cases h

/-- Every copy is one that an online agent holds. -/
def AllHeld (live : List LiveAgent) (fleet : Fleet) (object : ObjectId) (valid : List (AgentId × Domain)) :
    Prop :=
  ∀ copy ∈ valid, ∃ agent ∈ live, (agent.target.id, agent.target.failureDomain) = copy ∧
    fleet.holds agent.target.id object = true

omit [Sealing] in
theorem mem_insertCopy {valid : List (AgentId × Domain)} {agent : AgentTarget}
    {copy : AgentId × Domain} (h : copy ∈ insertCopy valid agent) :
    copy = (agent.id, agent.failureDomain) ∨ copy ∈ valid := by
  rcases List.mem_cons.1 h with h | h
  · exact .inl h
  · exact .inr (List.mem_filter.1 h).1

/-- Reading the copies changes nothing. -/
theorem readCopies_safe (hx : Draining agents drained live history rest x) :
    (live.foldlM (readCopy drained object) ⟨[], none⟩).Safe (fun _ => True) Eq KeepsFloor
      (fun copies y => y.store = x.store ∧ y.outside = x.outside ∧
        AllHeld live x.outside object copies.valid) x := by
  refine safe_foldlM (J := fun (copies : Copies) y => y.store = x.store ∧ y.outside = x.outside ∧
    AllHeld live x.outside object copies.valid) (fun agent hagent copies y hy => ?_)
    ⟨rfl, rfl, fun _ h => absurd h List.not_mem_nil⟩
  refine safe_bind.2 (fetchValid_safe agent.target (hy.1 ▸ hx.floor_store)
    fun got z hstore houtside hgot => ?_)
  have hsame : z.store = x.store ∧ z.outside = x.outside :=
    ⟨hstore.trans hy.1, houtside.trans hy.2.1⟩
  cases got with
  | none => exact ⟨hsame.1, hsame.2, hy.2.2⟩
  | some bytes =>
    refine ⟨hsame.1, hsame.2, fun copy hcopy => ?_⟩
    rcases mem_insertCopy hcopy with rfl | hcopy
    · exact ⟨agent, hagent, rfl, hy.2.1 ▸ (hgot rfl).2⟩
    · exact hy.2.2 copy hcopy

/-- The copies counted so far are in confirmed domains, unless two are confirmed anyway, and those
that may still be placed will be recorded where their agents are. -/
structure Counting (agents : List AgentTarget) (drained : AgentId) (live : List LiveAgent)
    (history : List HistoryObject) (rest : List ObjectId) (object : ObjectId)
    (valid : List (AgentId × Domain)) (x : Scene fleetWorld) : Prop where
  draining : Draining agents drained live history rest x
  backed : (∃ a b, a ≠ b ∧ ConfirmedOff x.store drained object a ∧
    ConfirmedOff x.store drained object b) ∨
      ∀ copy ∈ valid, copy.1 ≠ drained → ConfirmedOff x.store drained object copy.2
  recorded : ∀ agent ∈ agents, x.outside.online agent.id = true →
    (∀ copy ∈ valid, copy.1 ≠ agent.id) → RecordedAt x.store object agent

/-- Enough copies are enough confirmed domains. -/
theorem Counting.two_confirmed {valid : List (AgentId × Domain)}
    (h : Counting agents drained live history rest object valid x)
    (hsatisfied : satisfied drained valid = true) :
    ∃ a b, a ≠ b ∧ ConfirmedOff x.store drained object a ∧ ConfirmedOff x.store drained object b := by
  rcases h.backed with htwo | hcopies
  · exact htwo
  · simp only [satisfied, Bool.and_eq_true, decide_eq_true_eq] at hsatisfied
    obtain ⟨a, ha, b, hb, hne⟩ := two_le_dedup_length hsatisfied.1
    obtain ⟨copyA, hcopyA, rfl⟩ := List.mem_map.1 ha
    obtain ⟨copyB, hcopyB, rfl⟩ := List.mem_map.1 hb
    rw [List.mem_filter, bne_iff_ne] at hcopyA hcopyB
    exact ⟨_, _, hne, hcopies _ hcopyA.1 hcopyA.2, hcopies _ hcopyB.1 hcopyB.2⟩

theorem Counting.of_same {valid : List (AgentId × Domain)}
    (h : Counting agents drained live history rest object valid x)
    (hdraining : Draining agents drained live history rest y) (hstore : y.store = x.store)
    (honline : y.outside.online = x.outside.online) :
    Counting agents drained live history rest object valid y := by
  refine ⟨hdraining, ?_, ?_⟩
  · rw [hstore]
    exact h.backed
  · rw [hstore, honline]
    exact h.recorded

/-- A copy is counted only once it is confirmed in the domain of its agent. -/
theorem moveTo_safe {valid : List (AgentId × Domain)} (bytes : Bytes) {agent : LiveAgent}
    (hagent : agent ∈ live) (hnot : object ∉ rest)
    (hx : Counting agents drained live history rest object valid x) :
    (moveTo drained false object bytes valid agent).Safe (fun _ => True) Eq KeepsFloor
      (fun valid => Counting agents drained live history rest object valid) x := by
  unfold moveTo
  split
  · exact hx
  · split
    · exact hx
    · next hskip =>
      obtain ⟨hother, hnew⟩ := not_or.1 hskip
      rw [if_neg Bool.false_ne_true]
      refine safe_bind.2 (safe_bind.2 (safe_query.2 ?_))
      rintro x rfl answer fleet hanswers -
      refine ⟨hx.draining.floor_store, ?_⟩
      have hfleet : fleet.online = x.outside.online ∧ ∀ thing ∈ rest, ∀ other,
          fleet.holds other thing = x.outside.holds other thing := by
        have hset (thing : ObjectId) (hthing : thing ∈ rest) (other : AgentId) :
            (x.outside.setHolds agent.target.id object true).holds other thing =
              x.outside.holds other thing :=
          Fleet.setHolds_of_ne fun h => hnot (h.2 ▸ hthing)
        have hputs : x.outside.puts agent.target object bytes fleet answer := hanswers
        cases answer with
        | stored =>
          obtain ⟨-, -, rfl⟩ := hputs
          exact ⟨rfl, hset⟩
        | failed error =>
          rcases hputs with rfl | ⟨-, rfl⟩
          · exact ⟨rfl, fun _ _ _ => rfl⟩
          · exact ⟨rfl, hset⟩
        | rejected =>
          rcases hputs with rfl | ⟨-, rfl⟩
          · exact ⟨rfl, fun _ _ _ => rfl⟩
          · exact ⟨rfl, hset⟩
      have hput : Counting agents drained live history rest object valid
          (x.asked (.put agent.target object bytes) answer fleet) :=
        hx.of_same (hx.draining.asked rfl hfleet.1 hfleet.2) rfl hfleet.1
      generalize x.asked (.put agent.target object bytes) answer fleet = z at hput
      cases answer with
      | failed error => exact hput
      | rejected => exact hput
      | stored =>
        refine safe_bind.2 (fetchValid_safe agent.target hput.draining.floor_store
          fun got w hstore houtside _ => ?_)
        have hread := hput.of_same (hput.draining.asked (y := w) hstore (by rw [houtside])
          fun _ _ _ => by rw [houtside]) hstore (by rw [houtside])
        cases got with
        | none => exact hread
        | some _ =>
          refine safe_bind.2 (safe_write.2 ?_)
          rintro w rfl s hok -
          obtain ⟨hmem, hup, hactive⟩ := hread.draining.live agent hagent
          have hfresh : ∀ copy ∈ valid, copy.1 ≠ agent.target.id := fun copy hcopy heq =>
            hnew (List.any_eq_true.2 ⟨copy, hcopy, beq_iff_eq.2 heq⟩)
          obtain ⟨hcovers, honly, hrows, row, hrow, hobject, hid, hlive, hdomain⟩ :=
            setPlacementVerification_spec hread.draining.keyed hactive
              (hread.recorded _ hmem hup hfresh) hok
          have hhistory : s.historyObjects = w.store.historyObjects := by
            rcases setPlacementVerification_cases hok with ⟨rfl, -⟩ | ⟨-, rfl⟩ <;> rfl
          have hdraining := hread.draining.wrote hok honly hhistory hnot
            fun row hrow _ => hcovers.two_le (hread.draining.floor row hrow)
          refine ⟨hdraining.floor_store, hdraining, ?_, fun other hother hotherUp hnone => ?_⟩
          · refine hread.backed.imp ?_ fun hcopies copy hcopy hne => ?_
            · rintro ⟨a, b, hab, ha, hb⟩
              exact ⟨a, b, hab, hcovers.confirmedOff ha, hcovers.confirmedOff hb⟩
            · rcases mem_insertCopy hcopy with rfl | hcopy
              · exact ⟨row, hrow, hobject, hid ▸ hne, hlive, hdomain⟩
              · exact hcovers.confirmedOff (hcopies copy hcopy hne)
          · have hne : agent.target.id ≠ other.id := hnone _ List.mem_cons_self
            have hbefore : RecordedAt w.store object other :=
              hread.recorded other hother hotherUp fun copy hcopy heq => by
                by_cases hsame : copy.1 = agent.target.id
                · exact hne (hsame.symm.trans heq)
                · exact hnone copy (List.mem_cons_of_mem _ (List.mem_filter.2
                    ⟨hcopy, bne_iff_ne.2 hsame⟩)) heq
            intro p hp hpobject hpid hended
            refine hbefore p (hrows p hp fun h => hne (h.symm.trans hpid)) hpobject hpid
              fun h => hended ?_
            obtain ⟨old, hold, hend⟩ := h
            exact ⟨old, honly.incarnations ▸ hold, hend⟩

/-- Copies are made until there are enough, if that can be reached. -/
theorem ensureCopies_safe (hnot : object ∉ rest) (hhistory : ∃ row ∈ history, row.object = object)
    (hx : Draining agents drained live history (object :: rest) x) :
    (ensureCopies live drained false object).Safe (fun _ => True) Eq KeepsFloor
      (fun valid => Counting agents drained live history rest object valid) x := by
  refine safe_bind.2 ((readCopies_safe hx).mono fun copies y hy => ?_)
  obtain ⟨hstore, houtside, hheld⟩ := hy
  have hcounting : Counting agents drained live history rest object copies.valid x := by
    refine ⟨hx.tail, ?_, fun agent hagent hup _ => hx.recorded _ List.mem_cons_self hhistory agent
      hagent hup⟩
    refine (hx.backed _ List.mem_cons_self hhistory).imp_right fun hbacked copy hcopy hne => ?_
    obtain ⟨agent, hagent, rfl, hholds⟩ := hheld copy hcopy
    obtain ⟨hmem, hup, -⟩ := hx.live agent hagent
    exact hbacked agent.target hmem hne hup hholds
  have hy : Counting agents drained live history rest object copies.valid y :=
    hcounting.of_same (hx.tail.asked hstore (by rw [houtside]) fun _ _ _ => by rw [houtside]) hstore
      (by rw [houtside])
  split
  · exact hy
  · split
    · exact hy
    · exact safe_foldlM (fun agent hagent valid z hz => moveTo_safe _ hagent hnot hz) hy

/-- One object is drained. -/
theorem drainObject_safe (hnot : object ∉ rest)
    (hx : Draining agents drained live history (object :: rest) x) :
    (drainObject live drained false history object).Safe (fun _ => True) Eq KeepsFloor
      (fun _ => Draining agents drained live history rest) x := by
  unfold drainObject
  split
  · exact hx.tail
  · next hknown =>
    have hhistory : ∃ row ∈ history, row.object = object := by
      simpa [List.any_eq_true] using hknown
    refine safe_bind.2 ((ensureCopies_safe hnot hhistory hx).mono fun valid y hy => ?_)
    refine safe_onlyIf (fun henough => safe_write.2 ?_) fun _ => hy.draining
    rintro y rfl s hok -
    obtain ⟨a, b, hne, ha, hb⟩ := hy.two_confirmed henough.1
    obtain ⟨honly, hleft⟩ := setPlacementState_spec hok
    have hsame : s.historyObjects = y.store.historyObjects := by
      have hdone : y.store.setPlacementState object drained .orphaned = .ok s := hok
      unfold setPlacementState at hdone
      split at hdone <;> cases hdone
      rfl
    have hdrained := hy.draining.wrote hok honly hsame hnot fun row _ hobject => by
      rw [hobject]
      exact two_le_confirmedDomains.2 ⟨a, b, hne, hleft a ha, hleft b hb⟩
    exact ⟨hdrained.floor_store, hdrained⟩

/-! ### Agents -/

/-- The agents report the incarnations that are active, history objects are recorded where their
agents are, and their copies on agents other than the drained one are backed. -/
structure Counted (agents : List AgentTarget) (drained : AgentId) (db : Database) (fleet : Fleet) :
    Prop where
  reports : ∀ agent ∈ agents, fleet.online agent.id = true → ∀ row ∈ db.incarnations,
    row.agentId = agent.id → row.status = .active → row.incarnationId = fleet.incarnation agent.id
  recorded : ∀ row ∈ db.historyObjects, ∀ agent ∈ agents, fleet.online agent.id = true →
    RecordedAt db row.object agent
  backed : ∀ row ∈ db.historyObjects, Backed agents drained db fleet row.object

/-- The state of a drain while its agents are asked. -/
structure Asking (agents : List AgentTarget) (drained : AgentId) (live : List LiveAgent)
    (x : Scene fleetWorld) : Prop where
  keyed : Keyed x.store
  floor : Floor x.store
  counted : Counted agents drained x.store x.outside
  live : ∀ agent ∈ live, agent.target ∈ agents ∧ x.outside.online agent.target.id = true ∧
    x.store.activeIncarnation agent.incarnationId = true

/-- An observation of what was reported keeps everything counted. -/
theorem Asking.observed {agent : AgentTarget} {s : Database}
    (hx : Asking agents drained live x) (hagent : agent ∈ agents)
    (hup : x.outside.online agent.id = true)
    (hok : x.store.observeAgentIncarnation agent (x.outside.incarnation agent.id) = .ok s) :
    Asking agents drained (live ++ [⟨agent, x.outside.incarnation agent.id⟩])
      (x.wrote (.observeAgentIncarnation agent (x.outside.incarnation agent.id)) s) := by
  have hseen := Drain.observed (hx.counted.reports agent hagent hup) hok
  have hhistory : s.historyObjects = x.store.historyObjects := by
    obtain ⟨incarnations, placements, rfl⟩ := observeAgentIncarnation_places hok
    rfl
  refine ⟨(Written.step (.start _) (.observeAgentIncarnation _ _) hok).keyed hx.keyed, ?_,
    ⟨fun other hother hotherUp row hrow hid hactive => ?_, ?_, ?_⟩, fun other hother => ?_⟩
  · intro row hrow
    exact hseen.covers.two_le (hx.floor row (hhistory ▸ hrow))
  · rcases hseen.owners row hrow hactive with ⟨old, hold, hsame, howner, hstatus⟩ | ⟨howner, hnew⟩
    · rw [← hsame]
      exact hx.counted.reports other hother hotherUp old hold (howner.trans hid) hstatus
    · rw [hnew, ← howner.symm.trans hid]
      rfl
  · intro row hrow other hother hotherUp p hp hobject hid hended
    obtain ⟨old, hold, hplace, hdomain, hstood⟩ := hseen.rows p hp hended
    rw [hdomain]
    exact hx.counted.recorded row (hhistory ▸ hrow) other hother hotherUp old hold
      (hplace.1.symm.trans hobject) (hplace.2.symm.trans hid) hstood
  · intro row hrow
    rcases hx.counted.backed row (hhistory ▸ hrow) with ⟨a, b, hne, ha, hb⟩ | hcopies
    · exact .inl ⟨a, b, hne, hseen.covers.confirmedOff ha, hseen.covers.confirmedOff hb⟩
    · exact .inr fun other hother hne hotherUp hholds =>
        hseen.covers.confirmedOff (hcopies other hother hne hotherUp hholds)
  · rcases List.mem_append.1 hother with hother | hother
    · obtain ⟨hmem, hotherUp, hactive⟩ := hx.live other hother
      exact ⟨hmem, hotherUp, hseen.stays _ hactive⟩
    · rw [List.mem_singleton.1 hother]
      exact ⟨hagent, hup, hseen.active⟩

theorem Asking.asked (hx : Asking agents drained live x) (hstore : y.store = x.store)
    (houtside : y.outside = x.outside) : Asking agents drained live y := by
  obtain ⟨hkeyed, hfloor, hcounted, hlive⟩ := hx
  exact ⟨hstore ▸ hkeyed, hstore ▸ hfloor, hstore ▸ houtside ▸ hcounted, hstore ▸ houtside ▸ hlive⟩

theorem verifyAgents_safe (hx : Asking agents drained [] x) :
    (verifyAgents agents).Safe (fun _ => True) Eq KeepsFloor
      (fun live => Asking agents drained live) x := by
  refine safe_foldlM (fun agent hagent live y hy => ?_) hx
  refine safe_bind.2 (safe_query.2 ?_)
  rintro y rfl answer fleet hanswers -
  obtain ⟨rfl, hhealth⟩ : fleet = y.outside ∧ y.outside.healthOf agent answer := hanswers
  have hasked : Asking agents drained live (y.asked (.health agent) answer y.outside) :=
    hy.asked rfl rfl
  refine ⟨hy.floor, ?_⟩
  cases answer with
  | unreachable => exact hasked
  | malformed => exact safe_stop
  | reports id domain incarnation free =>
    obtain ⟨hup, rfl⟩ := hhealth
    refine safe_bind.2 (safe_failIf fun _ => safe_bind.2 (safe_write.2 ?_))
    rintro z rfl s hok -
    have hseen := hasked.observed hagent hup hok
    exact ⟨hseen.floor, hseen⟩

omit [Sealing] in
/-- An agent has one placement of each object. -/
theorem nodup_placementsForAgent {db : Database} (hkeyed : Keyed db) :
    ((db.placementsForAgent drained).map Prod.fst).Nodup := by
  have hperm : ((db.placementsForAgent drained).map Prod.fst).Perm
      ((db.placements.filter (·.agentId == drained)).map (·.object)) := by
    unfold placementsForAgent
    rw [List.map_map]
    exact (List.perm_insertionSort _ _).map _
  rw [hperm.nodup_iff]
  have hrows := List.Nodup.of_map _ hkeyed.places
  refine List.Nodup.map_on (fun row hrow other hother heq => ?_) (hrows.filter _)
  rw [List.mem_filter, beq_iff_eq] at hrow hother
  exact List.inj_on_of_nodup_map hkeyed.places hrow.1 hother.1
    (Prod.ext heq (hrow.2.trans hother.2.symm))

/-- A drain that starts with everything counted keeps the floor at every step. -/
theorem drain_safe (hkeyed : Keyed x.store) (hfloor : Floor x.store)
    (hcounted : Counted agents drained x.store x.outside) :
    (drain agents drained false).Safe (fun _ => True) Eq KeepsFloor (fun _ _ => True) x := by
  refine safe_bind.2 (safe_failIf fun _ => safe_bind.2 (safe_reading.2 ?_))
  rintro x rfl
  refine safe_bind.2 (safe_failIf fun _ => ?_)
  refine safe_bind.2 ((verifyAgents_safe ⟨hkeyed, hfloor, hcounted, fun _ h => absurd h
    List.not_mem_nil⟩).mono fun live y hy => ?_)
  refine safe_bind.2 (safe_reading.2 ?_)
  rintro y rfl
  have hheld : ((y.store.placementsForAgent drained).map Prod.fst).Nodup :=
    nodup_placementsForAgent hy.keyed
  have hstart : Draining agents drained live y.store.historyObjects
      (((y.store.placementsForAgent drained).filter (·.2 != .orphaned)).map Prod.fst) y := {
    keyed := hy.keyed
    sameHistory := rfl
    floor := hy.floor
    live := hy.live
    recorded := fun _ _ ⟨row, hrow, hobject⟩ => hobject ▸ hy.counted.recorded row hrow
    backed := fun _ _ ⟨row, hrow, hobject⟩ => hobject ▸ hy.counted.backed row hrow }
  refine safe_bind.2 (safe_reading.2 ?_)
  rintro y rfl
  have hnodup := hheld.sublist (List.Sublist.map Prod.fst
    (List.filter_sublist (l := y.store.placementsForAgent drained) (p := (·.2 != .orphaned))))
  exact (safe_forM_rest (J := fun rest z => (rest.map Prod.fst).Nodup ∧
    Draining agents drained live y.store.historyObjects (rest.map Prod.fst) z)
    (fun row rest z hz => (drainObject_safe (List.nodup_cons.1 hz.1).1 hz.2).mono
      fun _ _ h => ⟨(List.nodup_cons.1 hz.1).2, h⟩) ⟨hnodup, hstart⟩).mono fun _ _ _ => trivial

/-! ## Drain after drain -/

/-- Drains of different agents, each from a state that meets the condition; between them agents may
come, go and lose copies. -/
inductive Drains (agents : List AgentTarget) (Meets : AgentId → Database → Fleet → Prop) :
    Scene fleetWorld → List AgentId → Scene fleetWorld → Prop
  | start (x : Scene fleetWorld) : Drains agents Meets x [] x
  | drain {x y z : Scene fleetWorld} {done : List AgentId} {p : Action Unit}
      (before : Drains agents Meets x done y) (drained : AgentId) (other : drained ∉ done)
      (fleet : Fleet) (meets : Meets drained y.store fleet)
      (run : Steps (drain agents drained false) ⟨y.store, fleet, y.past⟩ p z) :
      Drains agents Meets x (done ++ [drained]) z

end

/-! ## Two drains of three agents -/

def threeAgents : List AgentTarget := [⟨1, 1⟩, ⟨2, 2⟩, ⟨3, 3⟩]

/-- Three agents are online; two of them hold everything. -/
def held : Fleet := ⟨fun agent _ => agent != 3, fun _ => true, fun agent => agent + 100⟩

/-- An object of an upload. -/
def uploadedBytes (object : ObjectId) : Bytes :=
  match object.kind with
  | .chunk => [1, 2, 3]
  | .manifest => [4, 5]
  | .deletionMarker => [6]

/-- One upload to the first two agents, before anything is drained. -/
def beforeDrains : Scene (@fleetWorld namingOnly) := ⟨(uploadAt 1000 1000 .new).2, held, []⟩

/-- The agent is drained to the end. -/
def drainOf (drained : AgentId) (x : Scene (@fleetWorld namingOnly)) :
    Action Unit × Scene (@fleetWorld namingOnly) :=
  letI := namingOnly
  advance (Fleet.obliging uploadedBytes (answersAt 2000)) 1000 (drain threeAgents drained false) x

theorem steps_drainOf (drained : AgentId) (x : Scene (@fleetWorld namingOnly)) :
    Steps (@drain namingOnly threeAgents drained false) x (drainOf drained x).1 (drainOf drained x).2 :=
  let _ := namingOnly
  steps_advance (Fleet.faithful_obliging _ _) 1000 _ _

instance (db : Database) (row : Placement) : Decidable (Ended db row) :=
  inferInstanceAs (Decidable (∃ other ∈ db.incarnations, _ ∧ _))

instance (db : Database) (object : ObjectId) (agent : AgentTarget) :
    Decidable (RecordedAt db object agent) :=
  inferInstanceAs (Decidable (∀ row ∈ db.placements, _ → _ → _ → _))

instance (db : Database) (drained : AgentId) (object : ObjectId) (domain : Domain) :
    Decidable (ConfirmedOff db drained object domain) :=
  inferInstanceAs (Decidable (∃ row ∈ db.placements, _ ∧ _ ∧ _ ∧ _))

instance (db : Database) : Decidable (Floor db) :=
  inferInstanceAs (Decidable (∀ row ∈ db.historyObjects, _ ≤ _))

theorem keyed_beforeDrains : Keyed beforeDrains.store := by
  refine ⟨⟨?_, ?_⟩, ?_⟩
  · decide +kernel
  · decide +kernel
  · unfold OnePlacement
    decide +kernel

end Drain

end Metadata

end DistrHnsw
