import DistrHnsw.Metadata.Frames
import Mathlib.Data.Finset.Card

/-!
# Incarnations and placements

Over every run of writes, from a database that may hold placements of before incarnations were
recorded: one incarnation of an agent is active, an inactive one stays so and is refused, and a
placement rewritten for another incarnation has to be confirmed again.  A placement keeps the
failure domain it was written with, so the domains counted follow the configuration only while no
agent changes its domain.
-/

namespace DistrHnsw

namespace Metadata

namespace Database

variable {db db₁ : Database}

/-! ## Statements -/

theorem refuseInactiveIncarnation_ok {agent : AgentId} {incarnation : IncarnationId}
    (h : db.refuseInactiveIncarnation agent incarnation = .ok ()) {row : Incarnation}
    (hrow : db.incarnations.find? (·.incarnationId == incarnation) = some row) :
    row.status = .active := by
  unfold refuseInactiveIncarnation at h
  rw [hrow] at h
  cases hstatus : row.status with
  | active => rfl
  | superseded => simp [hstatus] at h
  | retired => simp [hstatus] at h

theorem insertIncarnation_spec {row : Incarnation} (h : db.insertIncarnation row = .ok db₁) :
    (∀ other ∈ db.incarnations, other.incarnationId ≠ row.incarnationId) ∧
      db₁ = { db with incarnations := db.incarnations ++ [row] } := by
  unfold insertIncarnation at h
  obtain ⟨hno, h⟩ := guard_eq_ok.1 h
  cases h
  refine ⟨fun other hother hid => hno (List.any_eq_true.2 ⟨other, hother, ?_⟩), rfl⟩
  simp [hid]

/-- Change the row of one incarnation. -/
def changeRow (id : IncarnationId) (f : Incarnation → Incarnation) (row : Incarnation) :
    Incarnation :=
  if row.incarnationId = id then f row else row

/-- A known incarnation is refreshed, another one supersedes, the first one adopts. -/
theorem observeAgentIncarnation_cases {agent : AgentTarget} {incarnation : IncarnationId}
    (h : db.observeAgentIncarnation agent incarnation = .ok db₁) :
    (∃ row ∈ db.incarnations, row.agentId = agent.id ∧ row.status = .active ∧
      row.incarnationId = incarnation ∧ db₁ = db.updateIncarnation incarnation fun row =>
        { row with failureDomain := agent.failureDomain }) ∨
    (∃ old ∈ db.incarnations, old.agentId = agent.id ∧ old.status = .active ∧
      (∀ row ∈ db.incarnations, row.incarnationId ≠ incarnation) ∧
      db₁.incarnations = db.incarnations.map (changeRow old.incarnationId fun row =>
          { row with status := .superseded }) ++
        [⟨agent.id, incarnation, agent.failureDomain, .active⟩] ∧
      db₁.placements = db.placements) ∨
    ((∀ row ∈ db.incarnations, row.agentId = agent.id → row.status ≠ .active) ∧
      (∀ row ∈ db.incarnations, row.incarnationId ≠ incarnation) ∧
      db₁.incarnations =
        db.incarnations ++ [⟨agent.id, incarnation, agent.failureDomain, .active⟩] ∧
      db₁.placements = db.placements.map fun placement =>
        if placement.agentId = agent.id ∧ placement.incarnationId = none
        then { placement with incarnationId := some incarnation } else placement) := by
  unfold observeAgentIncarnation at h
  obtain ⟨_, -, h⟩ := bind_eq_ok.1 h
  cases hfind : db.incarnations.find? fun row => row.agentId == agent.id && row.status == .active with
  | some old =>
    have hold := List.find?_some hfind
    simp only [Bool.and_eq_true, beq_iff_eq] at hold
    have hmem := List.mem_of_find?_eq_some hfind
    simp only [hfind] at h
    split at h
    · next hsame =>
      cases h
      exact .inl ⟨old, hmem, hold.1, hold.2, hsame, rfl⟩
    · next hother =>
      obtain ⟨hfresh, rfl⟩ := insertIncarnation_spec h
      refine .inr (.inl ⟨old, hmem, hold.1, hold.2, fun row hrow hid => ?_, rfl, rfl⟩)
      refine hfresh _ (List.mem_map.2 ⟨row, hrow, rfl⟩) ?_
      by_cases hthis : row.incarnationId = old.incarnationId
      · rw [if_pos hthis]
        exact hid
      · rw [if_neg hthis]
        exact hid
  | none =>
    simp only [hfind] at h
    obtain ⟨db₂, hinsert, h⟩ := bind_eq_ok.1 h
    cases h
    obtain ⟨hfresh, rfl⟩ := insertIncarnation_spec hinsert
    refine .inr (.inr ⟨fun row hrow hagent hactive => ?_, hfresh, rfl, rfl⟩)
    have := List.find?_eq_none.1 hfind row hrow
    simp [hagent, hactive] at this

theorem retireIncarnation_cases {agent : AgentId} (h : db.retireIncarnation agent = .ok db₁) :
    ∃ old ∈ db.incarnations, old.agentId = agent ∧ old.status = .active ∧
      db₁.incarnations = (db.updateIncarnation old.incarnationId fun row =>
        { row with status := .retired }).incarnations ∧
      db₁.placements = db.placements.map fun row =>
        if row.agentId = agent then { row with state := .orphaned } else row := by
  unfold retireIncarnation activeIncarnationOf at h
  cases hfind : db.incarnations.find? fun row => row.agentId == agent && row.status == .active with
  | none =>
    rw [hfind] at h
    cases h
  | some old =>
    rw [hfind] at h
    cases h
    have hold := List.find?_some hfind
    simp only [Bool.and_eq_true, beq_iff_eq] at hold
    exact ⟨old, List.mem_of_find?_eq_some hfind, hold.1, hold.2, rfl, rfl⟩

/-- A placement as a write for an incarnation finds it. -/
def adoptPlacement (agent : AgentTarget) (incarnation : IncarnationId) (row : Placement) :
    Placement :=
  if row.incarnationId = some incarnation then row
  else { row with
    failureDomain := agent.failureDomain, incarnationId := some incarnation,
    state := if row.incarnationId = none then row.state else .pending }

/-- The row of an object on an agent is adopted, or added. -/
theorem ensurePendingPlacement_cases (db : Database) (object : ObjectId) (agent : AgentTarget)
    (incarnation : IncarnationId) :
    (db.hasPlacement object agent.id = true ∧ db.ensurePendingPlacement object agent incarnation =
      db.updatePlacement object agent.id (adoptPlacement agent incarnation)) ∨
    (db.hasPlacement object agent.id = false ∧ db.ensurePendingPlacement object agent incarnation =
      { db with placements := db.placements ++
        [⟨object, agent.id, agent.failureDomain, some incarnation, .pending⟩] }) := by
  unfold ensurePendingPlacement
  cases h : db.hasPlacement object agent.id with
  | true => exact .inl ⟨rfl, if_pos rfl⟩
  | false => exact .inr ⟨rfl, if_neg Bool.false_ne_true⟩

end Database

open Database

/-! ## What a write does to incarnations -/

/-- The write gives the agent the failure domain. -/
def Write.Configures (agent : AgentId) (domain : Domain) : Write → Prop
  | .observeAgentIncarnation target _ => target.id = agent ∧ target.failureDomain = domain
  | _ => False

/-- How the incarnations may change in one write. -/
inductive IncarnationStep (w : Write) : List Incarnation → List Incarnation → Prop
  | same (rows : List Incarnation) : IncarnationStep w rows rows
  | changed {rows : List Incarnation} (old : Incarnation) (hold : old ∈ rows)
      (active : old.status = .active) (f : Incarnation → Incarnation)
      (named : ∀ row, (f row).incarnationId = row.incarnationId ∧ (f row).agentId = row.agentId)
      (ends : ∀ row, (f row).status = .active → row.status = .active)
      (domain : (f old).failureDomain = old.failureDomain ∨
        w.Configures old.agentId (f old).failureDomain) :
      IncarnationStep w rows (rows.map (changeRow old.incarnationId f))
  | added {rows : List Incarnation} (row : Incarnation)
      (fresh : ∀ other ∈ rows, other.incarnationId ≠ row.incarnationId)
      (first : ∀ other ∈ rows, other.agentId = row.agentId → other.status ≠ .active)
      (configured : w.Configures row.agentId row.failureDomain) :
      IncarnationStep w rows (rows ++ [row])
  | trans {rows rows₁ rows₂ : List Incarnation} (h₁ : IncarnationStep w rows rows₁)
      (h₂ : IncarnationStep w rows₁ rows₂) : IncarnationStep w rows rows₂

/-- The incarnations of a database: named once, one active for each agent. -/
structure OneActive (rows : List Incarnation) : Prop where
  ids : (rows.map (·.incarnationId)).Nodup
  one : ∀ a ∈ rows, ∀ b ∈ rows, a.status = .active → b.status = .active →
    a.agentId = b.agentId → a = b

theorem OneActive.unique {rows : List Incarnation} (h : OneActive rows) {a b : Incarnation}
    (ha : a ∈ rows) (hb : b ∈ rows) (hid : a.incarnationId = b.incarnationId) : a = b :=
  List.inj_on_of_nodup_map h.ids ha hb hid

section Step

variable {w : Write} {rows rows' : List Incarnation} {id : IncarnationId}
  {f : Incarnation → Incarnation}

theorem changeRow_named
    (named : ∀ row, (f row).incarnationId = row.incarnationId ∧ (f row).agentId = row.agentId)
    (row : Incarnation) : (changeRow id f row).incarnationId = row.incarnationId ∧
      (changeRow id f row).agentId = row.agentId := by
  unfold changeRow
  split
  · exact named row
  · exact ⟨rfl, rfl⟩

theorem changeRow_active (ends : ∀ row, (f row).status = .active → row.status = .active)
    {row : Incarnation} (h : (changeRow id f row).status = .active) : row.status = .active := by
  unfold changeRow at h
  split at h
  · exact ends row h
  · exact h

theorem IncarnationStep.oneActive (h : IncarnationStep w rows rows') (hone : OneActive rows) :
    OneActive rows' := by
  induction h with
  | same => exact hone
  | @changed rows old hold active f named ends domain =>
    constructor
    · have heq : (rows.map (changeRow old.incarnationId f)).map (·.incarnationId) =
          rows.map (·.incarnationId) := by
        rw [List.map_map]
        exact List.map_congr_left fun row _ => (changeRow_named named row).1
      rw [heq]
      exact hone.ids
    · intro a ha b hb haActive hbActive hagent
      obtain ⟨a', ha', rfl⟩ := List.mem_map.1 ha
      obtain ⟨b', hb', rfl⟩ := List.mem_map.1 hb
      rw [(changeRow_named named a').2, (changeRow_named named b').2] at hagent
      rw [hone.one a' ha' b' hb' (changeRow_active ends haActive) (changeRow_active ends hbActive)
        hagent]
  | added row fresh first configured =>
    constructor
    · rw [List.map_append]
      refine List.Nodup.append hone.ids (by simp) ?_
      intro id hid hid'
      obtain ⟨other, hother, rfl⟩ := List.mem_map.1 hid
      exact fresh other hother (by simpa using hid')
    · intro a ha b hb haActive hbActive hagent
      rcases List.mem_append.1 ha with ha | ha <;> rcases List.mem_append.1 hb with hb | hb
      · exact hone.one a ha b hb haActive hbActive hagent
      · rw [List.mem_singleton.1 hb] at hagent
        exact absurd haActive (first a ha hagent)
      · rw [List.mem_singleton.1 ha] at hagent
        exact absurd hbActive (first b hb hagent.symm)
      · rw [List.mem_singleton.1 ha, List.mem_singleton.1 hb]
  | trans _ _ ih₁ ih₂ => exact ih₂ (ih₁ hone)

/-- An inactive row stays as it is. -/
theorem IncarnationStep.inactive (h : IncarnationStep w rows rows') (hone : OneActive rows)
    {row : Incarnation} (hrow : row ∈ rows) (hstatus : row.status ≠ .active) : row ∈ rows' := by
  induction h with
  | same => exact hrow
  | changed old hold active f named ends domain =>
    refine List.mem_map.2 ⟨row, hrow, if_neg fun hid => ?_⟩
    rw [hone.unique hrow hold hid] at hstatus
    exact hstatus active
  | added other fresh first configured => exact List.mem_append_left _ hrow
  | trans h₁ _ ih₁ ih₂ => exact ih₂ (h₁.oneActive hone) (ih₁ hone hrow)

/-- An incarnation keeps its agent. -/
theorem IncarnationStep.owner (h : IncarnationStep w rows rows') {row : Incarnation}
    (hrow : row ∈ rows) : ∃ row' ∈ rows', row'.incarnationId = row.incarnationId ∧
      row'.agentId = row.agentId := by
  induction h generalizing row with
  | same => exact ⟨row, hrow, rfl, rfl⟩
  | changed old hold active f named ends domain =>
    exact ⟨_, List.mem_map.2 ⟨row, hrow, rfl⟩, changeRow_named named row⟩
  | added other fresh first => exact ⟨row, List.mem_append_left _ hrow, rfl, rfl⟩
  | trans _ _ ih₁ ih₂ =>
    obtain ⟨row₁, hrow₁, hid₁, hagent₁⟩ := ih₁ hrow
    obtain ⟨row₂, hrow₂, hid₂, hagent₂⟩ := ih₂ hrow₁
    exact ⟨row₂, hrow₂, hid₂.trans hid₁, hagent₂.trans hagent₁⟩

/-- The domain of an incarnation is one it had, or one the write gives its agent. -/
theorem IncarnationStep.domain (h : IncarnationStep w rows rows') (hone : OneActive rows)
    {row' : Incarnation} (hrow' : row' ∈ rows') : w.Configures row'.agentId row'.failureDomain ∨
      ∃ row ∈ rows, row.agentId = row'.agentId ∧ row.failureDomain = row'.failureDomain := by
  induction h generalizing row' with
  | same => exact .inr ⟨row', hrow', rfl, rfl⟩
  | changed old hold active f named ends domain =>
    obtain ⟨row, hrow, rfl⟩ := List.mem_map.1 hrow'
    by_cases hid : row.incarnationId = old.incarnationId
    · unfold changeRow
      rw [if_pos hid, hone.unique hrow hold hid, (named old).2]
      rcases domain with hsame | hconfigured
      · exact .inr ⟨old, hold, rfl, hsame.symm⟩
      · exact .inl hconfigured
    · unfold changeRow
      rw [if_neg hid]
      exact .inr ⟨row, hrow, rfl, rfl⟩
  | added row fresh first configured =>
    rcases List.mem_append.1 hrow' with hold | hnew
    · exact .inr ⟨row', hold, rfl, rfl⟩
    · rw [List.mem_singleton.1 hnew]
      exact .inl configured
  | trans h₁ _ ih₁ ih₂ =>
    rcases ih₂ (h₁.oneActive hone) hrow' with hconfigured | ⟨row₁, hrow₁, hagent, hdomain⟩
    · exact .inl hconfigured
    · rw [← hagent, ← hdomain]
      exact ih₁ hone hrow₁

/-- The active incarnation of an agent makes room for a new one. -/
theorem IncarnationStep.supersedes {rows : List Incarnation} (hone : OneActive rows)
    {old row : Incarnation} (hold : old ∈ rows) (hactive : old.status = .active)
    (hagent : old.agentId = row.agentId)
    (hfresh : ∀ other ∈ rows, other.incarnationId ≠ row.incarnationId)
    (hconfigured : w.Configures row.agentId row.failureDomain) :
    IncarnationStep w rows (rows.map (changeRow old.incarnationId fun row =>
      { row with status := .superseded }) ++ [row]) := by
  let f (row : Incarnation) : Incarnation := { row with status := .superseded }
  have named (row : Incarnation) : (f row).incarnationId = row.incarnationId ∧
      (f row).agentId = row.agentId := ⟨rfl, rfl⟩
  refine .trans (.changed old hold hactive f named (fun _ h => nomatch h) (.inl rfl)) ?_
  refine .added row (fun other hother => ?_) (fun other hother hsame hother' => ?_) hconfigured
  · obtain ⟨other, hmem, rfl⟩ := List.mem_map.1 hother
    rw [(changeRow_named named other).1]
    exact hfresh other hmem
  · obtain ⟨other, hmem, rfl⟩ := List.mem_map.1 hother
    rw [(changeRow_named named other).2, ← hagent] at hsame
    -- Only the superseded row was active for the agent.
    by_cases hid : other.incarnationId = old.incarnationId
    · unfold changeRow at hother'
      rw [if_pos hid] at hother'
      cases hother'
    · unfold changeRow at hother'
      rw [if_neg hid] at hother'
      exact hid (by rw [hone.one other hmem old hold hother' hactive hsame])

end Step

/-- What any write does to the incarnations. -/
theorem Write.incarnationStep {db db₁ : Database} {w : Write} (hok : w.perform db = .ok db₁)
    (hone : OneActive db.incarnations) : IncarnationStep w db.incarnations db₁.incarnations := by
  have hsame (h : db₁.incarnations = db.incarnations) :
      IncarnationStep w db.incarnations db₁.incarnations := h ▸ .same _
  have hensure (object : ObjectId) (agent : AgentTarget) (incarnation : IncarnationId) :
      (db.ensurePendingPlacement object agent incarnation).incarnations = db.incarnations := by
    rcases ensurePendingPlacement_cases db object agent incarnation with ⟨-, h⟩ | ⟨-, h⟩ <;> rw [h]
    rfl
  by_cases hplaces : w.AboutPlaces
  · cases w with
    | observeAgentIncarnation agent incarnation =>
      rcases observeAgentIncarnation_cases hok with
        ⟨old, hold, hagent, hactive, rfl, rfl⟩ | ⟨old, hold, hagent, hactive, hfresh, hrows, -⟩ |
          ⟨hfirst, hfresh, hrows, -⟩
      · exact .changed old hold hactive (fun row => { row with failureDomain := agent.failureDomain })
          (fun _ => ⟨rfl, rfl⟩) (fun _ h => h) (.inr ⟨hagent.symm, rfl⟩)
      · rw [hrows]
        exact .supersedes hone hold hactive hagent hfresh ⟨rfl, rfl⟩
      · rw [hrows]
        exact .added _ hfresh hfirst ⟨rfl, rfl⟩
    | retireIncarnation agent =>
      obtain ⟨old, hold, -, hactive, hrows, -⟩ := retireIncarnation_cases hok
      rw [hrows]
      exact .changed old hold hactive (fun row => { row with status := .retired })
        (fun _ => ⟨rfl, rfl⟩) (fun _ h => nomatch h) (.inl rfl)
    | ensurePendingPlacement object agent incarnation =>
      cases hok
      exact hsame (hensure object agent incarnation)
    | confirmPlacement object agent =>
      rw [confirmPlacement_spec hok]
      exact .same _
    | setPlacementState object agent state =>
      rw [setPlacementState_spec hok]
      exact .same _
    | setPlacementVerification object agent incarnation state =>
      refine hsame ?_
      rw [setPlacementVerification_spec hok]
      exact hensure object agent incarnation
    | deletePlacement object agent =>
      cases hok
      exact .same _
    | deletePlacements object =>
      cases hok
      exact .same _
    | _ => exact hplaces.elim
  · exact hsame (Write.places_eq hok hplaces).1

/-! ## What a write does to placements -/

/-- Each object has one placement on an agent. -/
def OnePlacement (rows : List Placement) : Prop :=
  (rows.map fun row => (row.object, row.agentId)).Nodup

/-- The write records the object on the agent for the incarnation. -/
def Write.Places (object : ObjectId) (agent : AgentTarget) (incarnation : IncarnationId) :
    Write → Prop
  | .ensurePendingPlacement object' agent' incarnation' =>
    object' = object ∧ agent' = agent ∧ incarnation' = incarnation
  | .setPlacementVerification object' agent' incarnation' _ =>
    object' = object ∧ agent' = agent ∧ incarnation' = incarnation
  | _ => False

/-- The write says that the agent holds the object under the incarnation of its row. -/
def Write.Confirms (db : Database) (object : ObjectId) (agent : AgentId)
    (incarnation : Option IncarnationId) : Write → Prop
  | .confirmPlacement object' agent' => object' = object ∧ agent' = agent ∧
      ∃ row ∈ db.placements, row.object = object ∧ row.agentId = agent ∧
        row.incarnationId = incarnation
  | .setPlacementState object' agent' state => state = .confirmed ∧ object' = object ∧
      agent' = agent ∧ ∃ row ∈ db.placements, row.object = object ∧ row.agentId = agent ∧
        row.incarnationId = incarnation
  | .setPlacementVerification object' agent' incarnation' state => state = .confirmed ∧
      object' = object ∧ agent'.id = agent ∧ some incarnation' = incarnation
  | _ => False

/-- Both are placements of one object on one agent. -/
def SamePlace (p q : Placement) : Prop := p.object = q.object ∧ p.agentId = q.agentId

/-- The row comes from a row of the same place and domain, under the same incarnation, or under the
agent's first. -/
structure Continues (db : Database) (w : Write) (db₁ : Database) (old row : Placement) : Prop where
  place : SamePlace old row
  domain : row.failureDomain = old.failureDomain
  incarnation : row.incarnationId = old.incarnationId ∨ old.incarnationId = none ∧
    ∃ own ∈ db₁.incarnations, row.incarnationId = some own.incarnationId ∧
      own.agentId = row.agentId
  confirmed : row.state = .confirmed →
    old.state = .confirmed ∨ w.Confirms db row.object row.agentId row.incarnationId

/-- The row is written for an incarnation, and starts confirmed only when it had none before. -/
structure Placed (db : Database) (w : Write) (agent : AgentTarget) (incarnation : IncarnationId)
    (row : Placement) : Prop where
  places : w.Places row.object agent incarnation
  agentId : row.agentId = agent.id
  domain : row.failureDomain = agent.failureDomain
  incarnation : row.incarnationId = some incarnation
  confirmed : row.state = .confirmed → w.Confirms db row.object row.agentId row.incarnationId ∨
    ∃ old ∈ db.placements, SamePlace old row ∧ old.state = .confirmed ∧ old.incarnationId = none

/-- Where a row comes from. -/
def Comes (db : Database) (w : Write) (db₁ : Database) (row : Placement) : Prop :=
  (∃ old ∈ db.placements, Continues db w db₁ old row) ∨
    ∃ agent incarnation, Placed db w agent incarnation row

theorem comes_of_mem {db db₁ : Database} {w : Write} {row : Placement} (h : row ∈ db.placements) :
    Comes db w db₁ row := .inl ⟨row, h, ⟨rfl, rfl⟩, rfl, .inl rfl, .inl⟩

/-- The rows after an update of one placement. -/
theorem mem_updatePlacement {db : Database} {object : ObjectId} {agent : AgentId}
    {f : Placement → Placement} {row : Placement}
    (h : row ∈ (db.updatePlacement object agent f).placements) :
    row ∈ db.placements ∨
      ∃ old ∈ db.placements, old.object = object ∧ old.agentId = agent ∧ row = f old := by
  obtain ⟨old, hold, rfl⟩ := List.mem_map.1 h
  by_cases hthis : old.object = object ∧ old.agentId = agent
  · exact .inr ⟨old, hold, hthis.1, hthis.2, if_pos hthis⟩
  · rw [if_neg hthis]
    exact .inl hold

/-- Rows that keep their places are still one for each place. -/
theorem OnePlacement.map {rows : List Placement} (h : OnePlacement rows)
    {f : Placement → Placement} (hf : ∀ row, SamePlace (f row) row) : OnePlacement (rows.map f) := by
  unfold OnePlacement at h ⊢
  rw [List.map_map]
  have heq : (fun row => (row.object, row.agentId)) ∘ f =
      fun row : Placement => (row.object, row.agentId) :=
    funext fun row => Prod.ext (hf row).1 (hf row).2
  rw [heq]
  exact h

theorem OnePlacement.update {db : Database} (h : OnePlacement db.placements) {object : ObjectId}
    {agent : AgentId} {f : Placement → Placement} (hf : ∀ row, SamePlace (f row) row) :
    OnePlacement (db.updatePlacement object agent f).placements := by
  refine h.map fun row => ?_
  split
  · exact hf row
  · exact ⟨rfl, rfl⟩

theorem OnePlacement.filter {rows : List Placement} (h : OnePlacement rows) (p : Placement → Bool) :
    OnePlacement (rows.filter p) :=
  List.Nodup.sublist (List.filter_sublist.map _) h

theorem adoptPlacement_same (agent : AgentTarget) (incarnation : IncarnationId) (row : Placement) :
    SamePlace (adoptPlacement agent incarnation row) row := by
  unfold adoptPlacement
  split <;> exact ⟨rfl, rfl⟩

theorem OnePlacement.ensure {db : Database} (h : OnePlacement db.placements) (object : ObjectId)
    (agent : AgentTarget) (incarnation : IncarnationId) :
    OnePlacement (db.ensurePendingPlacement object agent incarnation).placements := by
  rcases ensurePendingPlacement_cases db object agent incarnation with ⟨-, hrow⟩ | ⟨hno, hrow⟩ <;>
    rw [hrow]
  · exact h.update (adoptPlacement_same agent incarnation)
  · unfold OnePlacement
    rw [List.map_append]
    refine List.Nodup.append h (by simp) ?_
    intro place hplace hnew
    obtain ⟨row, hmem, rfl⟩ := List.mem_map.1 hplace
    simp only [List.map_singleton, List.mem_singleton, Prod.mk.injEq] at hnew
    have hsome : db.hasPlacement object agent.id = true :=
      List.any_eq_true.2 ⟨row, hmem, by simp [hnew.1, hnew.2]⟩
    rw [hsome] at hno
    cases hno

/-- A row of a write that records a placement. -/
theorem comes_ensure {db : Database} {object : ObjectId} {agent : AgentTarget}
    {incarnation : IncarnationId} {w : Write} (hw : w.Places object agent incarnation)
    {row : Placement} (h : row ∈ (db.ensurePendingPlacement object agent incarnation).placements) :
    row ∈ db.placements ∨ Placed db w agent incarnation row := by
  rcases ensurePendingPlacement_cases db object agent incarnation with ⟨-, hrow⟩ | ⟨-, hrow⟩ <;>
    rw [hrow] at h
  · rcases mem_updatePlacement h with h | ⟨old, hold, hobject, hagent, rfl⟩
    · exact .inl h
    · unfold adoptPlacement
      by_cases hsame : old.incarnationId = some incarnation
      · rw [if_pos hsame]
        exact .inl hold
      · rw [if_neg hsame]
        refine .inr ⟨hobject ▸ hw, hagent, rfl, rfl, fun hconfirmed => ?_⟩
        by_cases hnone : old.incarnationId = none
        · rw [if_pos hnone] at hconfirmed
          exact .inr ⟨old, hold, ⟨rfl, rfl⟩, hconfirmed, hnone⟩
        · rw [if_neg hnone] at hconfirmed
          cases hconfirmed
  · rcases List.mem_append.1 h with h | h
    · exact .inl h
    · rw [List.mem_singleton.1 h]
      exact .inr ⟨hw, rfl, rfl, rfl, fun hconfirmed => nomatch hconfirmed⟩

theorem OnePlacement.eq {rows : List Placement} (h : OnePlacement rows) {p q : Placement}
    (hp : p ∈ rows) (hq : q ∈ rows) (hsame : SamePlace p q) : p = q :=
  List.inj_on_of_nodup_map h hp hq (Prod.ext hsame.1 hsame.2)

/-- A row whose state a write sets. -/
theorem comes_setState {db db₁ : Database} {object : ObjectId} {agent : AgentId}
    {state : PlacementState} {w : Write}
    (hw : ∀ old ∈ db.placements, old.object = object → old.agentId = agent → state = .confirmed →
      w.Confirms db object agent old.incarnationId) {row : Placement}
    (h : row ∈ (db.updatePlacement object agent fun row => { row with state := state }).placements) :
    Comes db w db₁ row := by
  rcases mem_updatePlacement h with h | ⟨old, hold, hobject, hagent, rfl⟩
  · exact comes_of_mem h
  · refine .inl ⟨old, hold, ⟨rfl, rfl⟩, rfl, .inl rfl, fun hconfirmed => .inr ?_⟩
    show w.Confirms db old.object old.agentId old.incarnationId
    rw [hobject, hagent]
    exact hw old hold hobject hagent hconfirmed

/-- A placement that was just recorded is under the incarnation. -/
theorem incarnation_ensure {db : Database} {object : ObjectId} {agent : AgentTarget}
    {incarnation : IncarnationId} {row : Placement}
    (h : row ∈ (db.ensurePendingPlacement object agent incarnation).placements)
    (hobject : row.object = object) (hagent : row.agentId = agent.id) :
    row.incarnationId = some incarnation := by
  rcases ensurePendingPlacement_cases db object agent incarnation with ⟨-, hrow⟩ | ⟨hno, hrow⟩ <;>
    rw [hrow] at h
  · obtain ⟨old, hold, rfl⟩ := List.mem_map.1 h
    by_cases hthis : old.object = object ∧ old.agentId = agent.id
    · rw [if_pos hthis]
      unfold adoptPlacement
      split
      · assumption
      · rfl
    · rw [if_neg hthis] at hobject hagent
      exact absurd ⟨hobject, hagent⟩ hthis
  · rcases List.mem_append.1 h with h | h
    · have hsome : db.hasPlacement object agent.id = true :=
        List.any_eq_true.2 ⟨row, h, by simp [hobject, hagent]⟩
      rw [hsome] at hno
      cases hno
    · rw [List.mem_singleton.1 h]

/-- A row after a verification. -/
theorem comes_verified {db db₁ : Database} {object : ObjectId} {agent : AgentTarget}
    {incarnation : IncarnationId} {state : PlacementState} {row : Placement}
    (h : row ∈ ((db.ensurePendingPlacement object agent incarnation).updatePlacement object agent.id
      fun row => { row with state := state }).placements) :
    Comes db (.setPlacementVerification object agent incarnation state) db₁ row := by
  have hplaces : (Write.setPlacementVerification object agent incarnation state).Places object agent
      incarnation := ⟨rfl, rfl, rfl⟩
  rcases mem_updatePlacement h with h | ⟨old, hold, hobject, hagent, rfl⟩
  · rcases comes_ensure hplaces h with h | h
    · exact comes_of_mem h
    · exact .inr ⟨agent, incarnation, h⟩
  · have hunder := incarnation_ensure hold hobject hagent
    have hconfirms (hstate : state = .confirmed) :
        (Write.setPlacementVerification object agent incarnation state).Confirms db old.object
          old.agentId old.incarnationId := ⟨hstate, hobject.symm, hagent.symm, hunder.symm⟩
    rcases comes_ensure hplaces hold with hold | hold
    · exact .inl ⟨old, hold, ⟨rfl, rfl⟩, rfl, .inl rfl, fun hstate => .inr (hconfirms hstate)⟩
    · exact .inr ⟨agent, incarnation, hold.places, hold.agentId, hold.domain, hold.incarnation,
        fun hstate => .inl (hconfirms hstate)⟩

/-- What any write does to the placements. -/
theorem Write.placementStep {db db₁ : Database} {w : Write} (hok : w.perform db = .ok db₁)
    (hone : OnePlacement db.placements) :
    OnePlacement db₁.placements ∧ ∀ row ∈ db₁.placements, Comes db w db₁ row := by
  have hsame (h : db₁.placements = db.placements) :
      OnePlacement db₁.placements ∧ ∀ row ∈ db₁.placements, Comes db w db₁ row := by
    rw [h]
    exact ⟨hone, fun row hrow => comes_of_mem hrow⟩
  by_cases hplaces : w.AboutPlaces
  · cases w with
    | observeAgentIncarnation agent incarnation =>
      rcases observeAgentIncarnation_cases hok with
        ⟨old, -, -, -, -, rfl⟩ | ⟨old, -, -, -, -, -, hrows⟩ | ⟨-, -, hincarnations, hrows⟩
      · exact hsame rfl
      · exact hsame hrows
      · -- The first incarnation adopts the rows that have none.
        rw [hrows]
        refine ⟨hone.map fun row => ?_, fun row hrow => ?_⟩
        · split <;> exact ⟨rfl, rfl⟩
        · obtain ⟨old, hold, rfl⟩ := List.mem_map.1 hrow
          by_cases hadopted : old.agentId = agent.id ∧ old.incarnationId = none
          · rw [if_pos hadopted]
            refine .inl ⟨old, hold, ⟨rfl, rfl⟩, rfl, .inr ⟨hadopted.2, ?_⟩, .inl⟩
            refine ⟨⟨agent.id, incarnation, agent.failureDomain, .active⟩, ?_, rfl, hadopted.1.symm⟩
            simp [hincarnations]
          · rw [if_neg hadopted]
            exact comes_of_mem hold
    | retireIncarnation agent =>
      obtain ⟨old, -, -, -, -, hrows⟩ := retireIncarnation_cases hok
      rw [hrows]
      refine ⟨hone.map fun row => ?_, fun row hrow => ?_⟩
      · split <;> exact ⟨rfl, rfl⟩
      · obtain ⟨old, hold, rfl⟩ := List.mem_map.1 hrow
        by_cases hagent : old.agentId = agent
        · rw [if_pos hagent]
          exact .inl ⟨old, hold, ⟨rfl, rfl⟩, rfl, .inl rfl, fun h => nomatch h⟩
        · rw [if_neg hagent]
          exact comes_of_mem hold
    | ensurePendingPlacement object agent incarnation =>
      cases hok
      refine ⟨hone.ensure object agent incarnation, fun row hrow => ?_⟩
      rcases comes_ensure (w := .ensurePendingPlacement object agent incarnation) ⟨rfl, rfl, rfl⟩
        hrow with hrow | hrow
      · exact comes_of_mem hrow
      · exact .inr ⟨agent, incarnation, hrow⟩
    | confirmPlacement object agent =>
      rw [confirmPlacement_spec hok]
      refine ⟨hone.update fun _ => ⟨rfl, rfl⟩, fun row hrow => comes_setState ?_ hrow⟩
      exact fun old hold hobject hagent _ => ⟨rfl, rfl, old, hold, hobject, hagent, rfl⟩
    | setPlacementState object agent state =>
      rw [setPlacementState_spec hok]
      refine ⟨hone.update fun _ => ⟨rfl, rfl⟩, fun row hrow => comes_setState ?_ hrow⟩
      exact fun old hold hobject hagent hstate =>
        ⟨hstate, rfl, rfl, old, hold, hobject, hagent, rfl⟩
    | setPlacementVerification object agent incarnation state =>
      rw [setPlacementVerification_spec hok]
      refine ⟨(hone.ensure object agent incarnation).update fun _ => ⟨rfl, rfl⟩, fun row hrow => ?_⟩
      exact comes_verified hrow
    | deletePlacement object agent =>
      cases hok
      exact ⟨hone.filter _, fun row hrow => comes_of_mem (List.mem_filter.1 hrow).1⟩
    | deletePlacements object =>
      cases hok
      exact ⟨hone.filter _, fun row hrow => comes_of_mem (List.mem_filter.1 hrow).1⟩
    | _ => exact hplaces.elim
  · exact hsame (Write.places_eq hok hplaces).2

/-! ## Runs -/

/-- Writes one after the other, each with the database it met. -/
inductive Written : Database → List (Database × Write) → Database → Prop
  | start (db : Database) : Written db [] db
  | step {db db₁ db₂ : Database} {trace : List (Database × Write)} (before : Written db trace db₁)
      (w : Write) (ok : w.perform db₁ = .ok db₂) : Written db (trace ++ [(db₁, w)]) db₂

/-- No incarnation was ever recorded. -/
structure Legacy (db : Database) : Prop where
  noIncarnations : db.incarnations = []
  places : OnePlacement db.placements
  unowned : ∀ row ∈ db.placements, row.incarnationId = none

/-- Incarnations and placements are named once. -/
structure Keyed (db : Database) : Prop where
  active : OneActive db.incarnations
  places : OnePlacement db.placements

theorem Legacy.keyed {db : Database} (h : Legacy db) : Keyed db := by
  refine ⟨⟨?_, ?_⟩, h.places⟩
  · simp [h.noIncarnations]
  · simp [h.noIncarnations]

section Runs

variable {db db' : Database} {trace : List (Database × Write)}

theorem Written.keyed (h : Written db trace db') (hkeyed : Keyed db) : Keyed db' := by
  induction h with
  | start => exact hkeyed
  | step before w ok ih =>
    exact ⟨(Write.incarnationStep ok ih.active).oneActive ih.active,
      (Write.placementStep ok ih.places).1⟩

/-- An incarnation that ended stays as it is. -/
theorem Written.inactive (h : Written db trace db') (hkeyed : Keyed db) {row : Incarnation}
    (hrow : row ∈ db.incarnations) (hstatus : row.status ≠ .active) : row ∈ db'.incarnations := by
  induction h with
  | start => exact hrow
  | step before w ok ih =>
    have hactive := (before.keyed hkeyed).active
    exact (Write.incarnationStep ok hactive).inactive hactive ih hstatus

theorem refused_of_inactive (hone : OneActive db.incarnations) {row : Incarnation}
    (hrow : row ∈ db.incarnations) (hstatus : row.status ≠ .active) (agent : AgentTarget) :
    db.observeAgentIncarnation agent row.incarnationId =
        .error (.supersededIncarnation agent.id row.incarnationId) ∨
      db.observeAgentIncarnation agent row.incarnationId =
        .error (.retiredIncarnation agent.id row.incarnationId) := by
  have hfind : db.incarnations.find? (·.incarnationId == row.incarnationId) = some row := by
    cases hfound : db.incarnations.find? (·.incarnationId == row.incarnationId) with
    | none => exact absurd (List.find?_eq_none.1 hfound row hrow) (by simp)
    | some other =>
      have hid := List.find?_some hfound
      rw [beq_iff_eq] at hid
      rw [hone.unique (List.mem_of_find?_eq_some hfound) hrow hid]
  unfold observeAgentIncarnation refuseInactiveIncarnation
  rw [hfind]
  cases h : row.status with
  | active => exact absurd h hstatus
  | superseded => exact .inl (by simp [h])
  | retired => exact .inr (by simp [h])

/-- A row under an incarnation is confirmed for another only by a write that confirms it there. -/
theorem Written.confirmed_elsewhere (h : Written db trace db') (hkeyed : Keyed db) {p : Placement}
    (hp : p ∈ db.placements) {i : IncarnationId} (hi : p.incarnationId = some i) :
    ∀ q ∈ db'.placements, SamePlace p q → q.incarnationId ≠ none ∧
      (q.state = .confirmed → q.incarnationId = some i ∨
        ∃ step ∈ trace, step.2.Confirms step.1 q.object q.agentId q.incarnationId) := by
  induction h with
  | start =>
    intro q hq hsame
    rw [← hkeyed.places.eq hp hq hsame, hi]
    exact ⟨by simp, fun _ => .inl rfl⟩
  | @step db₁ db₂ trace before w ok ih =>
    intro q hq hsame
    have hlast (hconfirms : w.Confirms db₁ q.object q.agentId q.incarnationId) :
        ∃ step ∈ trace ++ [(db₁, w)], step.2.Confirms step.1 q.object q.agentId q.incarnationId :=
      ⟨(db₁, w), by simp, hconfirms⟩
    have hplaces := (before.keyed hkeyed).places
    rcases (Write.placementStep ok hplaces).2 q hq with ⟨old, hold, hcont⟩ | ⟨agent, j, hplaced⟩
    · have hsame' : SamePlace p old :=
        ⟨hsame.1.trans hcont.place.1.symm, hsame.2.trans hcont.place.2.symm⟩
      obtain ⟨hsome, hold'⟩ := ih old hold hsame'
      have heq := hcont.incarnation.resolve_right fun h => hsome h.1
      refine ⟨heq ▸ hsome, fun hconfirmed => ?_⟩
      rcases hcont.confirmed hconfirmed with hbefore | hnow
      · rcases hold' hbefore with hsameInc | ⟨step, hstep, hconfirms⟩
        · exact .inl (heq.trans hsameInc)
        · refine .inr ⟨step, List.mem_append_left _ hstep, ?_⟩
          rwa [← hcont.place.1, ← hcont.place.2, heq]
      · exact .inr (hlast hnow)
    · refine ⟨by simp [hplaced.incarnation], fun hconfirmed => .inr ?_⟩
      rcases hplaced.confirmed hconfirmed with hnow | ⟨old, hold, hplace, -, hnone⟩
      · exact hlast hnow
      · have hsame' : SamePlace p old :=
          ⟨hsame.1.trans hplace.1.symm, hsame.2.trans hplace.2.symm⟩
        exact absurd hnone (ih old hold hsame').1

end Runs

/-! ## Failure domains -/

/-- The current domains of the agents whose active incarnation holds a confirmed placement. -/
def Database.holdingDomains (db : Database) (object : ObjectId) : List Domain :=
  ((db.incarnations.filter fun row => row.status == .active && db.placements.any fun placement =>
    placement.object == object && placement.agentId == row.agentId &&
      placement.state == .confirmed && placement.incarnationId == some row.incarnationId).map
    (·.failureDomain)).dedup

/-- The write keeps the domain of each agent, and places objects under the agent's incarnations. -/
def Write.KeepsDomains (domainOf : AgentId → Domain) (db : Database) : Write → Prop
  | .observeAgentIncarnation agent _ => agent.failureDomain = domainOf agent.id
  | .ensurePendingPlacement _ agent incarnation => agent.failureDomain = domainOf agent.id ∧
      ∃ row ∈ db.incarnations, row.incarnationId = incarnation ∧ row.agentId = agent.id
  | .setPlacementVerification _ agent incarnation _ => agent.failureDomain = domainOf agent.id ∧
      ∃ row ∈ db.incarnations, row.incarnationId = incarnation ∧ row.agentId = agent.id
  | _ => True

instance (domainOf : AgentId → Domain) (db : Database) (w : Write) :
    Decidable (w.KeepsDomains domainOf db) := by
  cases w <;> unfold Write.KeepsDomains <;> infer_instance

/-- Every row has the domain of its agent, and is under an incarnation of the agent or none. -/
structure Settled (domainOf : AgentId → Domain) (db : Database) : Prop where
  incarnations : ∀ row ∈ db.incarnations, row.failureDomain = domainOf row.agentId
  placements : ∀ row ∈ db.placements, row.failureDomain = domainOf row.agentId
  owners : ∀ row ∈ db.placements, ∀ i, row.incarnationId = some i →
    ∃ own ∈ db.incarnations, own.incarnationId = i ∧ own.agentId = row.agentId

section Domains

variable {domainOf : AgentId → Domain} {db db₁ : Database} {w : Write}

theorem Write.KeepsDomains.configures (h : w.KeepsDomains domainOf db) {agent : AgentId}
    {domain : Domain} (hw : w.Configures agent domain) : domain = domainOf agent := by
  cases w with
  | observeAgentIncarnation target incarnation =>
    obtain ⟨rfl, rfl⟩ := hw
    exact h
  | _ => exact hw.elim

theorem Write.KeepsDomains.places (h : w.KeepsDomains domainOf db) {object : ObjectId}
    {agent : AgentTarget} {incarnation : IncarnationId} (hw : w.Places object agent incarnation) :
    agent.failureDomain = domainOf agent.id ∧
      ∃ row ∈ db.incarnations, row.incarnationId = incarnation ∧ row.agentId = agent.id := by
  cases w with
  | ensurePendingPlacement object' agent' incarnation' =>
    obtain ⟨rfl, rfl, rfl⟩ := hw
    exact h
  | setPlacementVerification object' agent' incarnation' state =>
    obtain ⟨rfl, rfl, rfl⟩ := hw
    exact h
  | _ => exact hw.elim

/-- What the first incarnation of an agent adopts becomes its own. -/
theorem Settled.step (h : Settled domainOf db) (hkeyed : Keyed db)
    (hkeeps : w.KeepsDomains domainOf db) (hok : w.perform db = .ok db₁) : Settled domainOf db₁ := by
  have hstep := Write.incarnationStep hok hkeyed.active
  have hcomes := (Write.placementStep hok hkeyed.places).2
  refine ⟨fun row hrow => ?_, fun row hrow => ?_, fun row hrow i hi => ?_⟩
  · rcases hstep.domain hkeyed.active hrow with hconfigured | ⟨old, hold, hagent, hdomain⟩
    · exact hkeeps.configures hconfigured
    · rw [← hagent, ← hdomain]
      exact h.incarnations old hold
  · rcases hcomes row hrow with ⟨old, hold, hcont⟩ | ⟨agent, j, hplaced⟩
    · rw [hcont.domain, ← hcont.place.2]
      exact h.placements old hold
    · rw [hplaced.domain, hplaced.agentId]
      exact (hkeeps.places hplaced.places).1
  · rcases hcomes row hrow with ⟨old, hold, hcont⟩ | ⟨agent, j, hplaced⟩
    · rcases hcont.incarnation with hsame | ⟨-, own, hown, hid, hagent⟩
      · obtain ⟨own, hown, hid, hagent⟩ := h.owners old hold i (hsame ▸ hi)
        obtain ⟨own', hown', hid', hagent'⟩ := hstep.owner hown
        exact ⟨own', hown', hid'.trans hid, hagent'.trans (hagent.trans hcont.place.2)⟩
      · rw [hi, Option.some.injEq] at hid
        exact ⟨own, hown, hid.symm, hagent⟩
    · obtain ⟨-, own, hown, hid, hagent⟩ := hkeeps.places hplaced.places
      obtain ⟨own', hown', hid', hagent'⟩ := hstep.owner hown
      rw [hplaced.incarnation, Option.some.injEq] at hi
      exact ⟨own', hown', hid'.trans (hid.trans hi), hagent'.trans (hagent.trans hplaced.agentId.symm)⟩

theorem mem_holdingDomains {object : ObjectId} {domain : Domain} :
    domain ∈ db.holdingDomains object ↔ ∃ row ∈ db.incarnations, row.status = .active ∧
      (∃ p ∈ db.placements, p.object = object ∧ p.agentId = row.agentId ∧ p.state = .confirmed ∧
        p.incarnationId = some row.incarnationId) ∧ row.failureDomain = domain := by
  simp [holdingDomains, and_assoc]

/-- Domains that follow the agents are counted as they are now. -/
theorem Settled.confirmedDomains (h : Settled domainOf db) (hone : OneActive db.incarnations)
    {object : ObjectId} (howned : ∀ p ∈ db.placements, p.object = object → p.state = .confirmed →
      p.incarnationId ≠ none) : db.confirmedDomains object = (db.holdingDomains object).length := by
  have hnodup : (db.holdingDomains object).Nodup := List.nodup_dedup _
  rw [← hnodup.dedup, Database.confirmedDomains, ← List.card_toFinset, ← List.card_toFinset]
  refine congrArg Finset.card (Finset.ext fun domain => ?_)
  rw [List.mem_toFinset, List.mem_toFinset, mem_holdingDomains]
  constructor
  · intro hdomain
    obtain ⟨p, hp, rfl⟩ := List.mem_map.1 hdomain
    obtain ⟨hp, hlive⟩ := List.mem_filter.1 hp
    simp only [liveConfirmed, Bool.and_eq_true, beq_iff_eq] at hlive
    obtain ⟨hobject, hstate, hactive⟩ := hlive
    obtain ⟨i, hi⟩ := Option.ne_none_iff_exists'.1 (howned p hp hobject hstate)
    rw [hi, Option.all_some, activeIncarnation, List.any_eq_true] at hactive
    obtain ⟨row, hrow, hthis⟩ := hactive
    simp only [Bool.and_eq_true, beq_iff_eq] at hthis
    -- The active incarnation of that name is one of the agent.
    obtain ⟨own, hown, hid, hagent⟩ := h.owners p hp i hi
    have heq : own = row := hone.unique hown hrow (hid.trans hthis.1.symm)
    refine ⟨row, hrow, hthis.2, ⟨p, hp, hobject, ?_, hstate, by rw [hi, hthis.1]⟩, ?_⟩
    · rw [← heq, hagent]
    · rw [h.incarnations row hrow, h.placements p hp, ← heq, hagent]
  · rintro ⟨row, hrow, hactive, ⟨p, hp, hobject, hagent, hstate, hi⟩, rfl⟩
    refine List.mem_map.2 ⟨p, List.mem_filter.2 ⟨hp, ?_⟩, ?_⟩
    · simp only [liveConfirmed, Bool.and_eq_true, beq_iff_eq]
      refine ⟨hobject, hstate, ?_⟩
      rw [hi, Option.all_some, activeIncarnation, List.any_eq_true]
      exact ⟨row, hrow, by simp [hactive]⟩
    · rw [h.incarnations row hrow, h.placements p hp, hagent]

end Domains

section

variable {start db : Database} {trace : List (Database × Write)}

theorem Written.settled {domainOf : AgentId → Domain} (h : Written start trace db)
    (hstart : Legacy start)
    (hdomains : ∀ row ∈ start.placements, row.failureDomain = domainOf row.agentId)
    (hkeeps : ∀ step ∈ trace, step.2.KeepsDomains domainOf step.1) : Settled domainOf db := by
  induction h with
  | start =>
    refine ⟨?_, hdomains, fun row hrow i hi => ?_⟩
    · simp [hstart.noIncarnations]
    · rw [hstart.unowned row hrow] at hi
      cases hi
  | step before w ok ih =>
    refine (ih fun step hstep => hkeeps step (List.mem_append_left _ hstep)).step
      (before.keyed hstart.keyed) (hkeeps (_, w) (by simp)) ok

/-- A placement has the domain its agent had in a write of it, or the one it started with. -/
theorem Written.recorded_domain (h : Written start trace db) (hkeyed : Keyed start) :
    ∀ row ∈ db.placements,
      (∃ old ∈ start.placements, SamePlace old row ∧ old.failureDomain = row.failureDomain) ∨
        ∃ step ∈ trace, ∃ agent incarnation, step.2.Places row.object agent incarnation ∧
          agent.id = row.agentId ∧ agent.failureDomain = row.failureDomain := by
  induction h with
  | start => exact fun row hrow => .inl ⟨row, hrow, ⟨rfl, rfl⟩, rfl⟩
  | step before w ok ih =>
    intro row hrow
    rcases (Write.placementStep ok (before.keyed hkeyed).places).2 row hrow with
      ⟨old, hold, hcont⟩ | ⟨agent, i, hplaced⟩
    · rw [hcont.domain, ← hcont.place.1, ← hcont.place.2]
      rcases ih old hold with ⟨first, hfirst, hplace, hdomain⟩ | ⟨step, hstep, hwrote⟩
      · exact .inl ⟨first, hfirst, ⟨hplace.1.trans hcont.place.1, hplace.2.trans hcont.place.2⟩,
          hdomain⟩
      · exact .inr ⟨step, List.mem_append_left _ hstep, hwrote⟩
    · exact .inr ⟨_, List.mem_append_right _ (List.mem_singleton_self _), agent, i, hplaced.places,
        hplaced.agentId.symm, hplaced.domain.symm⟩

/-- In every run one incarnation of an agent is active; one that ended is refused and never active
again; a placement under one incarnation counts for another only once it was confirmed there; and
the domains counted are those with which the placements were written, which are the agents' current
ones as long as no agent changes its domain. -/
theorem incarnations_and_placements_consistent (hstart : Legacy start)
    (h : Written start trace db) :
    (∀ a ∈ db.incarnations, ∀ b ∈ db.incarnations, a.status = .active → b.status = .active →
      a.agentId = b.agentId → a = b) ∧
    (∀ row ∈ db.incarnations, row.status ≠ .active →
      (∀ agent, db.observeAgentIncarnation agent row.incarnationId =
          .error (.supersededIncarnation agent.id row.incarnationId) ∨
        db.observeAgentIncarnation agent row.incarnationId =
          .error (.retiredIncarnation agent.id row.incarnationId)) ∧
      ∀ later db', Written db later db' → ∀ row' ∈ db'.incarnations,
        row'.incarnationId = row.incarnationId → row' = row) ∧
    (∀ later db', Written db later db' → ∀ p ∈ db.placements, ∀ i, p.incarnationId = some i →
      ∀ q ∈ db'.placements, SamePlace p q → db'.liveConfirmed q = true →
        q.incarnationId = some i ∨
          ∃ step ∈ later, step.2.Confirms step.1 q.object q.agentId q.incarnationId) ∧
    (∀ row ∈ db.placements,
      (∃ old ∈ start.placements, SamePlace old row ∧ old.failureDomain = row.failureDomain) ∨
        ∃ step ∈ trace, ∃ agent incarnation, step.2.Places row.object agent incarnation ∧
          agent.id = row.agentId ∧ agent.failureDomain = row.failureDomain) ∧
    ∀ domainOf : AgentId → Domain,
      (∀ row ∈ start.placements, row.failureDomain = domainOf row.agentId) →
      (∀ step ∈ trace, step.2.KeepsDomains domainOf step.1) →
      ∀ object, (∀ p ∈ db.placements, p.object = object → p.state = .confirmed →
        p.incarnationId ≠ none) → db.confirmedDomains object = (db.holdingDomains object).length := by
  have hkeyed := h.keyed hstart.keyed
  refine ⟨hkeyed.active.one, fun row hrow hstatus => ⟨?_, ?_⟩, ?_, ?_, ?_⟩
  · exact refused_of_inactive hkeyed.active hrow hstatus
  · intro later db' hlater row' hrow' hid
    have hstays := hlater.inactive hkeyed hrow hstatus
    exact (hlater.keyed hkeyed).active.unique hrow' hstays hid
  · intro later db' hlater p hp i hi q hq hsame hlive
    simp only [liveConfirmed, Bool.and_eq_true, beq_iff_eq] at hlive
    exact (hlater.confirmed_elsewhere hkeyed hp hi q hq hsame).2 hlive.1
  · exact h.recorded_domain hstart.keyed
  · intro domainOf hdomains hkeeps object howned
    exact (h.settled hstart hdomains hkeeps).confirmedDomains hkeyed.active howned

end

/-! ## A domain that changes -/

/-- The writes of a list, as long as none is refused. -/
def performAll : Database → List Write → Option (List (Database × Write) × Database)
  | db, [] => some ([], db)
  | db, w :: rest =>
    match w.perform db with
    | .ok db₁ => (performAll db₁ rest).map fun (trace, last) => ((db, w) :: trace, last)
    | .error _ => none

theorem Written.trans {db db₁ db₂ : Database} {trace trace' : List (Database × Write)}
    (h : Written db trace db₁) (h' : Written db₁ trace' db₂) : Written db (trace ++ trace') db₂ := by
  induction h' with
  | start => simpa using h
  | step before w ok ih =>
    rw [← List.append_assoc]
    exact .step ih w ok

theorem written_performAll {db db' : Database} {writes : List Write}
    {trace : List (Database × Write)} (h : performAll db writes = some (trace, db')) :
    Written db trace db' := by
  induction writes generalizing db trace with
  | nil =>
    cases h
    exact .start _
  | cons w rest ih =>
    unfold performAll at h
    split at h
    · next db₁ hok =>
      obtain ⟨⟨later, last⟩, hrest, heq⟩ := Option.map_eq_some_iff.1 h
      cases heq
      exact (Written.step (.start db) w hok).trans (ih hrest)
    · cases h

theorem legacy_new : Legacy .new :=
  ⟨rfl, List.nodup_nil, fun _ h => absurd h List.not_mem_nil⟩

/-- Two agents hold a chunk each in a domain of its own. -/
def placedTwice : List Write :=
  [.observeAgentIncarnation ⟨1, 1⟩ 101, .observeAgentIncarnation ⟨2, 2⟩ 102,
    .ensurePendingPlacement ⟨.chunk, 7⟩ ⟨1, 1⟩ 101, .confirmPlacement ⟨.chunk, 7⟩ 1,
    .ensurePendingPlacement ⟨.chunk, 7⟩ ⟨2, 2⟩ 102, .confirmPlacement ⟨.chunk, 7⟩ 2]

theorem incarnations_and_placements_consistent_two :
    ∃ result, performAll .new placedTwice = some result ∧
      result.2.confirmedDomains ⟨.chunk, 7⟩ = (result.2.holdingDomains ⟨.chunk, 7⟩).length := by
  have hrun : ∃ result, performAll .new placedTwice = some result ∧
      (∀ step ∈ result.1, step.2.KeepsDomains id step.1) ∧
        ∀ p ∈ result.2.placements, p.incarnationId ≠ none := by
    decide +kernel
  obtain ⟨⟨trace, db⟩, hrun, hkeeps, howned⟩ := hrun
  refine ⟨(trace, db), hrun, ?_⟩
  obtain ⟨-, -, -, -, hdomains⟩ :=
    incarnations_and_placements_consistent legacy_new (written_performAll hrun)
  exact hdomains id (fun _ h => absurd h List.not_mem_nil) hkeeps _ fun p hp _ _ => howned p hp

/-- The first agent moves to the domain of the second. -/
def relabelled : List Write := placedTwice ++ [.observeAgentIncarnation ⟨1, 2⟩ 101]

/-- Two domains are counted where the agents are in one. -/
theorem relabelled_domain_is_counted :
    ¬ ∀ (start db : Database) (trace : List (Database × Write)), Legacy start →
      Written start trace db →
      ∀ object, db.confirmedDomains object = (db.holdingDomains object).length := by
  intro h
  have hrun : ∃ result, performAll .new relabelled = some result ∧
      result.2.confirmedDomains ⟨.chunk, 7⟩ = 2 ∧
        (result.2.holdingDomains ⟨.chunk, 7⟩).length = 1 := by
    decide +kernel
  obtain ⟨⟨trace, db⟩, hrun, htwo, hone⟩ := hrun
  have heq := h .new db trace legacy_new (written_performAll hrun) ⟨.chunk, 7⟩
  rw [htwo, hone] at heq
  cases heq

end Metadata

end DistrHnsw
