import DistrHnsw.Metadata.Frames
import DistrHnsw.Metadata.Visibility

/-!
# What collection deletes

A collection asks an agent to delete an object only when no committed file requires it, nothing is
on the move and every agent answered.  That it is garbage follows exactly when every reference to it
has been let go: a candidate is judged by the first reference that made it one.
-/

namespace DistrHnsw

namespace Metadata

open Program Portal Collect Database

/-! ## Garbage -/

/-- The generations of files that an object belongs to. -/
def Database.generationsOf (db : Database) (object : ObjectId) : List (FileId × ℕ) :=
  match object.kind with
  | .manifest => (db.fileManifests.filter (·.hash == object.hash)).map fun row =>
      (row.fileId, row.generation)
  | .chunk => (db.fileChunks.filter (·.hash == object.hash)).map fun row =>
      (row.fileId, row.generation)
  | .deletionMarker => []

/-- Every active incarnation has a complete observation of the kind after the time. -/
def ObservedAfter (db : Database) (kind : ObjectKind) (time : Time) : Prop :=
  ∀ active ∈ db.activeIncarnations, ∃ scan ∈ db.latestCompleteScans,
    scan.incarnationId = active.2 ∧ scan.kind = kind ∧ time < scan.completedAt

/-- The generation is below the marker of a deleted file, whose retention has elapsed. -/
def Superseded (options : GcOptions) (now : Time) (db : Database) (kind : ObjectKind) (file : FileId)
    (generation : ℕ) : Prop :=
  ∃ row ∈ db.files, row.fileId = file ∧ row.state = .deleted ∧ generation < row.generation ∧
    ∃ deletedAt, row.deletedAt = some deletedAt ∧ options.retentionSeconds ≤ now - deletedAt ∧
      ObservedAfter db kind deletedAt

/-- The upload is older than the staging grace, and its file is not known; `expiry` is the time at
which it counts as expired. -/
def Abandoned (options : GcOptions) (expiry : UploadRow → Time) (now : Time) (db : Database)
    (kind : ObjectKind) (upload : UploadRow) : Prop :=
  upload.createdAt ≤ now - options.stagingGraceSeconds ∧ db.fileProjection upload.fileId = none ∧
    ObservedAfter db kind (expiry upload)

/-- Every reference to the object has been let go, and an object of the history is on every backup
target. -/
structure Unwanted (options : GcOptions) (expiry : UploadRow → Time) (now : Time) (db : Database)
    (object : ObjectId) : Prop where
  generations : ∀ reference ∈ db.generationsOf object,
    Superseded options now db object.kind reference.1 reference.2
  uploads : ∀ upload ∈ db.uploads, upload.state ≠ .committed → object ∈ db.plannedObjects upload →
    Abandoned options expiry now db object.kind upload
  backedUp : (∃ row ∈ db.historyObjects, row.object = object) →
    ∀ target ∈ db.backupTargets, db.backupObjectVerified target object = true

/-- The object may be deleted. -/
structure Garbage (options : GcOptions) (expiry : UploadRow → Time) (now : Time) (db : Database)
    (object : ObjectId) : Prop where
  required : db.requiredByLiveFile object = false
  kind : object.kind ≠ .deletionMarker
  unwanted : Unwanted options expiry now db object
  placements : ∀ row ∈ db.allPlacements object, row.state ≠ .pending

/-- Every reference to the object is that of a candidate, and each of these candidates passes
evaluation; collection itself evaluates one of them. -/
structure Judged (options : GcOptions) (now : Time) (db : Database) (object : ObjectId) : Prop where
  generations : ∀ reference ∈ db.generationsOf object, ∃ deleted ∈ db.deletedFiles,
    deleted.1 = reference.1 ∧ reference.2 < deleted.2.1
  uploads : ∀ upload ∈ db.uploads, upload.state ≠ .committed → object ∈ db.plannedObjects upload →
    upload ∈ db.expiredUploads (now - options.stagingGraceSeconds)
  candidates : ∀ candidate ∈ deletedCandidates db options ++ stagingCandidates db options now,
    candidate.object = object → evaluate db (proofContext db now) candidate = []

/-- The agent answered as the one that is configured. -/
def Reported (agent : AgentTarget) (past : List (Event portalWorld)) : Prop :=
  ∃ db incarnation free, (.asked db (.health agent) (Health.reports agent.id agent.failureDomain
    incarnation free) : Event portalWorld) ∈ past

/-- The agent listed its control objects of the kind, all of them known. -/
def Listed (agent : AgentTarget) (kind : ObjectKind) (past : List (Event portalWorld)) : Prop :=
  ∃ (db : Database) (objects : List (ObjectHash × ℕ)),
    (.asked db (.inventory agent kind) (some objects) : Event portalWorld) ∈ past ∧
      ∀ entry ∈ objects, (⟨kind, entry.1⟩ : ObjectId) ∈ db.knownControlObjects

/-- What holds when an object is deleted, after the given events. -/
structure Justified (options : GcOptions) (agents : List AgentTarget)
    (past : List (Event portalWorld)) (db : Database) (object : ObjectId) : Prop where
  garbage : ∃ now s, (.asked s .now now : Event portalWorld) ∈ past ∧
    (∀ expiry, Garbage options expiry now db object ↔ Unwanted options expiry now db object) ∧
    (Judged options now db object → Garbage options (·.createdAt) now db object)
  recovery : db.recoveryPending = none
  reported : ∀ agent ∈ agents, Reported agent past
  listed : ∀ agent ∈ agents, ∀ kind ∈ [ObjectKind.manifest, .deletionMarker], Listed agent kind past

/-! ## Judged by every reference -/

section

variable {options : GcOptions} {now : Time} {db : Database} {object : ObjectId}

/-- The observations of what passes are all after its threshold. -/
theorem Passes.observedAfter {candidate : Candidate}
    (h : Passes db (proofContext db now) candidate) :
    ObservedAfter db candidate.object.kind candidate.threshold := by
  intro active hactive
  obtain ⟨scan, hscan, heq⟩ := List.mem_map.1 (h.observed active hactive)
  obtain ⟨hincarnation, hkind⟩ := Prod.mk.inj heq
  exact ⟨scan, hscan, hincarnation, hkind, h.scans scan hscan hkind⟩

theorem mem_supersededObjects_of_generation {reference : FileId × ℕ} {generation : ℕ}
    (h : reference ∈ db.generationsOf object) (hlt : reference.2 < generation) :
    object ∈ db.supersededObjects reference.1 generation := by
  obtain ⟨kind, hash⟩ := object
  cases kind with
  | manifest =>
    obtain ⟨row, hrow, rfl⟩ := List.mem_map.1 h
    obtain ⟨hmem, hhash⟩ := List.mem_filter.1 hrow
    refine List.mem_append_left _ (List.mem_map.2 ⟨row, List.mem_filter.2 ⟨hmem, ?_⟩, ?_⟩)
    · simpa using hlt
    · rw [eq_of_beq hhash]
  | chunk =>
    obtain ⟨row, hrow, rfl⟩ := List.mem_map.1 h
    obtain ⟨hmem, hhash⟩ := List.mem_filter.1 hrow
    refine List.mem_append_right _ (List.mem_map.2 ⟨row, List.mem_filter.2 ⟨hmem, ?_⟩, ?_⟩)
    · simpa using hlt
    · rw [eq_of_beq hhash]
  | deletionMarker => exact absurd h List.not_mem_nil

/-- An object of the history that is no marker belongs to a generation. -/
theorem generationsOf_of_history (hkind : object.kind ≠ .deletionMarker)
    (h : ∃ row ∈ db.historyObjects, row.object = object) :
    ∃ reference, reference ∈ db.generationsOf object := by
  obtain ⟨-, row, hrow, rfl⟩ := mem_firstOfEach.1 h
  rw [List.mem_insertionSort, List.mem_filter] at hrow
  have hrows := hrow.1
  simp only [historyRows, joinFiles, List.mem_append, List.mem_flatMap, List.mem_map] at hrows
  rcases hrows with (⟨own, hown, file, -, rfl⟩ | ⟨own, hown, file, -, rfl⟩) | ⟨own, hown, file, -, rfl⟩
  · exact ⟨_, List.mem_map.2 ⟨own, List.mem_filter.2 ⟨hown, beq_self_eq_true _⟩, rfl⟩⟩
  · exact ⟨_, List.mem_map.2 ⟨own, List.mem_filter.2 ⟨hown, beq_self_eq_true _⟩, rfl⟩⟩
  · exact absurd rfl hkind

/-- Every generation of a judged object made it a candidate, which passed. -/
theorem Judged.passes (h : Judged options now db object) {reference : FileId × ℕ}
    (href : reference ∈ db.generationsOf object) : ∃ deleted ∈ db.deletedFiles,
      deleted.1 = reference.1 ∧ reference.2 < deleted.2.1 ∧ Passes db (proofContext db now)
        ⟨object, deleted.2.2, options.retentionSeconds, .deletedGeneration⟩ := by
  obtain ⟨deleted, hdeleted, hfile, hlt⟩ := h.generations reference href
  refine ⟨deleted, hdeleted, hfile, hlt, evaluate_nil (h.candidates _ ?_ rfl)⟩
  refine List.mem_append_left _ (List.mem_flatMap.2 ⟨deleted, hdeleted, List.mem_map.2 ⟨object, ?_, rfl⟩⟩)
  rw [hfile]
  exact mem_supersededObjects_of_generation href hlt

/-- An object that passes by each of its references has been let go. -/
theorem Judged.unwanted (h : Judged options now db object) (hkind : object.kind ≠ .deletionMarker) :
    Unwanted options (·.createdAt) now db object where
  generations reference href := by
    obtain ⟨deleted, hdeleted, hfile, hlt, hpasses⟩ := h.passes href
    obtain ⟨row, hrow, hrest⟩ := List.mem_filterMap.1 hdeleted
    obtain ⟨deletedAt, htime, rfl⟩ := Option.map_eq_some_iff.1 hrest
    rw [List.mem_insertionSort, List.mem_filter, beq_iff_eq] at hrow
    exact ⟨row, hrow.1, hfile, hrow.2, hlt, deletedAt, htime, hpasses.retention,
      hpasses.observedAfter⟩
  uploads upload hupload hstate hplanned := by
    have hexpired := h.uploads upload hupload hstate hplanned
    have hpasses := evaluate_nil (h.candidates
      ⟨object, upload.createdAt, options.stagingGraceSeconds, .staging upload.fileId⟩
      (List.mem_append_right _ (List.mem_flatMap.2 ⟨upload, hexpired,
        List.mem_map.2 ⟨object, hplanned, rfl⟩⟩)) rfl)
    unfold expiredUploads at hexpired
    rw [List.mem_insertionSort, List.mem_filter] at hexpired
    simp only [Bool.and_eq_true, decide_eq_true_eq] at hexpired
    exact ⟨hexpired.2.2, hpasses.origin, hpasses.observedAfter⟩
  backedUp hhistory target htarget := by
    obtain ⟨reference, href⟩ := generationsOf_of_history hkind hhistory
    obtain ⟨deleted, -, -, -, hpasses⟩ := h.passes href
    exact hpasses.origin target htarget

end

/-! ## The run -/

variable {O : Outside portalWorld} {x y : Scene O} {options : GcOptions}
  {agents live : List AgentTarget} {blockers : List Blocker} {time : Time}

/-- A step that asks for a deletion justifies it. -/
def Careful (options : GcOptions) (agents : List AgentTarget) (x y : Scene O) : Prop :=
  ∃ event, y.past = x.past ++ [event] ∧ ∀ db agent object proof answer,
    event = .asked db (.delete agent object proof) answer → Justified options agents x.past db object

theorem careful_wrote (x : Scene O) (w : Write) (s : Database) :
    Careful options agents x (x.wrote w s) :=
  ⟨_, rfl, fun _ _ _ _ _ h => nomatch h⟩

theorem careful_asked (x : Scene O) {q : Query} (hq : q.Keeps) (a : q.Answer) (e : O.State) :
    Careful options agents x (x.asked q a e) := by
  refine ⟨_, rfl, fun db agent object proof answer h => ?_⟩
  cases h
  exact hq.elim

/-- What a collection knows of the agents that answered, of whose control objects `blockers` were
found. -/
structure Cleared (agents live : List AgentTarget) (blockers : List Blocker) (time : Time)
    (x : Scene O) : Prop where
  time : ∃ s, (.asked s .now time : Event portalWorld) ∈ x.past
  recovery : x.store.recoveryPending = none
  all : live.length = agents.length → live = agents
  reported : ∀ agent ∈ live, Reported agent x.past
  listed : blockers = [] → ∀ agent ∈ live, ∀ kind ∈ [ObjectKind.manifest, .deletionMarker],
    Listed agent kind x.past

theorem Cleared.later (h : Cleared agents live blockers time x)
    (hrecovery : y.store.recoveryPending = x.store.recoveryPending)
    (hpast : ∃ later, y.past = x.past ++ later) : Cleared agents live blockers time y := by
  obtain ⟨later, hlater⟩ := hpast
  have hmem (event : Event portalWorld) (hevent : event ∈ x.past) : event ∈ y.past := by
    rw [hlater]
    exact List.mem_append_left _ hevent
  exact {
    time := h.time.imp fun s hs => hmem _ hs
    recovery := hrecovery.trans h.recovery
    all := h.all
    reported := fun agent hagent => by
      obtain ⟨db, incarnation, free, hevent⟩ := h.reported agent hagent
      exact ⟨db, incarnation, free, hmem _ hevent⟩
    listed := fun hnone agent hagent kind hkind => by
      obtain ⟨db, objects, hevent, hknown⟩ := h.listed hnone agent hagent kind hkind
      exact ⟨db, objects, hmem _ hevent, hknown⟩ }

theorem Write.Collects.recoveryPending {w : Write} (hw : w.Collects) {db db' : Database}
    (hok : w.perform db = .ok db') : db'.recoveryPending = db.recoveryPending := by
  cases w with
  | recordGcProof id proof =>
    obtain ⟨-, rfl⟩ := recordGcProof_spec hok
    rfl
  | finishGcProof id status =>
    cases hok
    rfl
  | deletePlacement object agent =>
    cases hok
    rfl
  | deletePlacements object =>
    cases hok
    rfl
  | _ => exact hw.elim

/-- A program that deletes nothing keeps what is known. -/
theorem collecting_safe {α : Type} {p : Action α} (hp : p.Only Write.Collects Query.Keeps)
    (hx : Cleared agents live blockers time x) :
    p.Safe (fun _ => True) Eq (Careful options agents)
      (fun _ => Cleared agents live blockers time) x := by
  refine hp.safe hx (by rintro x y h rfl; exact h) (fun w hw x s h hok _ => ?_)
    fun q hq x a e h _ _ => ⟨careful_asked x hq a e, h.later rfl ⟨_, rfl⟩⟩
  exact ⟨careful_wrote x w s, h.later (hw.recoveryPending hok) ⟨_, rfl⟩⟩

/-! ### Statements that only read -/

theorem reads_proofContextNow (now : Time) :
    (proofContextNow now).Only (fun _ => False) fun _ => False :=
  only_bind (only_reading _) fun _ => only_bind (only_reading _) fun _ =>
    only_bind (only_reading _) fun _ => only_bind (only_reading _) fun _ => only_pure _

theorem reads_evaluateNow (context : ProofContext) (candidate : Candidate) :
    (evaluateNow context candidate).Only (fun _ => False) fun _ => False := by
  refine only_bind ?_ fun own => only_bind (only_reading _) fun _ => only_bind (only_reading _)
    fun _ => only_bind (only_reading _) fun _ => only_pure _
  unfold originFactsNow
  split
  · exact only_bind (only_mapM fun target _ => only_reading _) fun _ => only_pure _
  · exact only_reading _

theorem reads_candidatesNow (options : GcOptions) (now : Time) :
    (candidatesNow options now).Only (fun _ => False) fun _ => False :=
  only_bind (only_reading _) fun _ => only_bind (only_mapM fun _ _ => only_bind (only_reading _)
    fun _ => only_bind (only_reading _) fun _ => only_pure _) fun _ => only_bind (only_reading _)
    fun _ => only_bind (only_mapM fun _ _ => only_bind (only_reading _) fun _ => only_pure _)
    fun _ => only_pure _

/-! ### One candidate -/

/-- Some placements are gone, nothing else changed. -/
def Fewer (db db' : Database) : Prop :=
  ∃ rows, db' = { db with placements := rows } ∧ ∀ row ∈ rows, row ∈ db.placements

/-- What passed is garbage when every reference to it has been let go. -/
theorem Passes.justified {db db' : Database} {context : ProofContext} {candidate : Candidate}
    (h : Passes db context candidate) (hfewer : Fewer db db')
    (hcleared : Cleared agents live context.globalBlockers time x) (hstore : x.store = db')
    (hall : live.length = agents.length) :
    Justified options agents x.past x.store candidate.object := by
  obtain rfl := hcleared.all hall
  obtain ⟨s, hs⟩ := hcleared.time
  have hgarbage (expiry : UploadRow → Time)
      (hunwanted : Unwanted options expiry time x.store candidate.object) :
      Garbage options expiry time x.store candidate.object := by
    rw [hstore] at hunwanted ⊢
    obtain ⟨rows, rfl, hrows⟩ := hfewer
    refine ⟨h.required, h.kind, hunwanted, fun row hrow => h.placements row ?_⟩
    obtain ⟨hmem, hobject⟩ := List.mem_filter.1 hrow
    exact List.mem_filter.2 ⟨hrows row hmem, hobject⟩
  exact ⟨⟨time, s, hs, fun expiry => ⟨(·.unwanted), hgarbage expiry⟩,
    fun hjudged => hgarbage _ (hjudged.unwanted h.kind)⟩, hcleared.recovery, hcleared.reported,
    hcleared.listed h.globals⟩

theorem deleteFrom_safe {db : Database} {context : ProofContext} {candidate : Candidate}
    (h : Passes db context candidate) (hall : live.length = agents.length) (proof : ProofId)
    (all : Bool) (agent : AgentTarget)
    (hx : Cleared agents live context.globalBlockers time x ∧ Fewer db x.store) :
    (deleteFrom candidate.object proof all agent).Safe (fun _ => True) Eq (Careful options agents)
      (fun _ x => Cleared agents live context.globalBlockers time x ∧ Fewer db x.store) x := by
  refine safe_bind.2 (safe_query.2 ?_)
  rintro x rfl answer e - -
  refine ⟨?_, ?_⟩
  · refine ⟨_, rfl, fun db' agent' object proof' answer' heq => ?_⟩
    cases heq
    exact h.justified hx.2 hx.1 rfl hall
  · have hcleared := hx.1.later (y := x.asked _ answer e) rfl ⟨_, rfl⟩
    split
    · refine safe_bind.2 (safe_write.2 ?_)
      rintro z rfl s hok -
      cases hok
      refine ⟨careful_wrote _ _ _, hcleared.later rfl ⟨_, rfl⟩, ?_⟩
      obtain ⟨rows, hstore, hrows⟩ := hx.2
      refine ⟨rows.filter fun row => !(row.object == candidate.object && row.agentId == agent.id),
        ?_, fun row hrow => hrows row (List.mem_filter.1 hrow).1⟩
      show deletePlacement x.store _ _ = _
      rw [hstore]
      rfl
    · exact ⟨hcleared, hx.2⟩

theorem applyProof_safe {context : ProofContext} {candidate : Candidate} (proof : ProofId)
    (hx : Cleared agents live context.globalBlockers time x) :
    (applyProof agents live context candidate proof).Safe (fun _ => True) Eq (Careful options agents)
      (fun _ => Cleared agents live context.globalBlockers time) x := by
  refine safe_bind.2 (((ensures_proofContextNow.2 rfl).safe (P := fun fresh _ =>
    fresh = proofContext x.store context.now) (reads_proofContextNow _)).mono ?_)
  rintro fresh y ⟨rfl, rfl⟩
  refine safe_bind.2 (((ensures_evaluateNow.2 rfl).safe (P := fun blocked _ => blocked = evaluate
    y.store { proofContext y.store context.now with globalBlockers := context.globalBlockers }
      candidate) (reads_evaluateNow _ _)).mono ?_)
  rintro blocked z ⟨hblocked, rfl⟩
  split
  · exact collecting_safe (only_write trivial) hx
  · next hfresh =>
    split
    · exact hx
    · next hall =>
      have hnone : evaluate z.store { proofContext z.store context.now with
          globalBlockers := context.globalBlockers } candidate = [] := by
        rw [← hblocked]
        by_contra hsome
        exact hfresh (Bool.or_eq_true_iff.2 (.inr (by simpa using hsome)))
      have hpasses := evaluate_nil hnone
      have hstart : Cleared agents live context.globalBlockers time z ∧ Fewer z.store z.store :=
        ⟨hx, z.store.placements, rfl, fun _ h => h⟩
      refine safe_bind.2 ((safe_foldlM (J := fun _ y =>
        Cleared agents live context.globalBlockers time y ∧ Fewer z.store y.store)
        (fun agent _ all y hy => deleteFrom_safe hpasses (not_not.1 hall) proof all agent hy)
        hstart).mono fun all y hy => ?_)
      refine safe_onlyIf (fun _ => ?_) fun _ => hy.1
      exact collecting_safe (only_bind (only_write trivial) fun _ => only_write trivial) hy.1

theorem only_reuseProof (context : ProofContext) (matching : List GcProof) :
    (reuseProof context matching).Only Write.Collects Query.Keeps := by
  refine only_foldlM fun existing _ found => ?_
  split
  · trivial
  · exact only_bind (only_write trivial) fun _ => trivial

theorem only_proofFor (context : ProofContext) (matching : List GcProof) (candidate : Candidate) :
    (proofFor context matching candidate).Only Write.Collects Query.Keeps := by
  refine only_bind (only_reuseProof context matching) fun found => ?_
  cases found with
  | some id => trivial
  | none => exact only_bind (only_query trivial) fun id => only_bind (only_write trivial) fun _ => trivial

theorem gcCandidate_safe {context : ProofContext} (planned : List GcProof) (candidate : Candidate)
    (hx : Cleared agents live context.globalBlockers time x) :
    (gcCandidate options agents live context planned candidate).Safe (fun _ => True) Eq
      (Careful options agents) (fun _ => Cleared agents live context.globalBlockers time) x := by
  have hsettled : (settledAlready candidate.object).Only Write.Collects Query.Keeps := by
    refine only_bind (only_reading _) fun required => ?_
    split
    · trivial
    · exact only_reading _
  refine safe_bind.2 ((collecting_safe hsettled hx).mono fun settled x hx => ?_)
  split
  · exact hx
  · have hreads : (evaluateNow context candidate).Only Write.Collects Query.Keeps :=
      (reads_evaluateNow context candidate).mono (fun _ h => h.elim) fun _ h => h.elim
    refine safe_bind.2 ((collecting_safe hreads hx).mono fun blocked x hx => ?_)
    dsimp only
    split
    · exact collecting_safe (only_forM fun proof _ => only_write trivial) hx
    · refine safe_bind.2 ((collecting_safe (only_proofFor context _ candidate) hx).mono
        fun proof x hx => ?_)
      exact safe_onlyIf (fun _ => applyProof_safe proof hx) fun _ => hx

/-! ### The agents -/

/-- The agents that answered, of those asked so far. -/
structure Verifying (agents rest live : List AgentTarget) (time : Time) (x : Scene O) : Prop where
  time : ∃ s, (.asked s .now time : Event portalWorld) ∈ x.past
  recovery : x.store.recoveryPending = none
  fewer : live.length + rest.length ≤ agents.length
  all : live.length + rest.length = agents.length → live ++ rest = agents
  reported : ∀ agent ∈ live, Reported agent x.past

theorem observeAgentIncarnation_recovery {db db' : Database} {agent : AgentTarget}
    {incarnation : IncarnationId} (hok : db.observeAgentIncarnation agent incarnation = .ok db') :
    db'.recoveryPending = db.recoveryPending :=
  congrArg Tables.recoveryPending
    (Write.AboutHoldings.frame (w := .observeAgentIncarnation agent incarnation) (.inl trivial) hok).1

theorem verifyAgent_safe (agent : AgentTarget) (rest : List AgentTarget)
    (hx : Verifying agents (agent :: rest) live time x) :
    (verifyAgent live agent).Safe (fun _ => True) Eq (Careful options agents)
      (fun live => Verifying agents rest live time) x := by
  have hlen : live.length + (rest.length + 1) ≤ agents.length := hx.fewer
  have hskip {y : Scene O} (hrecovery : y.store.recoveryPending = none)
      (hpast : ∃ later, y.past = x.past ++ later) : Verifying agents rest live time y := by
    obtain ⟨later, hlater⟩ := hpast
    obtain ⟨s, hs⟩ := hx.time
    refine ⟨⟨s, by rw [hlater]; exact List.mem_append_left _ hs⟩, hrecovery, by omega,
      fun h => by omega, fun agent hagent => ?_⟩
    obtain ⟨db, incarnation, free, hevent⟩ := hx.reported agent hagent
    exact ⟨db, incarnation, free, by rw [hlater]; exact List.mem_append_left _ hevent⟩
  refine safe_bind.2 (safe_query.2 ?_)
  rintro x rfl answer e - -
  refine ⟨careful_asked (q := .health agent) x trivial answer e, ?_⟩
  cases answer with
  | unreachable => exact hskip hx.recovery ⟨_, rfl⟩
  | malformed => trivial
  | reports id failureDomain incarnation free =>
    refine safe_bind.2 (safe_failIf fun hsame => safe_bind.2 (safe_write.2 ?_))
    rintro z rfl s hok -
    refine ⟨careful_wrote _ _ _, ?_⟩
    have hrecovery := (observeAgentIncarnation_recovery hok).trans hx.recovery
    have hrest := hskip (y := (x.asked (.health agent) (.reports id failureDomain incarnation free)
      e).wrote (.observeAgentIncarnation agent incarnation) s) hrecovery
        ⟨_, List.append_assoc ..⟩
    refine ⟨hrest.time, hrecovery, ?_, fun h => ?_, fun other hother => ?_⟩
    · rw [List.length_append, List.length_singleton]
      omega
    · rw [List.append_assoc, List.singleton_append]
      refine hx.all ?_
      rw [List.length_append, List.length_singleton] at h
      rw [List.length_cons]
      omega
    · rcases List.mem_append.1 hother with hother | hother
      · exact hrest.reported other hother
      · obtain rfl := List.mem_singleton.1 hother
        simp only [Bool.or_eq_false_iff, bne_eq_false_iff_eq] at hsame
        obtain ⟨rfl, rfl⟩ := hsame
        refine ⟨x.store, incarnation, free, ?_⟩
        exact List.mem_append_left _ (List.mem_append_right _ (List.mem_singleton_self _))

theorem Verifying.later (h : Verifying agents [] live time x)
    (hrecovery : y.store.recoveryPending = x.store.recoveryPending)
    (hpast : ∃ later, y.past = x.past ++ later) : Verifying agents [] live time y := by
  obtain ⟨later, hlater⟩ := hpast
  obtain ⟨s, hs⟩ := h.time
  refine ⟨⟨s, by rw [hlater]; exact List.mem_append_left _ hs⟩, hrecovery.trans h.recovery, h.fewer,
    h.all, fun agent hagent => ?_⟩
  obtain ⟨db, incarnation, free, hevent⟩ := h.reported agent hagent
  exact ⟨db, incarnation, free, by rw [hlater]; exact List.mem_append_left _ hevent⟩

theorem Listed.later {agent : AgentTarget} {kind : ObjectKind} {past : List (Event portalWorld)}
    (h : Listed agent kind past) (later : List (Event portalWorld)) :
    Listed agent kind (past ++ later) := by
  obtain ⟨db, objects, hevent, hknown⟩ := h
  exact ⟨db, objects, List.mem_append_left _ hevent, hknown⟩

/-- The blockers of one namespace of one agent. -/
def namespaceBlockers (known : List ObjectId) (agent : AgentTarget) (kind : ObjectKind) :
    Action (List Blocker) := do
  match ← inventory agent kind with
  | some objects =>
    let unknown := objects.filter fun (hash, _) => !known.contains ⟨kind, hash⟩
    return if unknown = [] then [] else [.unknownControlObjects agent.id kind unknown.length]
  | none => return [Blocker.inventoryNotListed agent.id kind]

theorem controlObjectBlockers_eq (live : List AgentTarget) : controlObjectBlockers live = (do
    let known ← reading (·.knownControlObjects)
    let blockers ← live.mapM fun agent =>
      [ObjectKind.manifest, .deletionMarker].mapM (namespaceBlockers known agent)
    return blockers.flatten.flatten) := rfl

/-- Without a blocker the namespace was listed, and every object of it is known. -/
theorem namespaceBlockers_safe {db : Database} (agent : AgentTarget) (kind : ObjectKind)
    (hx : Verifying agents [] live time x ∧ x.store = db) :
    (namespaceBlockers db.knownControlObjects agent kind).Safe (fun _ => True) Eq
      (Careful options agents) (fun blockers y => (Verifying agents [] live time y ∧ y.store = db) ∧
        (blockers = [] → Listed agent kind y.past)) x := by
  refine safe_bind.2 (safe_query.2 ?_)
  rintro x rfl answer e - -
  refine ⟨careful_asked (q := .inventory agent kind) x trivial answer e, ?_⟩
  have hlater := hx.1.later (y := x.asked (.inventory agent kind) answer e) rfl ⟨_, rfl⟩
  cases answer with
  | none => exact ⟨⟨hlater, hx.2⟩, fun h => nomatch h⟩
  | some objects =>
    refine ⟨⟨hlater, hx.2⟩, fun hnone => ⟨x.store, objects, ?_, fun entry hentry => ?_⟩⟩
    · exact List.mem_append_right _ (List.mem_singleton_self _)
    · rw [hx.2]
      by_contra hunknown
      have hmem : entry ∈ objects.filter fun entry =>
          !db.knownControlObjects.contains ⟨kind, entry.1⟩ :=
        List.mem_filter.2 ⟨hentry, by simpa using hunknown⟩
      dsimp only at hnone
      split at hnone
      · next hempty =>
        rw [hempty] at hmem
        exact absurd hmem List.not_mem_nil
      · cases hnone

/-- Without blockers the control objects of every agent that answered are known. -/
theorem controlObjectBlockers_safe (hx : Verifying agents [] live time x) :
    (controlObjectBlockers live).Safe (fun _ => True) Eq (Careful options agents)
      (fun blockers => Cleared agents live blockers time) x := by
  rw [controlObjectBlockers_eq]
  refine safe_bind.2 (safe_reading.2 ?_)
  rintro x rfl
  let J : Scene O → Prop := fun y => Verifying agents [] live time y ∧ y.store = x.store
  let R : AgentTarget → List (List Blocker) → List (Event portalWorld) → Prop :=
    fun agent blockers past => blockers.flatten = [] →
      ∀ kind ∈ [ObjectKind.manifest, .deletionMarker], Listed agent kind past
  have hmono : ∀ agent blockers past later, R agent blockers past →
      R agent blockers (past ++ later) :=
    fun _ _ _ later h hnone kind hkind => (h hnone kind hkind).later later
  have hagent : ∀ agent ∈ live, ∀ y, J y →
      ([ObjectKind.manifest, .deletionMarker].mapM
        (namespaceBlockers x.store.knownControlObjects agent)).Safe (fun _ => True) Eq
          (Careful options agents) (fun blockers z => J z ∧ R agent blockers z.past) y := by
    intro agent _ y hy
    have hkinds : ∀ kind (blockers : List Blocker) past later,
        (blockers = [] → Listed agent kind past) → blockers = [] →
          Listed agent kind (past ++ later) := fun _ _ _ later h hnone => (h hnone).later later
    refine (safe_mapM_past (J := J) hkinds
      (fun kind _ z hz => namespaceBlockers_safe agent kind hz) hy).mono fun blockers z hz => ?_
    refine ⟨hz.1, fun hnone kind hkind => ?_⟩
    obtain ⟨own, hown, hlisted⟩ := hz.2 kind hkind
    exact hlisted (List.flatten_eq_nil_iff.1 hnone own hown)
  refine safe_bind.2 ((safe_mapM_past hmono hagent ⟨hx, rfl⟩).mono fun blockers y hy => ?_)
  refine ⟨hy.1.1.time, hy.1.1.recovery, fun h => ?_, hy.1.1.reported, fun hnone agent hagent => ?_⟩
  · have hall := hy.1.1.all h
    rwa [List.append_nil] at hall
  · obtain ⟨own, hown, hlisted⟩ := hy.2 agent hagent
    refine hlisted (List.flatten_eq_nil_iff.2 fun row hrow => ?_)
    exact List.flatten_eq_nil_iff.1 hnone row (List.mem_flatten.2 ⟨own, hown, hrow⟩)

theorem gc_safe (options : GcOptions) (agents : List AgentTarget) (x : Scene O) :
    (gc options agents).Safe (fun _ => True) Eq (Careful options agents) (fun _ _ => True) x := by
  refine safe_bind.2 (safe_query.2 ?_)
  rintro x rfl time e - -
  refine ⟨careful_asked (q := .now) x trivial time e, ?_⟩
  refine safe_bind.2 (safe_bind.2 (safe_reading.2 ?_))
  rintro y rfl
  refine safe_failIf fun hpending => ?_
  have hstart : Verifying agents agents [] time (x.asked .now time e) := {
    time := ⟨x.store, List.mem_append_right _ (List.mem_singleton_self _)⟩
    recovery := Option.isSome_eq_false_iff.1 hpending |> Option.isNone_iff_eq_none.1
    fewer := by simp
    all := fun _ => rfl
    reported := fun agent h => absurd h List.not_mem_nil }
  refine safe_bind.2 ((safe_foldlM_rest (J := fun rest live => Verifying agents rest live time)
    (fun agent rest live y hy => verifyAgent_safe agent rest hy) hstart).mono fun live y hy => ?_)
  refine safe_bind.2 (((ensures_proofContextNow.2 rfl).safe (P := fun context _ =>
    context = proofContext y.store time) (reads_proofContextNow time)).mono ?_)
  rintro context z ⟨rfl, rfl⟩
  refine safe_bind.2 ((controlObjectBlockers_safe hy).mono fun blockers y hy => ?_)
  have hcandidates : (candidatesNow options time).Only Write.Collects Query.Keeps :=
    (reads_candidatesNow options time).mono (fun _ h => h.elim) fun _ h => h.elim
  refine safe_bind.2 ((collecting_safe hcandidates hy).mono fun candidates y hy => ?_)
  refine safe_bind.2 (safe_reading.2 ?_)
  rintro y rfl
  exact (safe_forM (fun candidate _ y hy => gcCandidate_safe _ candidate hy) hy).mono
    fun _ _ _ => trivial

/-! ## Every deletion -/

/-- Every deletion so far was justified by what came before it. -/
def AllJustified (options : GcOptions) (agents : List AgentTarget) (x : Scene O) : Prop :=
  ∀ past db agent object proof answer later,
    x.past = past ++ .asked db (.delete agent object proof) answer :: later →
      Justified options agents past db object

/-- Manifests of one byte, their file, all of one chunk. -/
abbrev sharedChunk : Sealing where
  digest := namingOnly.digest
  decodeManifest
    | [file] => some ⟨file.toNat, 1, ⟨[], 0, 3⟩, [⟨0, 3, [], namingOnly.digest [9], 1⟩]⟩
    | _ => none
  decodeDeletionMarker _ := none

/-- Answers at one time of agents that hold objects of one byte. -/
def holding (time : Time) (id : ℕ) (held : ObjectKind → List UInt8) : ∀ q : Query, q.Answer
  | .now => time
  | .freshId => id
  | .encodeMarker file _ _ => some [UInt8.ofNat (file + 100)]
  | .get _ object => .body [UInt8.ofNat object.hash]
  | .inventory _ kind => some ((held kind).map fun byte => (namingOnly.digest [byte], 1))
  | q => answersAt time q

/-- The manifests of files 5 and 6 and their chunk. -/
def bothManifests : ObjectKind → List UInt8
  | .chunk => [9]
  | .manifest => [5, 6]
  | .deletionMarker => []

/-- The markers of both files are there as well. -/
def bothMarkers : ObjectKind → List UInt8
  | .deletionMarker => [105, 106]
  | kind => bothManifests kind

/-- Both files are recovered. -/
def bothRecovered : Database :=
  letI := sharedChunk
  (play (W := portalWorld) (holding 900 0 bothManifests) 1000 (Recovery.recover .apply twoAgents)
    .new).2

/-- One of the files is deleted. -/
def fileDeleted (time : Time) (id : ℕ) (file : FileId) (db : Database) : Database :=
  letI := sharedChunk
  (play (W := portalWorld) (holding time id bothManifests) 1000
    (Portal.delete twoAgents ⟨[], []⟩ file id) db).2

/-- The chunk namespace was observed after the first deletion. -/
def observedBetween : Database :=
  { fileDeleted 1000 1 5 bothRecovered with
    scans := [⟨1, 101, .chunk, 0, 4900⟩, ⟨2, 102, .chunk, 0, 4900⟩] }

/-- The other file is deleted as well. -/
def bothDeleted : Database := fileDeleted 4950 2 6 observedBetween

theorem reach_bothDeleted : @Reach sharedChunk (fun _ _ => True) bothDeleted := by
  let _ := sharedChunk
  have hrecovered : Reach (fun _ _ => True) bothRecovered :=
    .run .new (.recover .apply twoAgents) (runs_play _ _ _ _) (everyWrite_true _)
  have hdeleted {db : Database} (h : Reach (fun _ _ => True) db) (time : Time) (id : ℕ)
      (file : FileId) : Reach (fun _ _ => True) (fileDeleted time id file db) :=
    .run h (.delete twoAgents ⟨[], []⟩ file id) (runs_play _ _ _ _) (everyWrite_true _)
  have hobserved : Reach (fun _ _ => True) observedBetween :=
    .other (hdeleted hrecovered 1000 1 5) rfl
  exact hdeleted hobserved 4950 2 6

/-- A collection soon after the second deletion. -/
def collected : Action Unit × Scene (.any portalWorld) :=
  advance (saying (W := portalWorld) (holding 5000 3 bothMarkers)) 1000
    (gc ⟨100, 100, true⟩ twoAgents) ⟨bothDeleted, (), []⟩

/-- The objects deleted, and the database at that time. -/
def deletions (past : List (Event portalWorld)) : List (Database × ObjectId) :=
  past.filterMap fun
    | .asked db (.delete _ object _) _ => some (db, object)
    | _ => none

/-- The times that were read. -/
def times (past : List (Event portalWorld)) : List Time :=
  past.filterMap fun
    | .asked _ .now time => some time
    | _ => none

end Metadata

end DistrHnsw
