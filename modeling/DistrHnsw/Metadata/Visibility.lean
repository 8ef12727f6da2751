import DistrHnsw.Metadata.History
import DistrHnsw.Metadata.PortalRuns

/-!
# Visibility over whole runs

Uploads, deletes, recoveries and collections, each of which may stop anywhere, in any order.  In a
run of clean writes every object a file requires is in the history, and comes back as a candidate of
collection when the file is deleted; a retried upload of collected chunks shows that cleanness is
needed.
-/

namespace DistrHnsw

namespace Metadata

open Program Portal Collect Recovery Database

/-! ## Collection keeps the record -/

/-- Some proof has this identifier and object. -/
def Names (db : Database) (id : ProofId) (object : ObjectId) : Prop :=
  ∃ proof ∈ db.gcProofs, proof.proofId = id ∧ proof.object = object

/-- What collection leaves alone: the projection, its chunks and what each proof is about. -/
structure Steady (db db' : Database) : Prop where
  files : db'.files = db.files
  chunks : db'.fileChunks = db.fileChunks
  names : ∀ id object, Names db id object → Names db' id object

theorem Steady.refl (db : Database) : Steady db db := ⟨rfl, rfl, fun _ _ h => h⟩

theorem Steady.trans {a b c : Database} (h₁ : Steady a b) (h₂ : Steady b c) : Steady a c :=
  ⟨h₂.files.trans h₁.files, h₂.chunks.trans h₁.chunks, fun id object h =>
    h₂.names id object (h₁.names id object h)⟩

theorem Steady.requiredByLiveFile {db db' : Database} (h : Steady db db') (object : ObjectId) :
    db'.requiredByLiveFile object = db.requiredByLiveFile object := by
  unfold Database.requiredByLiveFile
  rw [h.files, h.chunks]

/-- A write of garbage collection proper. -/
def Write.Collects : Write → Prop
  | .recordGcProof _ _ => True
  | .finishGcProof _ _ => True
  | .deletePlacement _ _ => True
  | .deletePlacements _ => True
  | _ => False

theorem Write.Collects.steady {w : Write} (hw : w.Collects) {db db' : Database}
    (hok : w.perform db = .ok db') : Steady db db' := by
  cases w with
  | recordGcProof id proof =>
    obtain ⟨-, rfl⟩ := recordGcProof_spec hok
    exact ⟨rfl, rfl, fun id object ⟨row, hrow, hrest⟩ => ⟨row, List.mem_append_left _ hrow, hrest⟩⟩
  | finishGcProof id status =>
    cases hok
    refine ⟨rfl, rfl, ?_⟩
    rintro id' object ⟨row, hrow, rfl, rfl⟩
    refine ⟨_, List.mem_map.2 ⟨row, hrow, rfl⟩, ?_⟩
    split <;> exact ⟨rfl, rfl⟩
  | deletePlacement object agent =>
    cases hok
    exact ⟨rfl, rfl, fun _ _ h => h⟩
  | deletePlacements object =>
    cases hok
    exact ⟨rfl, rfl, fun _ _ h => h⟩
  | _ => exact hw.elim

theorem Write.Collects.clean {w : Write} (hw : w.Collects) (db : Database) : Clean db w := by
  cases w with
  | recordGcProof id proof => exact ⟨by simp [Write.brings], rfl⟩
  | finishGcProof id status => exact ⟨by simp [Write.brings], rfl⟩
  | deletePlacement object agent => exact ⟨by simp [Write.brings], rfl⟩
  | deletePlacements object => exact ⟨by simp [Write.brings], rfl⟩
  | _ => exact hw.elim

/-- The state of a collection that began in `start`. -/
def Collecting (start db : Database) : Prop := db.Recorded ∧ Steady start db

section Collection

variable {start s : Database} {Q : Unit → Database → Prop}

/-- A write of collection; one that applies a proof must be of an object that is not required. -/
theorem ensures_collect {w : Write} (hw : w.Collects) (hs : Collecting start s)
    (hproof : ∀ id, w.appliesProof = some id → ∃ object, Names s id object ∧
      s.requiredByLiveFile object = false ∧ object.kind ≠ .deletionMarker)
    (hQ : ∀ s', Collecting start s' → Steady s s' → Q () s') :
    (write w).Ensures Clean Recorded Q s := by
  refine ensures_write.2 fun hclean s' hok => ?_
  have hsteady := hw.steady hok
  have hrec : s'.Recorded := by
    refine recorded_step hs.1 hclean (fun id hid proof hproof' hproofId => ?_) hok
    obtain ⟨object, ⟨row, hrow, hrowId, hobject⟩, hrest⟩ := hproof id hid
    -- One identifier, one proof.
    have heq := List.inj_on_of_nodup_map hs.1.proofIds hproof' hrow (hproofId.trans hrowId.symm)
    rw [heq, hobject]
    exact hrest
  exact ⟨hrec, hQ s' ⟨hrec, hs.2.trans hsteady⟩ hsteady⟩

theorem ensures_makeStale (id : ProofId) (hs : Collecting start s)
    (hQ : ∀ s', Collecting start s' → Steady s s' → Q () s') :
    (makeStale id).Ensures Clean Recorded Q s :=
  ensures_collect trivial hs (fun _ h => by cases h) hQ

/-- A reused proof is one of the matching ones. -/
theorem ensures_reuseProof {context : ProofContext} {matching : List GcProof} {object : ObjectId}
    (hs : Collecting start s) (hnames : ∀ proof ∈ matching, Names s proof.proofId object) :
    (reuseProof context matching).Ensures Clean Recorded
      (fun found s' => Collecting start s' ∧ ∀ id ∈ found, Names s' id object) s := by
  let J : Option ProofId → Database → Prop := fun found s' =>
    Collecting start s' ∧ Steady s s' ∧ ∀ id ∈ found, Names s' id object
  refine Ensures.mono (Q := J) ?_ fun _ _ h => ⟨h.1, h.2.2⟩
  have hnone : J none s := ⟨hs, .refl s, fun id hid => by cases hid⟩
  refine ensures_foldlM (fun proof hproof found s₁ h => ?_) hnone
  obtain ⟨hcollecting, hsteady, hfound⟩ := h
  split
  · refine ⟨hcollecting, hsteady, fun id hid => ?_⟩
    cases hid
    exact hsteady.names _ _ (hnames proof hproof)
  · rw [ensures_bind]
    refine ensures_makeStale proof.proofId hcollecting fun s₂ hcollecting₂ hsteady₂ => ?_
    exact ⟨hcollecting₂, hsteady.trans hsteady₂, fun id hid => hsteady₂.names _ _ (hfound id hid)⟩

theorem ensures_proofFor {context : ProofContext} {matching : List GcProof} {candidate : Candidate}
    (hs : Collecting start s)
    (hnames : ∀ proof ∈ matching, Names s proof.proofId candidate.object) :
    (proofFor context matching candidate).Ensures Clean Recorded
      (fun id s' => Collecting start s' ∧ Names s' id candidate.object) s := by
  unfold proofFor
  rw [ensures_bind]
  refine (ensures_reuseProof hs hnames).mono fun found s₁ h => ?_
  cases found with
  | some id => exact ⟨h.1, h.2 id rfl⟩
  | none =>
    simp only [ensures_bind, ensures_freshId]
    intro id
    refine ensures_write.2 fun hclean s₂ hok => ?_
    have hsteady := Write.Collects.steady (w := .recordGcProof id _) trivial hok
    have hrec : s₂.Recorded := recorded_step h.1.1 hclean (fun _ h => by cases h) hok
    obtain ⟨-, rfl⟩ := recordGcProof_spec hok
    exact ⟨hrec, ⟨hrec, h.1.2.trans hsteady⟩, _,
      List.mem_append_right _ (List.mem_singleton_self _), rfl, rfl⟩

/-! ### Statements of one database -/

section Statements

variable {Guard : Database → Write → Prop} {Inv : Database → Prop}

theorem ensures_proofContextNow {now : Time} {Q : ProofContext → Database → Prop} :
    (proofContextNow now).Ensures Guard Inv Q s ↔ Q (proofContext s now) s := Iff.rfl

theorem ensures_originFactsNow {context : ProofContext} {candidate : Candidate}
    {Q : List TargetId × Option FileRow → Database → Prop} :
    (originFactsNow context candidate).Ensures Guard Inv Q s ↔
      Q (originFacts s context candidate) s := by
  unfold originFactsNow originFacts
  split
  · rw [ensures_bind, ensures_mapM_reading (f := fun s target =>
      (target, s.backupObjectVerified target candidate.object)) fun _ _ => Iff.rfl, ensures_pure]
    have heq (targets : List TargetId) : ((targets.map fun target =>
        (target, s.backupObjectVerified target candidate.object)).filter (!·.2)).map (·.1) =
          targets.filter fun target => !s.backupObjectVerified target candidate.object := by
      simp [List.filter_map, Function.comp_def]
    rw [heq]
  · exact Iff.rfl

theorem ensures_evaluateNow {context : ProofContext} {candidate : Candidate}
    {Q : List Blocker → Database → Prop} :
    (evaluateNow context candidate).Ensures Guard Inv Q s ↔ Q (evaluate s context candidate) s := by
  unfold evaluateNow
  rw [ensures_bind, ensures_originFactsNow]
  exact Iff.rfl

theorem ensures_candidatesNow {options : GcOptions} {now : Time}
    {Q : List Candidate → Database → Prop} :
    (candidatesNow options now).Ensures Guard Inv Q s ↔ Q (candidates s options now) s := by
  unfold candidatesNow
  rw [ensures_bind, ensures_reading, ensures_bind,
    ensures_mapM_reading (f := ofDeleted options) fun _ _ => Iff.rfl,
    ensures_bind, ensures_reading, ensures_bind,
    ensures_mapM_reading (f := ofUpload options) fun _ _ => Iff.rfl]
  exact Iff.rfl

end Statements

/-- What passes evaluation. -/
structure Passes (db : Database) (context : ProofContext) (candidate : Candidate) : Prop where
  globals : context.globalBlockers = []
  origin : match candidate.origin with
    | .deletedGeneration =>
      ∀ target ∈ context.backupTargets, db.backupObjectVerified target candidate.object = true
    | .staging file => db.fileProjection file = none
  required : db.requiredByLiveFile candidate.object = false
  kind : candidate.object.kind ≠ .deletionMarker
  retention : candidate.retention ≤ context.now - candidate.threshold
  observed : ∀ active ∈ context.active, (active.2, candidate.object.kind) ∈ context.observations
  scans : ∀ scan ∈ db.latestCompleteScans, scan.kind = candidate.object.kind →
    candidate.threshold < scan.completedAt
  placements : ∀ row ∈ db.allPlacements candidate.object, row.state ≠ .pending

theorem evaluate_nil {db : Database} {context : ProofContext} {candidate : Candidate}
    (h : evaluate db context candidate = []) : Passes db context candidate := by
  simp only [evaluate, blockers, List.append_eq_nil_iff, ite_eq_right_iff, List.cons_ne_self,
    imp_false, List.map_eq_nil_iff, List.filter_eq_nil_iff, ite_eq_left_iff] at h
  obtain ⟨⟨⟨⟨⟨⟨⟨⟨hglobals, horigin⟩, hrequired⟩, hkind⟩, hretention⟩, -⟩, hobserved⟩, hscans⟩,
    hplacements⟩ := h
  refine ⟨hglobals, ?_, by simpa using hrequired, hkind, not_lt.1 hretention,
    fun active hactive => ?_, fun scan hscan hsame => ?_, fun row hrow => ?_⟩
  · unfold originFacts at horigin
    cases hc : candidate.origin with
    | deletedGeneration => simpa [hc] using horigin
    | staging file => simpa [hc] using horigin
  · simpa using hobserved active hactive
  · simp only [List.all_eq_true, decide_eq_true_eq, not_not] at hscans
    exact hscans scan (List.mem_filter.2 ⟨hscan, beq_iff_eq.2 hsame⟩)
  · simpa using hplacements row hrow

theorem ensures_applyProof {agents live : List AgentTarget} {context : ProofContext}
    {candidate : Candidate} {id : ProofId} (hs : Collecting start s)
    (hnames : Names s id candidate.object) :
    (applyProof agents live context candidate id).Ensures Clean Recorded
      (fun _ => Collecting start) s := by
  unfold applyProof
  rw [ensures_bind, ensures_proofContextNow]
  dsimp only
  rw [ensures_bind, ensures_evaluateNow]
  split
  · exact ensures_makeStale (Q := fun _ => Collecting start) id hs fun _ h _ => h
  · next hfresh =>
    split
    · exact hs
    · have hevaluate : evaluate s { proofContext s context.now with
          globalBlockers := context.globalBlockers } candidate = [] := by
        by_contra hblocked
        exact hfresh (Bool.or_eq_true_iff.2 (.inr (by simpa using hblocked)))
      have hpasses := evaluate_nil hevaluate
      let J : Bool → Database → Prop := fun _ s' => Collecting start s' ∧ Steady s s'
      have hstart : J true s := ⟨hs, .refl s⟩
      rw [ensures_bind]
      refine Ensures.mono (Q := J) (ensures_foldlM (fun agent _ all s₁ h => ?_) hstart)
        fun all s₁ h => ensures_onlyIf (fun _ => ?_) fun _ => h.1
      · unfold deleteFrom
        rw [ensures_bind, ensures_deleteObject]
        intro deleted
        split
        · rw [ensures_bind]
          exact ensures_collect trivial h.1 (fun _ h => by cases h) fun s₂ hs₂ hsteady =>
            ⟨hs₂, h.2.trans hsteady⟩
        · exact h
      · rw [ensures_bind]
        refine ensures_collect trivial h.1 (fun _ h => by cases h) fun s₂ hs₂ hsteady => ?_
        refine ensures_collect trivial hs₂ (fun id' hid => ?_) fun _ h _ => h
        cases hid
        have hall := h.2.trans hsteady
        exact ⟨candidate.object, hall.names _ _ hnames,
          (hall.requiredByLiveFile _).trans hpasses.required, hpasses.kind⟩

theorem ensures_gcCandidate {options : GcOptions} {agents live : List AgentTarget}
    {context : ProofContext} {planned : List GcProof} {candidate : Candidate}
    (hs : Collecting start s) (hplanned : ∀ proof ∈ planned, Names start proof.proofId proof.object) :
    (gcCandidate options agents live context planned candidate).Ensures Clean Recorded
      (fun _ => Collecting start) s := by
  unfold gcCandidate settledAlready
  rw [ensures_bind, ensures_bind, ensures_reading]
  split
  · exact hs
  rw [ensures_reading]
  split
  · exact hs
  · rw [ensures_bind, ensures_evaluateNow]
    have hmatching : ∀ proof ∈ planned.filter (·.object == candidate.object),
        Names s proof.proofId candidate.object := by
      intro proof hproof
      obtain ⟨hmem, hobject⟩ := List.mem_filter.1 hproof
      rw [beq_iff_eq] at hobject
      exact hs.2.names _ _ (hobject ▸ hplanned proof hmem)
    dsimp only
    split
    · exact ensures_forM (fun proof _ s₁ hs₁ => ensures_makeStale
        (Q := fun _ => Collecting start) proof.proofId hs₁ fun _ h _ => h) hs
    · rw [ensures_bind]
      refine (ensures_proofFor hs hmatching).mono fun id s₁ h => ?_
      exact ensures_onlyIf (fun _ => ensures_applyProof h.1 h.2) fun _ => h.1

end Collection

/-- Writes of a collection. -/
def Write.ByCollect : Write → Prop
  | .observeAgentIncarnation _ _ => True
  | w => w.Collects

theorem only_verifyAgents {P : Write → Prop} (hP : ∀ w, Write.Locates w → P w)
    (agents : List AgentTarget) : (verifyAgents agents).Only P Query.Keeps := by
  refine only_foldlM fun agent _ live => only_bind (only_query trivial) fun answer => ?_
  cases answer with
  | unreachable => trivial
  | malformed => trivial
  | reports id domain incarnation free =>
    exact only_bind (only_failIf _) fun _ => only_bind (only_write (hP _ trivial)) fun _ => trivial

/-- Listing control objects writes nothing. -/
theorem only_controlObjectBlockers {P : Write → Prop} (live : List AgentTarget) :
    (controlObjectBlockers live).Only P Query.Keeps := by
  refine only_bind (only_reading _) fun known => only_bind (only_mapM fun agent _ =>
    only_mapM fun kind _ => only_bind (only_query trivial) fun answer => ?_) fun _ => trivial
  cases answer <;> trivial

/-- The write does not apply a collection proof. -/
def AppliesNone (w : Write) : Prop := w.appliesProof = none

theorem Write.ByUpload.appliesNone {w : Write} (h : w.ByUpload) : AppliesNone w := by
  cases w <;> first | exact h.elim | rfl

theorem Write.ByDelete.appliesNone {w : Write} (h : w.ByDelete) : AppliesNone w := by
  cases w <;> first | exact h.elim | rfl

theorem Write.ByRecover.appliesNone {w : Write} (h : w.ByRecover) : AppliesNone w := by
  cases w <;> first | exact h.elim | rfl

/-- Programs that apply no proof keep the record in clean runs. -/
theorem ensures_of_only {α : Type} {p : Action α} {s : Database} {P : Write → Prop}
    {A : Query → Prop} (h : p.Only P A) (hP : ∀ w, P w → AppliesNone w)
    (hs : s.Recorded) : p.Ensures Clean Recorded (fun _ => Recorded) s :=
  h.ensures hs fun w hw _ _ hs hclean hok => and_self_iff.2
    (recorded_step hs hclean (fun id hid => by rw [hP w hw] at hid; cases hid) hok)

theorem ensures_gc (options : GcOptions) (agents : List AgentTarget) {s : Database}
    (hs : s.Recorded) : (gc options agents).Ensures Clean Recorded (fun _ => Recorded) s := by
  unfold gc refuseWhileRecoveryPending
  simp only [ensures_bind, ensures_now, ensures_reading]
  refine fun time => ensures_failIf fun _ => ?_
  have hverify := only_verifyAgents byUpload_of_locates agents
  refine (ensures_of_only hverify (fun _ => Write.ByUpload.appliesNone) hs).mono
    fun live s₁ hs₁ => ?_
  rw [ensures_proofContextNow]
  have hstart : Collecting s₁ s₁ := ⟨hs₁, .refl s₁⟩
  have hlist : (controlObjectBlockers live).Only (fun _ => False) Query.Keeps :=
    only_controlObjectBlockers live
  refine Ensures.mono (Q := fun _ => Collecting s₁) (hlist.ensures hstart fun _ h => h.elim)
    fun blockers s₂ hs₂ => ?_
  rw [ensures_candidatesNow]
  have hagain : Collecting s₂ s₂ := ⟨hs₂.1, .refl s₂⟩
  refine Ensures.mono (ensures_forM (fun candidate _ s₃ hs₃ =>
    ensures_gcCandidate hs₃ fun proof hproof => ?_) hagain) fun _ _ h => h.1
  exact ⟨proof, (List.mem_filter.1 hproof).1, rfl, rfl⟩

/-! ## Runs -/

/-- An operation of the portal, with what its process is configured with and remembers. -/
inductive Operation where
  | upload (agents : List AgentTarget) (memory : Memory) (source : Source) (key : IdempotencyKey)
  | delete (agents : List AgentTarget) (memory : Memory) (file : FileId) (key : IdempotencyKey)
  | recover (mode : RecoveryMode) (agents : List AgentTarget)
  | gc (options : GcOptions) (agents : List AgentTarget)

section

variable [Sealing]

/-- The operation can have done this when it stops. -/
def Operation.Runs (db : Database) (trace : List (Event portalWorld)) (db' : Database) :
    Operation → Prop
  | .upload agents memory source key => (Portal.upload agents memory source key).Runs db trace db'
  | .delete agents memory file key => (Portal.delete agents memory file key).Runs db trace db'
  | .recover mode agents => (Recovery.recover mode agents).Runs db trace db'
  | .gc options agents => (Collect.gc options agents).Runs db trace db'

/-- Databases reached by operations whose writes meet `C`; in between, anything may happen to
placements, incarnations, observations and backup records. -/
inductive Reach (C : Database → Write → Prop) : Database → Prop
  | new : Reach C .new
  | run {db db' : Database} {trace : List (Event portalWorld)} (reach : Reach C db)
      (operation : Operation) (runs : operation.Runs db trace db')
      (meets : EveryWrite (W := portalWorld) C trace) : Reach C db'
  | other {db db' : Database} (reach : Reach C db) (tables : db'.toTables = db.toTables) :
      Reach C db'

theorem Operation.recorded {db db' : Database} {trace : List (Event portalWorld)}
    (operation : Operation) (h : db.Recorded) (hrun : operation.Runs db trace db')
    (hclean : EveryWrite (W := portalWorld) Clean trace) : db'.Recorded := by
  cases operation with
  | upload agents memory source key =>
    exact (ensures_of_only (only_upload agents memory source key)
      (fun _ => Write.ByUpload.appliesNone) h).runs h hrun hclean
  | delete agents memory file key =>
    exact (ensures_of_only (only_delete agents memory file key)
      (fun _ => Write.ByDelete.appliesNone) h).runs h hrun hclean
  | recover mode agents =>
    exact (ensures_of_only (only_recover mode agents)
      (fun _ => Write.ByRecover.appliesNone) h).runs h hrun hclean
  | gc options agents => exact (ensures_gc options agents h).runs h hrun hclean

omit [Sealing] in
theorem Database.Recorded.new : Database.new.Recorded :=
  ⟨by simp [Database.new], by simp [Database.new], by simp [Database.new], by simp [Database.new]⟩

/-- A run of clean writes keeps everything recorded. -/
theorem Reach.recorded {db : Database} (h : Reach Clean db) : db.Recorded := by
  induction h with
  | new => exact .new
  | run reach operation runs meets ih => exact operation.recorded ih runs meets
  | other reach tables ih =>
    exact ih.of_sameHistory ⟨congrArg Tables.files tables, congrArg Tables.fileManifests tables,
      congrArg Tables.fileChunks tables, congrArg Tables.deletionMarkers tables,
      congrArg Tables.gcProofs tables⟩

end

/-! ## A retried upload of collected chunks -/

/-- Short objects named by their bytes, for a portal that opens no control object. -/
abbrev namingOnly : Sealing where
  digest bytes := bytes.foldl (fun n byte => 256 * n + byte.toNat) 1
  decodeManifest _ := none
  decodeDeletionMarker _ := none

/-- Answers at one time, of a source with one chunk and two healthy agents. -/
def answersAt (time : Time) : ∀ q : Query, q.Answer
  | .now => time
  | .freshId => (7 : ℕ)
  | .freshUpload => ⟨1, 2, fun _ => []⟩
  | .sourceExists _ => true
  | .inspectSource _ => some ⟨11, ⟨[], 0, 3⟩, [⟨3, 0⟩]⟩
  | .manifestFits _ => true
  | .encryptChunk _ _ _ => some ([1, 2, 3] : Bytes)
  | .trailingBytes _ => false
  | .encodeManifest _ _ => some ([4, 5] : Bytes)
  | .encodeMarker _ _ _ => some ([6] : Bytes)
  | .health agent => .reports agent.id agent.failureDomain (agent.id + 100) none
  | .put _ _ _ => .stored
  | .get _ object => .body (match object.kind with
    | .chunk => [1, 2, 3]
    | .manifest => [4, 5]
    | .deletionMarker => [6])
  | .delete _ _ _ => true
  | .inventory _ _ => some ([] : List (ObjectHash × ℕ))
  | .putObject _ _ _ => .created
  | .getObject _ _ => none
  | .putSnapshot _ _ _ => .created
  | .getSnapshot _ _ => none
  | .putCatalog _ _ => .created

def twoAgents : List AgentTarget := [⟨1, 1⟩, ⟨2, 2⟩]

/-- At most `steps` steps of the upload of one source under one key. -/
def uploadAt (time : Time) (steps : ℕ) (db : Database) : List (Event portalWorld) × Database :=
  letI := namingOnly
  play (W := portalWorld) (answersAt time) steps (Portal.upload twoAgents ⟨[], []⟩ 0 0) db

/-- `portal gc --apply` with short horizons. -/
def collectAt (time : Time) (db : Database) : List (Event portalWorld) × Database :=
  play (W := portalWorld) (answersAt time) 1000 (Collect.gc ⟨100, 100, true⟩ twoAgents) db

/-- An upload that stops once its chunk is durable. -/
def stopped : Database := (uploadAt 1000 27 .new).2

/-- The stopped upload once its chunk namespace was observed on both agents. -/
def scanned : Database :=
  { stopped with scans := [⟨1, 101, .chunk, 0, 2000⟩, ⟨2, 102, .chunk, 0, 2000⟩] }

/-- The stopped upload was collected as expired staging, then retried under its key. -/
def retried : Database := (uploadAt 6000 1000 (collectAt 5000 scanned).2).2

theorem reach_uploadAt {db : Database} (h : @Reach namingOnly (fun _ _ => True) db) (time : Time)
    (steps : ℕ) : @Reach namingOnly (fun _ _ => True) (uploadAt time steps db).2 :=
  let _ := namingOnly
  .run h (.upload twoAgents ⟨[], []⟩ 0 0) (runs_play _ _ _ _) (everyWrite_true _)

theorem reach_collectAt {db : Database} (h : @Reach namingOnly (fun _ _ => True) db) (time : Time) :
    @Reach namingOnly (fun _ _ => True) (collectAt time db).2 :=
  let _ := namingOnly
  .run h (.gc ⟨100, 100, true⟩ twoAgents) (runs_play _ _ _ _) (everyWrite_true _)

theorem reach_observed {db : Database} (h : @Reach namingOnly (fun _ _ => True) db)
    (scans : List CompleteScan) :
    @Reach namingOnly (fun _ _ => True) { db with scans := scans } :=
  @Reach.other namingOnly _ _ _ h rfl

theorem reach_retried : @Reach namingOnly (fun _ _ => True) retried := by
  unfold retried scanned stopped
  have hstopped := reach_uploadAt (@Reach.new namingOnly _) 1000 27
  exact reach_uploadAt (reach_collectAt (reach_observed hstopped _) 5000) 6000 1000

end Metadata

end DistrHnsw
