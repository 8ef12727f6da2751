import DistrHnsw.Lib.Together
import DistrHnsw.Metadata.Recovery
import DistrHnsw.Metadata.Steps

/-!
# What the portal's operations write

Rules for the portal's steps, and that only garbage collection applies a collection proof.
-/

namespace DistrHnsw

namespace Metadata

open Program Portal Recovery

/-! ## Rules of the portal's steps -/

section Rules

variable {α : Type} {Guard : Database → Write → Prop} {Inv : Database → Prop} {s : Database}

theorem ensures_database {Q : Database → Database → Prop} :
    database.Ensures Guard Inv Q s ↔ Q s s := Iff.rfl

theorem ensures_reading {f : Database → α} {Q : α → Database → Prop} :
    (reading f).Ensures Guard Inv Q s ↔ Q (f s) s := Iff.rfl

/-- Statements one after the other, with nothing in between, all read one database. -/
theorem ensures_mapM_reading {β : Type} {g : β → Action α} {f : Database → β → α} {l : List β}
    {Q : List α → Database → Prop}
    (hg : ∀ b Q, (g b).Ensures Guard Inv Q s ↔ Q (f s b) s) :
    (l.mapM g).Ensures Guard Inv Q s ↔ Q (l.map (f s)) s := by
  induction l generalizing Q with
  | nil => exact Iff.rfl
  | cons b l ih =>
    rw [List.mapM_cons, ensures_bind, hg, ensures_bind, ih]
    exact Iff.rfl

theorem ensures_write {w : Write} {Q : Unit → Database → Prop} :
    (write w).Ensures Guard Inv Q s ↔
      (Guard s w → ∀ s', w.perform s = .ok s' → Inv s' ∧ Q () s') := Iff.rfl

theorem ensures_now {Q : Time → Database → Prop} :
    now.Ensures Guard Inv Q s ↔ ∀ time, Q time s := Iff.rfl

theorem ensures_freshId {Q : ℕ → Database → Prop} :
    freshId.Ensures Guard Inv Q s ↔ ∀ id, Q id s := Iff.rfl

theorem ensures_deleteObject {agent : AgentTarget} {object : ObjectId} {proof : ProofId}
    {Q : Bool → Database → Prop} :
    (deleteObject agent object proof).Ensures Guard Inv Q s ↔ ∀ deleted, Q deleted s := Iff.rfl

theorem ensures_onlyIf {condition : Prop} [Decidable condition] {action : Action Unit}
    {Q : Unit → Database → Prop} (h : condition → action.Ensures Guard Inv Q s)
    (hnot : ¬ condition → Q () s) : (onlyIf condition action).Ensures Guard Inv Q s := by
  unfold onlyIf
  split
  · next hc => exact h hc
  · next hc => exact hnot hc

theorem ensures_failIf {condition : Bool} {Q : Unit → Database → Prop} (h : condition = false → Q () s) :
    (failIf condition).Ensures Guard Inv Q s := by
  cases condition with
  | false => exact h rfl
  | true => trivial

end Rules

section SafeRules

variable {α : Type} {O : Outside portalWorld} {Fine : List (Event portalWorld) → Prop}
  {Rely Guar : Scene O → Scene O → Prop} {x : Scene O}

theorem safe_reading {f : Database → α} {Q : α → Scene O → Prop} :
    (reading f).Safe Fine Rely Guar Q x ↔ ∀ y, Rely x y → Q (f y.store) y := Iff.rfl

theorem safe_database {Q : Database → Scene O → Prop} :
    database.Safe Fine Rely Guar Q x ↔ ∀ y, Rely x y → Q y.store y := Iff.rfl

theorem safe_write {w : Write} {Q : Unit → Scene O → Prop} :
    (write w).Safe Fine Rely Guar Q x ↔ ∀ y, Rely x y → ∀ s, w.perform y.store = .ok s →
      Fine (y.wrote w s).past → Guar y (y.wrote w s) ∧ Q () (y.wrote w s) := Iff.rfl

theorem safe_onlyIf {condition : Prop} [Decidable condition] {action : Action Unit}
    {Q : Unit → Scene O → Prop} (h : condition → action.Safe Fine Rely Guar Q x)
    (hnot : ¬ condition → Q () x) : (onlyIf condition action).Safe Fine Rely Guar Q x := by
  unfold onlyIf
  split
  · next hc => exact h hc
  · next hc => exact hnot hc

theorem safe_failIf {condition : Bool} {Q : Unit → Scene O → Prop}
    (h : condition = false → Q () x) : (failIf condition).Safe Fine Rely Guar Q x := by
  cases condition with
  | false => exact h rfl
  | true => trivial

end SafeRules

/-! ## What the programs write and ask -/

/-- Writes about where objects are. -/
def Write.Locates : Write → Prop
  | .observeAgentIncarnation _ _ => True
  | .ensurePendingPlacement _ _ _ => True
  | .confirmPlacement _ _ => True
  | _ => False

/-- Writes of an upload. -/
def Write.ByUpload : Write → Prop
  | .createUpload _ _ => True
  | .advanceUpload _ next => next = .replicatingChunks
  | .setChunkObject _ _ _ _ => True
  | .setManifestPlan _ _ _ => True
  | .commitFile _ minimum _ => minimum = minimumReplicas
  | w => w.Locates

/-- Writes of a delete. -/
def Write.ByDelete : Write → Prop
  | .createDeleteOperation _ => True
  | .commitDelete _ minimum _ => minimum = minimumReplicas
  | w => w.Locates

/-- Writes of a recovery. -/
def Write.ByRecover : Write → Prop
  | .applyRecoveredManifest _ _ _ _ => True
  | .applyRecoveredDeletion _ _ _ => True
  | .markRecoveryBlocked _ _ _ _ _ => True
  | .clearRecoveryPending => True
  | w => w.Locates

theorem byUpload_of_locates (w : Write) (h : w.Locates) : w.ByUpload := by
  cases w <;> first | exact h.elim | exact trivial

theorem byDelete_of_locates (w : Write) (h : w.Locates) : w.ByDelete := by
  cases w <;> first | exact h.elim | exact trivial

theorem byRecover_of_locates (w : Write) (h : w.Locates) : w.ByRecover := by
  cases w <;> first | exact h.elim | exact trivial

/-- Questions after which the agents hold at least what they held. -/
def Query.Keeps : Query → Prop
  | .delete _ _ _ => False
  | _ => True

/-- Questions that change nothing outside. -/
def Query.Reads : Query → Prop
  | .put _ _ _ => False
  | .delete _ _ _ => False
  | .putObject _ _ _ => False
  | .putSnapshot _ _ _ => False
  | .putCatalog _ _ => False
  | _ => True

theorem keeps_of_reads (q : Query) (h : q.Reads) : q.Keeps := by
  cases q <;> first | exact h.elim | exact trivial

section Only

variable {P : Write → Prop} {A : Query → Prop}

theorem only_failIf (condition : Bool) : (failIf condition).Only P A := by
  cases condition <;> trivial

theorem only_reading {α : Type} (f : Database → α) : (reading f).Only P A := fun _ => trivial

theorem only_write {w : Write} (h : P w) : (write w).Only P A := ⟨h, trivial⟩

theorem only_onlyIf {condition : Prop} [Decidable condition] {action : Action Unit}
    (h : action.Only P A) : (onlyIf condition action).Only P A := by
  unfold onlyIf
  split
  · exact h
  · trivial

theorem only_verifyRemoteAgent (hP : ∀ w, Write.Locates w → P w) (hA : ∀ q, Query.Reads q → A q)
    (state : Memory × List Domain) (agent : AgentTarget) :
    (verifyRemoteAgent state agent).Only P A := by
  refine only_bind (only_query (hA _ trivial)) fun answer => ?_
  cases answer with
  | unreachable => trivial
  | malformed => trivial
  | reports id domain incarnation free =>
    exact only_bind (only_failIf _) fun _ => only_bind (only_write (hP _ trivial)) fun _ => trivial

theorem only_verifyRemoteAgents (hP : ∀ w, Write.Locates w → P w) (hA : ∀ q, Query.Reads q → A q)
    (agents : List AgentTarget) (memory : Memory) : (verifyRemoteAgents agents memory).Only P A :=
  only_bind (only_foldlM fun agent _ state => only_verifyRemoteAgent hP hA state agent) fun _ =>
    only_bind (only_failIf _) fun _ => trivial

theorem only_replicateTo (hP : ∀ w, Write.Locates w → P w) (memory : Memory) {object : ObjectId}
    {bytes : Bytes} (hput : ∀ agent, A (.put agent object bytes)) (agent : AgentTarget) :
    (replicateTo memory object bytes agent).Only P A := by
  refine only_bind only_get fun db => ?_
  split
  · trivial
  · exact only_bind (only_onlyIf (only_write (hP _ trivial))) fun _ =>
      only_bind (only_query (hput agent)) fun _ => only_onlyIf (only_write (hP _ trivial))

theorem only_replicate (hP : ∀ w, Write.Locates w → P w) (agents : List AgentTarget) (memory : Memory)
    {object : ObjectId} {bytes : Bytes} (hput : ∀ agent, A (.put agent object bytes)) :
    (replicate agents memory object bytes).Only P A :=
  only_bind (only_forM fun agent _ => only_replicateTo hP memory hput agent) fun _ =>
    only_bind only_get fun _ => only_failIf _

theorem only_requireAdmissibleCapacity (agents : List AgentTarget) (memory : Memory)
    (upload : UploadId) : (requireAdmissibleCapacity agents memory upload).Only P A :=
  only_bind only_get fun _ => only_failIf _

section

variable [Sealing]

theorem only_holdsValid (hA : ∀ q, Query.Reads q → A q) (agent : AgentTarget) (object : ObjectId) :
    (holdsValid agent object).Only P A := by
  refine only_bind (only_query (hA _ trivial)) fun answer => ?_
  cases answer <;> trivial

theorem only_requireLiveDomains (hA : ∀ q, Query.Reads q → A q) (agents : List AgentTarget)
    (object : ObjectId) : (requireLiveDomains agents object).Only P A :=
  only_bind only_get fun _ => only_bind
    (only_mapM fun agent _ => only_bind (only_holdsValid hA agent object) fun _ => trivial)
    fun _ => only_failIf _

theorem only_ensureLiveUploadReplicaFloor (hA : ∀ q, Query.Reads q → A q)
    (agents : List AgentTarget) (upload : UploadId) (manifest : ObjectHash) :
    (ensureLiveUploadReplicaFloor agents upload manifest).Only P A :=
  only_bind (only_requireLiveDomains hA agents _) fun _ => only_bind only_get fun _ =>
    only_forM fun _ _ => only_bind (only_require _) fun _ => only_requireLiveDomains hA agents _

omit [Sealing] in
theorem only_newUpload (hA : ∀ q, Query.Reads q → A q) (key : IdempotencyKey)
    (inspection : SourceInspection) : (newUpload key inspection).Only P A :=
  only_bind (only_query (hA _ trivial)) fun _ => only_bind (only_query (hA _ trivial)) fun _ =>
    only_bind (only_failIf _) fun _ => trivial

theorem only_sendChunk (hP : ∀ w, Write.Locates w → P w) (hA : ∀ q, Query.Reads q → A q)
    (agents : List AgentTarget) (memory : Memory) (source : Source) (upload : UploadRow)
    (plan : UploadChunkRow) (hplan : ∀ hash len, P (.setChunkObject upload.uploadId plan.ordinal hash len))
    (hput : ∀ agent hash bytes, A (.put agent ⟨.chunk, hash⟩ bytes)) :
    (sendChunk agents memory source upload plan).Only P A :=
  only_bind (only_bind (only_query (hA _ trivial)) fun _ => only_require _) fun _ =>
    only_bind (only_failIf _) fun _ => only_bind (only_write (hplan _ _)) fun _ =>
      only_bind (only_replicate hP agents memory fun agent => hput agent _ _) fun _ => trivial

theorem only_planManifest (upload : UploadRow) (chunks : List ChunkRecord) :
    (planManifest upload chunks).Only Write.ByUpload Query.Keeps := by
  unfold planManifest
  split
  · trivial
  · exact only_bind (only_bind (only_query trivial) fun _ => only_require _) fun _ =>
      only_bind (only_write trivial) fun _ => trivial

theorem only_transfer (agents : List AgentTarget) (memory : Memory) (source : Source)
    (upload : UploadRow) : (transfer agents memory source upload).Only Write.ByUpload Query.Keeps :=
  only_bind (only_requireAdmissibleCapacity agents memory _) fun _ =>
    only_bind (only_onlyIf (only_write rfl)) fun _ => only_bind only_get fun _ =>
    only_bind (only_mapM fun plan _ => only_sendChunk byUpload_of_locates keeps_of_reads agents memory
      source upload plan (fun _ _ => trivial) fun _ _ _ => trivial) fun _ =>
    only_bind (only_query trivial) fun _ => only_bind (only_failIf _) fun _ =>
    only_bind (only_planManifest upload _) fun _ =>
    only_bind (only_replicate byUpload_of_locates agents memory fun _ => trivial) fun _ =>
    only_bind (only_ensureLiveUploadReplicaFloor keeps_of_reads agents _ _) fun _ =>
    only_bind (only_query trivial) fun _ => only_bind (only_write rfl) fun _ =>
    only_bind only_get fun _ => only_bind (only_require _) fun _ => trivial

omit [Sealing] in
theorem only_inspectAgain (hA : ∀ q, Query.Reads q → A q) (source : Source) (upload : UploadRow) :
    (inspectAgain source upload).Only P A :=
  only_bind (only_bind (only_query (hA _ trivial)) fun _ => only_require _) fun _ => only_failIf _

theorem only_upload (agents : List AgentTarget) (memory : Memory) (source : Source)
    (key : IdempotencyKey) : (upload agents memory source key).Only Write.ByUpload Query.Keeps := by
  refine only_bind only_get fun db => ?_
  split
  · next existing _ =>
    split
    · exact only_bind (only_query trivial) fun _ =>
        only_bind (only_onlyIf (only_inspectAgain keeps_of_reads source existing)) fun _ => trivial
    · exact only_bind (only_verifyRemoteAgents byUpload_of_locates keeps_of_reads agents memory) fun memory =>
        only_bind (only_inspectAgain keeps_of_reads source existing) fun _ =>
          only_transfer agents memory source existing
  · exact only_bind (only_verifyRemoteAgents byUpload_of_locates keeps_of_reads agents memory) fun memory =>
      only_bind (only_bind (only_query trivial) fun _ => only_require _) fun inspection =>
      only_bind (only_newUpload keeps_of_reads key inspection) fun _ => only_bind (only_query trivial) fun _ =>
      only_bind (only_write trivial) fun _ => only_bind only_get fun _ =>
      only_bind (only_require _) fun created => only_transfer agents memory source created

theorem only_planMarker (file : FileId) (generation : ℕ) :
    (planMarker file generation).Only P Query.Keeps := by
  refine only_bind (only_query trivial) fun _ => only_bind only_get fun _ => ?_
  split
  · trivial
  · exact only_bind (only_bind (only_query trivial) fun _ => only_require _) fun _ => trivial

theorem only_planDelete (file : FileId) (key : IdempotencyKey) :
    (planDelete file key).Only Write.ByDelete Query.Keeps := by
  refine only_bind only_get fun db => ?_
  split
  · exact only_bind (only_failIf _) fun _ => trivial
  · exact only_bind only_get fun _ => only_bind (only_require _) fun _ =>
      only_bind (only_failIf _) fun _ =>
      only_bind (only_require _) fun _ => only_bind (only_planMarker file _) fun _ =>
      only_bind (only_query trivial) fun _ => only_bind (only_write trivial) fun _ =>
      only_bind only_get fun _ => only_require _

theorem only_delete (agents : List AgentTarget) (memory : Memory) (file : FileId)
    (key : IdempotencyKey) : (Portal.delete agents memory file key).Only Write.ByDelete Query.Keeps := by
  refine only_bind (only_planDelete file key) fun operation => ?_
  split
  · trivial
  · exact only_bind (only_verifyRemoteAgents byDelete_of_locates keeps_of_reads agents memory) fun memory =>
      only_bind (only_replicate byDelete_of_locates agents memory fun _ => trivial) fun _ =>
      only_bind (only_requireLiveDomains keeps_of_reads agents _) fun _ => only_bind (only_query trivial) fun _ =>
      only_bind (only_write rfl) fun _ => only_bind only_get fun _ => only_require _

omit [Sealing] in
theorem only_scanAgent (mode : RecoveryMode) (hP : mode = .apply → ∀ w, Write.Locates w → P w)
    (hA : ∀ q, Query.Reads q → A q) (agent : AgentTarget) : (scanAgent mode agent).Only P A := by
  refine only_bind (only_query (hA _ trivial)) fun answer => ?_
  cases answer with
  | unreachable => trivial
  | malformed => trivial
  | reports id domain incarnation free =>
    refine only_bind (only_failIf _) fun _ => only_bind ?_ fun _ => ?_
    · cases mode with
      | apply => exact only_write (hP rfl _ trivial)
      | plan => exact only_bind only_get fun _ => only_failIf _
    · exact only_bind (only_mapM fun kind _ => only_bind (only_query (hA _ trivial)) fun _ =>
        only_bind (only_require _) fun _ => only_bind (only_failIf _) fun _ => trivial)
        fun _ => trivial

theorem only_verifyReplicas (hA : ∀ q, Query.Reads q → A q) (known : List ObjectId)
    (listed : List Listed) (object : ObjectId) : (verifyReplicas known listed object).Only P A := by
  refine only_bind (only_foldlM fun entry _ replica => ?_) fun replica => ?_
  · refine only_bind (only_query (hA _ trivial)) fun answer => ?_
    cases answer with
    | failed => trivial
    | refused => trivial
    | body bytes =>
      show Program.Only (W := portalWorld) P A (ite _ _ _)
      split <;> trivial
  · split
    · exact only_bind (only_failIf _) fun _ => trivial
    · trivial

theorem only_decodeEvidence (replica : ReplicaSet) : (decodeEvidence replica).Only P A := by
  unfold decodeEvidence
  split
  · trivial
  · split
    · trivial
    · exact only_bind (only_require _) fun _ => trivial
    · exact only_bind (only_require _) fun _ => trivial

theorem only_fetchFrom (hA : ∀ q, Query.Reads q → A q) (agents : List AgentTarget)
    (holders : List AgentId) (object : ObjectId) : (fetchFrom agents holders object).Only P A := by
  refine only_foldlM fun agent _ found => ?_
  split
  · trivial
  · refine only_bind (only_query (hA _ trivial)) fun answer => ?_
    cases answer <;> trivial

theorem only_replicaBytes (hA : ∀ q, Query.Reads q → A q) (agents : List AgentTarget)
    (holders : List AgentId) (replica : ReplicaSet) :
    (replicaBytes agents holders replica).Only P A := by
  unfold replicaBytes
  split
  · trivial
  · exact only_fetchFrom hA agents holders _

omit [Sealing] in
theorem only_recordPlacement (hP : ∀ w, Write.Locates w → P w) (context : RepairContext)
    (object : ObjectId) (agent : AgentTarget) : (recordPlacement context object agent).Only P A :=
  only_bind (only_require _) fun _ => only_bind (only_write (hP _ trivial)) fun _ =>
    only_write (hP _ trivial)

theorem only_repairTo (hP : ∀ w, Write.Locates w → P w) (hA : ∀ q, Query.Reads q → A q)
    (context : RepairContext) {replica : ReplicaSet}
    (hput : ∀ agent bytes, A (.put agent replica.object bytes)) (repair : Repair)
    (target : AgentTarget) : (repairTo context replica repair target).Only P A := by
  unfold repairTo
  split
  · trivial
  · split
    · trivial
    · refine only_bind (only_replicaBytes hA context.agents _ replica) fun bytes => ?_
      cases bytes with
      | none => trivial
      | some bytes =>
        refine only_bind (only_query (hput target bytes)) fun answer => ?_
        cases answer with
        | failed error => trivial
        | rejected => trivial
        | stored =>
          refine only_bind (only_holdsValid hA target _) fun intact => ?_
          split
          · exact only_bind (only_recordPlacement hP context _ target) fun _ => trivial
          · trivial

theorem only_ensureRf2 (hP : ∀ w, Write.Locates w → P w) (context : RepairContext) (progress : Progress) (object : ObjectId) :
    (ensureRf2 context progress object).Only P Query.Keeps := by
  unfold ensureRf2
  split
  · trivial
  · next replica _ =>
    split
    · trivial
    · refine only_bind (only_foldlM fun target _ repair =>
        only_repairTo hP keeps_of_reads context (fun _ _ => trivial) repair target) fun repair =>
          only_bind (only_onlyIf (only_forM fun id _ => ?_)) fun _ => trivial
      split
      · exact only_recordPlacement hP context object _
      · trivial

theorem only_ensureWinner (hP : ∀ w, Write.Locates w → P w) (context : RepairContext) (progress : Progress) (winner : Evidence) :
    (ensureWinner context progress winner).Only P Query.Keeps := by
  unfold ensureWinner
  split
  · exact only_foldlM fun object _ progress => only_ensureRf2 hP context progress object
  · trivial
  · exact only_ensureRf2 hP context progress _
  · trivial

omit [Sealing] in
theorem only_applyDecision (candidate : FileCandidate) (winner : Evidence)
    (replicas : List ReplicaSet) (issues : List String) :
    (applyDecision candidate winner replicas issues).Only Write.ByRecover Query.Keeps := by
  refine only_bind (only_query trivial) fun time => ?_
  split
  · exact only_write trivial
  · split
    · exact only_bind (only_require _) fun _ => only_bind (only_require _) fun _ => only_write trivial
    · exact only_write trivial
    · trivial

theorem only_recoverFile (context : RepairContext) (committed : List (FileId × ObjectHash))
    (replicas : List ReplicaSet) (candidate : FileCandidate) :
    (recoverFile context committed replicas candidate).Only Write.ByRecover Query.Keeps := by
  refine only_bind (only_require _) fun winner => only_bind ?_ fun progress =>
    only_bind (only_onlyIf (only_applyDecision candidate winner _ _)) fun _ => trivial
  unfold settle
  split
  · trivial
  · exact only_ensureWinner byRecover_of_locates context _ winner

theorem only_recover (mode : RecoveryMode) (agents : List AgentTarget) :
    (recover mode agents).Only Write.ByRecover Query.Keeps :=
  only_bind (only_mapM fun agent _ => only_scanAgent mode (fun _ => byRecover_of_locates)
      keeps_of_reads agent) fun _ => only_bind only_get fun _ =>
    only_bind (only_mapM fun object _ => only_verifyReplicas keeps_of_reads _ _ object) fun _ =>
    only_bind (only_mapM fun replica _ => only_decodeEvidence replica) fun _ =>
    only_bind (only_foldlM fun candidate _ replicas =>
      only_recoverFile _ _ replicas candidate) fun _ => only_onlyIf (only_write trivial)

end

end Only

end Metadata

end DistrHnsw
