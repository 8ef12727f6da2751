import DistrHnsw.Metadata.Draining
import DistrHnsw.Metadata.OneManifest

/-!
# Retries after a restore

Runs of uploads, retries, backup jobs, recoveries and restores of shipped snapshots.  Agents accept
one manifest of each file as long as every retry agrees with them; without a restore every retry
does, after one it may not.
-/

namespace DistrHnsw

namespace Metadata

open Program Portal Database Recovery Backup

section

variable [Sealing] [Snapshots] {S : FileId → Prop} {x y : Scene fleetWorld}

/-! ## A backup job -/

/-- The snapshot that a job may still ship. -/
structure Shipping (S : FileId → Prop) (pending : Option Database) (x : Scene fleetWorld) : Prop where
  sole : Sole S x
  vouched : ∀ snapshot, pending = some snapshot → Vouched x.past x.outside snapshot

variable {pending : Option Database}

omit [Snapshots] in
/-- Between the snapshot and the end of the job. -/
theorem Shipping.only (h : Shipping S pending x) {α : Type} {p : Action α}
    (hp : p.Only Write.Aside fun q : Query => q.Aside ∨
      ∃ target name snapshot, pending = some snapshot ∧ q = .putSnapshot target name snapshot) :
    p.Safe Regular Eq (KeepsSole S) (fun _ => Shipping S pending) x := by
  refine hp.safe h (fun _ _ hy heq => heq ▸ hy) (fun w hw y s hy hok _ => ?_)
    fun q hq y a e hy hanswers _ => ?_
  · obtain ⟨hsole, hstill⟩ := hy.sole.aside_wrote hw hok
    exact ⟨hsole, hsole, fun snapshot hsnapshot => (hy.vouched snapshot hsnapshot).mono hstill.drawn
      fun hash hheld => hheld⟩
  · rcases hq with hq | ⟨target, name, snapshot, hpending, rfl⟩
    · obtain ⟨hsole, hstill⟩ := hy.sole.aside_asked hq hanswers
      exact ⟨hsole, hsole, fun snapshot hsnapshot => (hy.vouched snapshot hsnapshot).mono hstill.drawn
        fun hash => hstill.controls.manifest.2⟩
    · obtain rfl : e = y.outside := hanswers
      have hsole : Sole S (y.asked (.putSnapshot target name snapshot) a y.outside) :=
        hy.sole.asked (fun _ _ => Iff.rfl) fun sent hsent => by
          cases hsent
          exact hy.vouched snapshot hpending
      exact ⟨hsole, hsole, fun own hown => (hy.vouched own hown).mono (drawn_snoc _ _)
        fun hash hheld => hheld⟩

omit [Sealing] in
theorem only_readBack (target : TargetId) (job : JobId) (generation : ℕ) (name : SnapshotName)
    (hash : ℕ) : (readBack target job generation name hash).Only Write.Aside Query.Aside := by
  refine only_bind (only_query (W := portalWorld) trivial) fun answer => ?_
  split
  · exact only_abandon aside_of_job job
  · split
    · exact only_bind (only_query (W := portalWorld) (q := .now) trivial) fun createdAt =>
        only_bind (only_write (aside_of_holdings (.inr trivial))) fun _ => trivial
    · exact only_abandon aside_of_job job

omit [Sealing] in
/-- The job ships the snapshot it took. -/
theorem only_finishSnapshot (target : TargetId) (job : JobId) (generation : ℕ) (time : Time)
    (latest : Option BackupSnapshot) (progress : Backup.Progress) :
    (finishSnapshot target job generation time latest pending progress).Only Write.Aside
      fun q : Query => q.Aside ∨
        ∃ target name snapshot, pending = some snapshot ∧ q = .putSnapshot target name snapshot := by
  unfold finishSnapshot
  cases pending with
  | none => trivial
  | some snapshot =>
    dsimp only
    split
    · trivial
    · refine only_bind (only_bind (only_query (W := portalWorld)
        (.inr ⟨_, _, snapshot, rfl, rfl⟩)) fun outcome => ?_) fun record => trivial
      split
      · exact only_abandon aside_of_job job
      · exact (only_readBack target job generation _ _).mono (fun _ h => h) fun _ => .inl

/-- A backup job ships what the tables hold, and moves no manifest. -/
theorem Sole.backup (agents : List AgentTarget) (target : TargetId) (sample : ℕ) (hx : Sole S x) :
    (Backup.backup agents target sample).Safe Regular Eq (KeepsSole S) (fun _ => Sole S) x := by
  have haside {α : Type} {p : Action α} {y : Scene fleetWorld} (hp : p.Only Write.Aside Query.Aside)
      (hy : Sole S y) : p.Safe Regular Eq (KeepsSole S) (fun _ z => Sole S z ∧ Still y z) y :=
    hy.aside (fun _ h => h) hp
  unfold Backup.backup
  refine safe_bind.2 ((haside (only_query (W := portalWorld) (q := .freshId) trivial) hx).mono
    fun job y hy => ?_)
  refine safe_bind.2 ((haside (only_write (aside_of_job (.createBackupJob job target) trivial))
    hy.1).mono fun _ y hy => ?_)
  replace hx := hy.1
  clear hy
  refine safe_bind.2 (Safe.mono (Q := fun _ => Sole S) ?_ fun report z hz => ?_)
  · unfold runBackup
    refine safe_bind.2 (safe_reading.2 ?_)
    rintro y rfl
    refine safe_bind.2 (safe_reading.2 ?_)
    rintro y rfl
    have htake : (takeSnapshot (y.store.latestBackupSnapshot target) y.store.contentGeneration).Safe
        Regular Eq (KeepsSole S) (fun pending => Shipping S pending) y := by
      unfold takeSnapshot
      split
      · exact ⟨hx, fun _ h => nomatch h⟩
      · refine safe_bind.2 (safe_database.2 ?_)
        rintro y rfl
        refine ⟨hx, fun snapshot hsnapshot => ?_⟩
        cases hsnapshot
        exact hx.tables
    refine safe_bind.2 (htake.mono fun pending z hz => ?_)
    have hjob (q : Query) (hq : q.OfJob) : q.Aside ∨ ∃ target name snapshot,
        pending = some snapshot ∧ q = .putSnapshot target name snapshot :=
      .inl (asideQuery_of_job q hq)
    refine safe_bind.2 (safe_reading.2 ?_)
    rintro z rfl
    refine Safe.mono (Q := fun _ => Shipping S pending) (hz.only ?_) fun _ _ h => h.sole
    refine only_bind (only_foldlM fun object _ progress => only_backUpObject aside_of_job hjob agents
      target job progress object) fun progress => ?_
    refine only_bind (only_query (W := portalWorld) (q := .now) (.inl trivial)) fun time => ?_
    refine only_bind (only_finishSnapshot target job _ time _ progress) fun finished => ?_
    refine only_bind (only_sampleObjects aside_of_job hjob target job time sample _)
      fun integrity => ?_
    refine only_bind (only_query (W := portalWorld) (.inl trivial)) fun outcome => ?_
    split
    · exact only_abandon aside_of_job job
    · trivial
  · refine safe_bind.2 ((haside (only_write (aside_of_job
      (.finishBackupJob job .complete (some report)) trivial)) hz).mono fun _ z hz => hz.1)

/-! ## Runs -/

/-- A retry under the key resumes what agents hold, if they hold a manifest of its file. -/
def Resumable (key : IdempotencyKey) (x : Scene fleetWorld) : Prop :=
  ∀ row, x.store.uploadByIdempotency key = some row → row.state ≠ .committed → Agrees x.outside row

/-- Uploads that meet a condition, backup jobs and recoveries, each of which may stop anywhere, and
restores of shipped snapshots; agents come and go in between and keep what they hold. -/
inductive Operated (Meets : IdempotencyKey → Scene fleetWorld → Prop) (Restores : Prop) :
    Scene fleetWorld → Prop
  | start (fleet : Fleet) (empty : ∀ object, ¬ fleet.Holds object) :
      Operated Meets Restores ⟨.new, fleet, []⟩
  | upload {x y : Scene fleetWorld} (before : Operated Meets Restores x) (agents : List AgentTarget)
      (memory : Memory) (source : Source) (key : IdempotencyKey) (meets : Meets key x)
      {p : Action FileId} (run : Steps (Portal.upload agents memory source key) x p y) :
      Operated Meets Restores y
  | backup {x y : Scene fleetWorld} (before : Operated Meets Restores x) (agents : List AgentTarget)
      (target : TargetId) (sample : ℕ) {p : Action BackupReport}
      (run : Steps (Backup.backup agents target sample) x p y) : Operated Meets Restores y
  | recover {x y : Scene fleetWorld} (before : Operated Meets Restores x) (mode : RecoveryMode)
      (agents : List AgentTarget) {p : Action Unit}
      (run : Steps (Recovery.recover mode agents) x p y) : Operated Meets Restores y
  | restore {x : Scene fleetWorld} (before : Operated Meets Restores x) (allowed : Restores)
      {event : Event portalWorld} (shipped : event ∈ x.past) {snapshot : Database}
      (sent : sentSnapshot event = some snapshot) (time : Time) :
      Operated Meets Restores ⟨restoreMetadata snapshot time, x.outside, x.past⟩
  | agents {x : Scene fleetWorld} (before : Operated Meets Restores x) (fleet : Fleet)
      (keep : fleet.holds = x.outside.holds) : Operated Meets Restores ⟨x.store, fleet, x.past⟩

variable {Meets : IdempotencyKey → Scene fleetWorld → Prop} {Restores : Prop}

/-- Uploads agree with the agents as long as they meet the condition or nothing is restored. -/
theorem Operated.sole (h : Operated Meets Restores x) (hdigest : Function.Injective Sealing.digest)
    (hmeets : ∀ key x, Meets key x → Restores → Resumable key x) (hregular : Regular x.past) :
    Sole (fun _ => ¬ Restores) x := by
  have hsteps {α : Type} {p p' : Action α} {x y : Scene fleetWorld} (hrun : Steps p x p' y)
      (hregular : Regular y.past) (hx : Sole (fun _ => ¬ Restores) x)
      (hsafe : p.Safe Regular Eq (KeepsSole fun _ => ¬ Restores) (fun _ _ => True) x) :
      Sole (fun _ => ¬ Restores) y :=
    (hsafe.steps hrun (fun _ _ => Regular.before) hregular (fun _ _ h _ => h) hx).1
  have hbefore {α : Type} {p p' : Action α} {x y : Scene fleetWorld} (hrun : Steps p x p' y)
      (hregular : Regular y.past) : Regular x.past := by
    obtain ⟨later, hpast⟩ := hrun.past
    exact (hpast ▸ hregular).before
  induction h with
  | start fleet empty =>
    exact ⟨.new, ⟨fun hash hheld => empty _ hheld, fun hash hheld => absurd hheld (empty _),
      fun a b file ha => absurd ha (empty _)⟩, fun _ h => absurd h List.not_mem_nil,
      fun _ h => absurd h List.not_mem_nil⟩
  | @upload x y before agents memory source key meets p run ih =>
    have hx := ih (hbefore run hregular)
    refine hsteps run hregular hx ((upload_safe hdigest hx fun row hrow hstate => ?_).mono
      fun _ _ _ => trivial)
    by_cases hrestores : Restores
    · exact hmeets key x meets hrestores row hrow hstate
    · exact hx.agreed row (uploadByIdempotency_some hrow).1 hrestores hstate
  | backup before agents target sample run ih =>
    have hx := ih (hbefore run hregular)
    exact hsteps run hregular hx ((hx.backup agents target sample).mono fun _ _ _ => trivial)
  | recover before mode agents run ih =>
    have hx := ih (hbefore run hregular)
    exact hsteps run hregular hx ((hx.recover hdigest mode agents).mono fun _ _ _ => trivial)
  | restore before allowed shipped sent time ih =>
    have hx := ih hregular
    exact ⟨(hx.snapshots _ shipped _ sent).of_eq rfl rfl, hx.agents, hx.snapshots,
      fun _ _ hnot => absurd allowed hnot⟩
  | @agents x before fleet keep ih =>
    have hx := ih hregular
    have hsame : SameControls x.outside fleet := fun object _ => by
      unfold Fleet.Holds
      rw [keep]
    have hmono {db : Database} (hdb : Vouched x.past x.outside db) : Vouched x.past fleet db :=
      hdb.mono (fun _ h => h) fun hash => hsame.manifest.2
    exact ⟨hmono hx.tables, hx.agents.same hsame fun _ h => h,
      fun event hevent snapshot hsent => hmono (hx.snapshots event hevent snapshot hsent),
      fun row hrow hfile hstate => (hx.agreed row hrow hfile hstate).same hsame⟩

/-- Agents hold one manifest of each generation of a file. -/
def OneManifest (fleet : Fleet) : Prop :=
  ∀ a b file generation, fleet.HoldsManifest a → fleet.HoldsManifest b →
    Speaks a file generation → Speaks b file generation → a = b

/-- No survey finds conflicting evidence. -/
def NoConflict (x : Scene fleetWorld) : Prop :=
  ∀ mode agents picture y, Steps (survey mode agents) x (.done picture) y → Regular y.past →
    ∀ candidate ∈ picture.candidates, conflicted candidate.evidence = false

omit [Snapshots] in
theorem Sole.oneManifest (h : Sole S x) (hdigest : Function.Injective Sealing.digest) :
    OneManifest x.outside := by
  intro a b file generation ha hb hspeaksA hspeaksB
  obtain ⟨own, -, hown⟩ := h.agents.manifests a ha
  obtain ⟨rfl, rfl⟩ := hspeaksA.unique hdigest hown
  exact h.agents.one a b file ha hb hspeaksA hspeaksB

omit [Snapshots] in
theorem Sole.noConflict (h : Sole S x) (hdigest : Function.Injective Sealing.digest) :
    NoConflict x := by
  intro mode agents picture y hrun hregular candidate hcandidate
  have hend := (survey_safe mode agents h).steps hrun (fun _ _ => Regular.before) hregular
    (fun _ _ hy _ => hy) h
  obtain ⟨hy, ⟨-, hgenuine⟩, htaken⟩ := hend
  exact hy.unconflicted hdigest htaken hgenuine hcandidate

/-- In any run whose retries resume what agents hold, agents accept one manifest of each generation
of a file, and no survey finds conflicting evidence. -/
theorem one_manifest_while_resumable (hdigest : Function.Injective Sealing.digest)
    (h : Operated Resumable True x) (hregular : Regular x.past) :
    OneManifest x.outside ∧ NoConflict x := by
  have hsole := h.sole hdigest (fun key y hmeets _ => hmeets) hregular
  exact ⟨hsole.oneManifest hdigest, hsole.noConflict hdigest⟩

/-- Without a restore, every retry resumes what agents hold. -/
theorem Operated.resumable (h : Operated (fun _ _ => True) False x)
    (hdigest : Function.Injective Sealing.digest) (hregular : Regular x.past) (key : IdempotencyKey) :
    Resumable key x := by
  have hsole := h.sole hdigest (fun _ _ _ h => h.elim) hregular
  intro row hrow hstate
  exact hsole.agreed row (uploadByIdempotency_some hrow).1 not_false hstate

end

/-! ## A plan lost in a restore -/

/-- A manifest is two bytes here, its seal and its file. -/
abbrev sealingTwice : Sealing where
  digest := namingOnly.digest
  decodeManifest
    | [_, file] => some ⟨file.toNat, 1, ⟨[], 0, 3⟩, [⟨0, 3, [], namingOnly.digest [1, 2, 3], 1⟩]⟩
    | _ => none
  decodeDeletionMarker _ := none

/-- The bytes as digits after a leading one. -/
def numeral (bytes : Bytes) : ℕ := bytes.foldl (fun n byte => 256 * n + byte.toNat) 1

theorem numeral_append (bytes : Bytes) (byte : UInt8) :
    numeral (bytes ++ [byte]) = 256 * numeral bytes + byte.toNat := List.foldl_append

theorem numeral_pos (bytes : Bytes) : 0 < numeral bytes := by
  induction bytes using List.reverseRecOn with
  | nil => decide
  | append_singleton bytes byte ih =>
    rw [numeral_append]
    omega

theorem numeral_injective : Function.Injective numeral := by
  have hone : numeral [] = 1 := rfl
  intro a
  induction a using List.reverseRecOn with
  | nil =>
    intro b h
    rcases List.eq_nil_or_concat b with rfl | ⟨b, byte, rfl⟩
    · rfl
    · have hpos := numeral_pos b
      rw [List.concat_eq_append, numeral_append] at h
      omega
  | append_singleton a first ih =>
    intro b h
    rcases List.eq_nil_or_concat b with rfl | ⟨b, second, rfl⟩
    · have hpos := numeral_pos a
      rw [numeral_append] at h
      omega
    · rw [List.concat_eq_append] at h ⊢
      rw [numeral_append, numeral_append] at h
      have hfirst := first.toNat_lt
      have hsecond := second.toNat_lt
      rw [ih (show numeral a = numeral b by omega),
        UInt8.toNat_inj.1 (show first.toNat = second.toNat by omega)]

theorem digest_injective : Function.Injective sealingTwice.digest := numeral_injective

/-- Snapshots named by the uploads in them. -/
abbrev uploadsHash : Snapshots where
  hash db := db.uploads.length

/-- Manifests get the seal, and the target returns the snapshot it stored. -/
def sealedAs (byte : UInt8) (stored : Database) : ∀ q : Query, q.Answer
  | .encodeManifest _ _ => some ([byte, 2] : Bytes)
  | .getSnapshot _ _ => some (some stored)
  | q => answersAt 1000 q

/-- Objects by their hashes. -/
def contentOf (object : ObjectId) : Bytes :=
  match object.kind with
  | .chunk => [1, 2, 3]
  | .manifest => if object.hash = namingOnly.digest [4, 2] then [4, 2] else [5, 2]
  | .deletionMarker => []

def sealing (byte : UInt8) (stored : Database) : Responder (@fleetWorld sealingTwice) :=
  letI := sealingTwice
  Fleet.obliging contentOf (sealedAs byte stored)

/-- At most `steps` steps of the upload of one source under one key. -/
def uploadSealed (byte : UInt8) (steps : ℕ) (x : Scene (@fleetWorld sealingTwice)) :
    Action FileId × Scene (@fleetWorld sealingTwice) :=
  letI := sealingTwice
  advance (sealing byte .new) steps (Portal.upload twoAgents ⟨[], []⟩ 0 0) x

def noCopies : Fleet := ⟨fun _ _ => false, fun _ => true, fun agent => agent + 100⟩

/-- The upload is planned under a file, and stops. -/
def staged : Scene (@fleetWorld sealingTwice) := (uploadSealed 4 11 ⟨.new, noCopies, []⟩).2

/-- The tables as the job ships them. -/
def stagedSnapshot : Database := { staged.store with backupJobs := [⟨7, 0, .running, none⟩] }

def backupStaged : Action BackupReport × Scene (@fleetWorld sealingTwice) :=
  letI := sealingTwice
  letI := uploadsHash
  advance (sealing 4 stagedSnapshot) 1000 (backup twoAgents 0 0) staged

/-- The retry goes on to the end. -/
def landed : Scene (@fleetWorld sealingTwice) := (uploadSealed 4 1000 backupStaged.2).2

/-- The snapshot is restored, and the same upload is retried again. -/
def retriedAgain : Scene (@fleetWorld sealingTwice) :=
  (uploadSealed 5 1000 ⟨restoreMetadata stagedSnapshot 2000, landed.outside, landed.past⟩).2

/-- The manifest opens as one of its upload. -/
def sealsOwn [Sealing] : Event portalWorld → Bool
  | .asked _ (.encodeManifest upload _) (some bytes) => (Sealing.decodeManifest bytes).any
      fun manifest => manifest.fileId = upload.fileId ∧ manifest.generation = upload.generation
  | _ => true

theorem regular_of_sealsOwn [Sealing] {past : List (Event portalWorld)} (hdrawn : (drawn past).Nodup)
    (hseals : ∀ event ∈ past, sealsOwn event = true) : Regular past := by
  refine ⟨hdrawn, fun event hevent => ?_⟩
  have hown := hseals event hevent
  unfold SealsOwn
  split
  · next upload records bytes =>
    unfold sealsOwn at hown
    cases hdecode : Sealing.decodeManifest bytes with
    | none => simp [hdecode] at hown
    | some manifest => exact ⟨manifest, rfl, by simpa [hdecode] using hown⟩
  · trivial

theorem steps_uploadSealed (byte : UInt8) (steps : ℕ) (x : Scene (@fleetWorld sealingTwice)) :
    Steps (@Portal.upload sealingTwice twoAgents ⟨[], []⟩ 0 0) x (uploadSealed byte steps x).1
      (uploadSealed byte steps x).2 :=
  let _ := sealingTwice
  steps_advance (Fleet.faithful_obliging _ _) steps _ x

theorem operated_backupStaged {Meets : IdempotencyKey → Scene (@fleetWorld sealingTwice) → Prop}
    {Restores : Prop} (hfirst : Meets 0 ⟨.new, noCopies, []⟩) :
    @Operated sealingTwice uploadsHash Meets Restores backupStaged.2 := by
  let _ := sealingTwice
  let _ := uploadsHash
  have hbackup : Steps (@backup sealingTwice uploadsHash twoAgents 0 0) staged backupStaged.1
      backupStaged.2 := steps_advance (Fleet.faithful_obliging _ _) 1000 _ _
  exact .backup (.upload (.start noCopies fun object ⟨agent, h⟩ => nomatch h) twoAgents _ _ _ hfirst
    (steps_uploadSealed 4 11 _)) twoAgents 0 0 hbackup

theorem shipped_landed : ∃ event ∈ landed.past, sentSnapshot event = some stagedSnapshot := by
  have hsome : (landed.past.filterMap sentSnapshot) = [stagedSnapshot] := by decide +kernel
  exact List.mem_filterMap.1 (hsome ▸ List.mem_singleton_self _)

/-- A retry that agrees with the agents: both of them hold its manifest. -/
theorem one_manifest_while_resumable_landed : @OneManifest sealingTwice landed.outside ∧
    @NoConflict sealingTwice landed ∧ ∀ agent ∈ twoAgents,
      landed.outside.holds agent.id ⟨.manifest, sealingTwice.digest [4, 2]⟩ = true := by
  let _ := sealingTwice
  let _ := uploadsHash
  have hagrees : Resumable 0 backupStaged.2 :=
    (operated_backupStaged trivial).resumable digest_injective
      (regular_of_sealsOwn (by decide +kernel) (by decide +kernel)) 0
  have hrun : @Operated sealingTwice uploadsHash Resumable True landed :=
    .upload (operated_backupStaged fun row hrow => by cases hrow) twoAgents _ _ _ hagrees
      (steps_uploadSealed 4 1000 _)
  obtain ⟨hone, hnone⟩ := one_manifest_while_resumable digest_injective hrun
    (regular_of_sealsOwn (by decide +kernel) (by decide +kernel))
  exact ⟨hone, hnone, by decide +kernel⟩

/-- After the restore the second retry seals and stores another manifest of the same file. -/
theorem restored_upload_seals_twice : ¬ ∀ (_ : Sealing) (_ : Snapshots) (x : Scene fleetWorld),
    Function.Injective Sealing.digest → Operated (fun _ _ => True) True x → Regular x.past →
      OneManifest x.outside := by
  intro h
  let _ := sealingTwice
  let _ := uploadsHash
  obtain ⟨event, hevent, hsent⟩ := shipped_landed
  have hrun : @Operated sealingTwice uploadsHash (fun _ _ => True) True retriedAgain :=
    .upload (.restore (.upload (operated_backupStaged trivial) twoAgents _ _ _ trivial
      (steps_uploadSealed 4 1000 _)) trivial hevent hsent 2000) twoAgents _ _ _ trivial
      (steps_uploadSealed 5 1000 _)
  have hone := h sealingTwice uploadsHash retriedAgain digest_injective hrun
    (regular_of_sealsOwn (by decide +kernel) (by decide +kernel))
  have hspeaks (byte : UInt8) : Speaks (sealingTwice.digest [byte, 2]) 2 1 :=
    ⟨[byte, 2], _, rfl, rfl, rfl, rfl⟩
  have hheld (byte : UInt8) (hbyte : retriedAgain.outside.holds 1
      ⟨.manifest, sealingTwice.digest [byte, 2]⟩ = true) :
      retriedAgain.outside.HoldsManifest (sealingTwice.digest [byte, 2]) := ⟨1, hbyte⟩
  have hsame := hone _ _ 2 1 (hheld 4 (by decide +kernel)) (hheld 5 (by decide +kernel))
    (hspeaks 4) (hspeaks 5)
  exact absurd hsame (by decide)

end Metadata

end DistrHnsw
