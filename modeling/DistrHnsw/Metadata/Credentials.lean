import DistrHnsw.Metadata.Backup
import DistrHnsw.Metadata.Frames
import DistrHnsw.Metadata.Visibility

/-!
# Keys and revocations in a backup

A backup job ships a snapshot unless the content generation is that of the last one, and no write
to keys, joins or identities raises the content generation.  The restored database has the keys the
job found as long as none of them was written since the last snapshot whenever it was skipped.
-/

namespace DistrHnsw

namespace Metadata

open Program Portal Backup Database

/-! ## What was shipped -/

/-- The snapshot an event ships to the target. -/
def shippedBy (target : TargetId) : Event portalWorld → Option Database
  | .wrote _ _ => none
  | .asked _ q a =>
    match q, a with
    | .putSnapshot other _ snapshot, outcome =>
      match outcome with
      | .refused _ => none
      | _ => if other = target then some snapshot else none
    | _, _ => none

/-- The snapshot shipped last. -/
def newestShipped (target : TargetId) (past : List (Event portalWorld)) : Option Database :=
  (past.filterMap (shippedBy target)).getLast?

/-- The event writes keys, joins or identities. -/
def writesAccess : Event portalWorld → Bool
  | .wrote _ (.access _) => true
  | _ => false

/-- No key, join or identity was written since a snapshot was shipped, the last event first. -/
def quietSince (target : TargetId) : List (Event portalWorld) → Bool
  | [] => true
  | event :: earlier =>
    (shippedBy target event).isSome || (!writesAccess event && quietSince target earlier)

/-- No key, join or identity was written since the last snapshot was shipped. -/
def Quiet (target : TargetId) (past : List (Event portalWorld)) : Prop :=
  quietSince target past.reverse = true

section Shipped

variable {target : TargetId} {past : List (Event portalWorld)} {event : Event portalWorld}

theorem newestShipped_other (h : shippedBy target event = none) :
    newestShipped target (past ++ [event]) = newestShipped target past := by
  simp [newestShipped, h]

theorem newestShipped_ship {snapshot : Database} (h : shippedBy target event = some snapshot) :
    newestShipped target (past ++ [event]) = some snapshot := by
  simp [newestShipped, h]

theorem quiet_ship {snapshot : Database} (h : shippedBy target event = some snapshot) :
    Quiet target (past ++ [event]) := by
  simp [Quiet, quietSince, h]

theorem quiet_other (h : shippedBy target event = none) :
    Quiet target (past ++ [event]) ↔ writesAccess event = false ∧ Quiet target past := by
  simp [Quiet, quietSince, h]

end Shipped

/-! ## The invariant -/

variable {O : Outside portalWorld}

/-- What the shipped snapshots have to do with the database. -/
structure Kept (x : Scene O) : Prop where
  shipped : ∀ row ∈ x.store.backupSnapshots, newestShipped row.targetId x.past ≠ none
  current : ∀ target snapshot, newestShipped target x.past = some snapshot →
    Quiet target x.past → snapshot.toAccess = x.store.toAccess

theorem Kept.new (e : O.State) : Kept (O := O) ⟨.new, e, []⟩ :=
  ⟨fun _ h => absurd h List.not_mem_nil, fun _ _ h => nomatch h⟩

/-- Writes other than the record of a snapshot leave the snapshot records alone. -/
theorem backupSnapshots_eq {db db₁ : Database} {w : Write} (hok : w.perform db = .ok db₁)
    (hw : ∀ row, w ≠ .recordBackupSnapshot row) : db₁.backupSnapshots = db.backupSnapshots := by
  by_cases hholdings : w.AboutHoldings
  · cases w with
    | createBackupJob id target => rw [createBackupJob_spec hok]
    | finishBackupJob id status report =>
      obtain ⟨jobs, rfl⟩ := finishBackupJob_spec hok
      rfl
    | recordBackupObject target object =>
      cases hok
      obtain ⟨objects, h⟩ := recordBackupObject_spec db target object
      rw [h]
    | recordBackupSnapshot row => exact absurd rfl (hw row)
    | _ =>
      obtain ⟨_, _, rfl⟩ := Write.onlyPlaces hok (hholdings.resolve_right id)
      rfl
  · exact congrArg Holdings.backupSnapshots (Write.holdings_eq hok hholdings)

section Kept

variable {x : Scene O}

/-- A write keeps the invariant; one that records a snapshot, once the snapshot was shipped. -/
theorem Kept.wrote (h : Kept x) {w : Write} {s : Database} (hok : w.perform x.store = .ok s)
    (hw : ∀ row, w = .recordBackupSnapshot row → newestShipped row.targetId x.past ≠ none) :
    Kept (x.wrote w s) := by
  have hnone (target : TargetId) :
      shippedBy target (.wrote (W := portalWorld) x.store w) = none := rfl
  constructor
  · intro row hrow
    rw [Scene.wrote_past, newestShipped_other (hnone _)]
    by_cases hrecord : ∃ new, w = .recordBackupSnapshot new
    · obtain ⟨new, rfl⟩ := hrecord
      have hs : s = _ := recordBackupSnapshot_spec hok
      rw [Scene.wrote_store, hs] at hrow
      rcases List.mem_append.1 hrow with hold | hnew
      · exact h.shipped row hold
      · rw [List.mem_singleton.1 hnew]
        exact hw new rfl
    · have hsame := backupSnapshots_eq hok fun new hnew => hrecord ⟨new, hnew⟩
      rw [Scene.wrote_store, hsame] at hrow
      exact h.shipped row hrow
  · intro target snapshot hnewest hquiet
    rw [Scene.wrote_past, newestShipped_other (hnone _)] at hnewest
    rw [Scene.wrote_past, quiet_other (hnone _)] at hquiet
    have haccess : ¬ w.AboutAccess := fun haccess => by
      cases w with
      | access w => exact absurd hquiet.1 (by simp [writesAccess])
      | _ => exact haccess.elim
    exact (h.current target snapshot hnewest hquiet.2).trans (Write.access_eq hok haccess).symm

/-- A snapshot of the database as it is, or any other question, keeps the invariant. -/
theorem Kept.asked (h : Kept x) {q : Query} {a : q.Answer} {e : O.State}
    (hq : ∀ target snapshot, shippedBy target (.asked (W := portalWorld) x.store q a) =
      some snapshot → snapshot.toAccess = x.store.toAccess) :
    Kept (O := O) (x.asked q a e) := by
  constructor
  · intro row hrow
    rw [Scene.asked_past]
    cases hship : shippedBy row.targetId (.asked (W := portalWorld) x.store q a) with
    | none =>
      rw [newestShipped_other hship]
      exact h.shipped row hrow
    | some snapshot => simp [newestShipped_ship hship]
  · intro target snapshot hnewest hquiet
    rw [Scene.asked_past] at hnewest hquiet
    cases hship : shippedBy target (.asked (W := portalWorld) x.store q a) with
    | none =>
      rw [newestShipped_other hship] at hnewest
      rw [quiet_other hship] at hquiet
      exact h.current target snapshot hnewest hquiet.2
    | some shipped =>
      rw [newestShipped_ship hship] at hnewest
      cases hnewest
      exact hq target _ hship

end Kept

/-! ## One job -/

/-- Writes of a job, except the record of its snapshot. -/
def Write.ByJob : Write → Prop
  | .createBackupJob _ _ => True
  | .finishBackupJob _ _ _ => True
  | .recordBackupObject _ _ => True
  | _ => False

/-- Questions other than the shipping of a snapshot. -/
def Query.ShipsNothing : Query → Prop
  | .putSnapshot _ _ _ => False
  | _ => True

/-- Questions of a job, except the shipping of its snapshot. -/
def Query.OfJob : Query → Prop
  | .putSnapshot _ _ _ => False
  | .put _ _ _ => False
  | .delete _ _ _ => False
  | _ => True

theorem shipsNothing_of_job (q : Query) (h : q.OfJob) : q.ShipsNothing := by
  cases q <;> first | exact h.elim | exact trivial

section Only

variable {P : Write → Prop} {A : Query → Prop}

theorem only_abandon (hP : ∀ w, Write.ByJob w → P w) {α : Type} (job : JobId) :
    (abandon job : Action α).Only P A := ⟨hP _ trivial, trivial⟩

variable [Sealing]

theorem only_fetchFromAgents (hA : ∀ q, Query.OfJob q → A q) (agents : List AgentTarget)
    (object : HistoryObject) : (fetchFromAgents agents object).Only P A := by
  refine only_bind (only_reading _) fun confirmed => only_foldlM fun agent _ found => ?_
  split
  · trivial
  · refine only_bind (only_query (hA _ trivial)) fun answer => ?_
    cases answer <;> trivial

theorem only_verifyOnTarget (hP : ∀ w, Write.ByJob w → P w) (hA : ∀ q, Query.OfJob q → A q)
    (target : TargetId) (job : JobId) (progress : Backup.Progress) (object : HistoryObject)
    (size : ℕ) : (verifyOnTarget target job progress object size).Only P A := by
  refine only_bind (only_query (hA _ trivial)) fun answer => ?_
  split
  · exact only_abandon hP job
  · split
    · exact only_bind (only_write (hP _ trivial)) fun _ => trivial
    · trivial

theorem only_backUpObject (hP : ∀ w, Write.ByJob w → P w) (hA : ∀ q, Query.OfJob q → A q)
    (agents : List AgentTarget) (target : TargetId) (job : JobId) (progress : Backup.Progress)
    (object : HistoryObject) : (backUpObject agents target job progress object).Only P A := by
  refine only_bind (only_reading _) fun verified => ?_
  split
  · trivial
  · refine only_bind (only_fetchFromAgents hA agents object) fun bytes => ?_
    split
    · trivial
    · refine only_bind (only_query (hA _ trivial)) fun outcome => ?_
      split
      · trivial
      · exact only_verifyOnTarget hP hA target job _ object _

theorem only_sampleObjects (hP : ∀ w, Write.ByJob w → P w) (hA : ∀ q, Query.OfJob q → A q)
    (target : TargetId) (job : JobId) (time : Time) (requested : ℕ) (verified : List CatalogObject) :
    (sampleObjects target job time requested verified).Only P A := by
  unfold sampleObjects
  split
  · trivial
  · refine only_bind (only_foldlM fun object _ sample => ?_) fun sample => trivial
    refine only_bind (only_query (hA _ trivial)) fun answer => ?_
    split
    · exact only_abandon hP job
    · trivial
    · show Program.Only (W := portalWorld) _ _ (ite _ _ _)
      split <;> trivial

end Only

/-- The source still has the keys it had when the job started; under the condition some snapshot was
shipped, and no key written since. -/
structure InJob (access : Access) (target : TargetId) (condition : Prop) (x : Scene O) : Prop where
  kept : Kept x
  access : x.store.toAccess = access
  shipped : condition → newestShipped target x.past ≠ none
  quiet : condition → Quiet target x.past

section InJob

variable {access : Access} {target : TargetId} {condition condition' : Prop} {x : Scene O}

theorem InJob.mono (h : InJob access target condition x) (hc : condition' → condition) :
    InJob access target condition' x :=
  ⟨h.kept, h.access, fun hc' => h.shipped (hc hc'), fun hc' => h.quiet (hc hc')⟩

theorem InJob.wrote (h : InJob access target condition x) {w : Write} {s : Database}
    (hok : w.perform x.store = .ok s) (hw : w.AboutBackups)
    (hrecord : ∀ row, w = .recordBackupSnapshot row → newestShipped row.targetId x.past ≠ none) :
    InJob access target condition (x.wrote w s) := by
  refine ⟨h.kept.wrote hok hrecord, ?_, fun hc => ?_, fun hc => ?_⟩
  · rw [← h.access]
    exact (Write.AboutHoldings.frame (.inr hw) hok).2
  · rw [Scene.wrote_past, newestShipped_other rfl]
    exact h.shipped hc
  · refine (quiet_other rfl).2 ⟨?_, h.quiet hc⟩
    cases w with
    | access w => exact hw.elim
    | _ => rfl

theorem shippedBy_none {q : Query} (hq : q.ShipsNothing) (s : Database) (a : q.Answer)
    (target : TargetId) : shippedBy target (.asked (W := portalWorld) s q a) = none := by
  cases q <;> first | exact hq.elim | rfl

theorem InJob.asked (h : InJob access target condition x) {q : portalWorld.Query}
    {a : portalWorld.Answer q}
    (hnone : ∀ target, shippedBy target (.asked (W := portalWorld) x.store q a) = none)
    (e : O.State) : InJob access target condition (x.asked q a e) := by
  refine ⟨h.kept.asked fun target snapshot hship => ?_, h.access, fun hc => ?_, fun hc => ?_⟩
  · rw [hnone] at hship
    cases hship
  · rw [Scene.asked_past, newestShipped_other (hnone target)]
    exact h.shipped hc
  · exact (quiet_other (hnone target)).2 ⟨rfl, h.quiet hc⟩

/-- Steps of a job keep the invariant. -/
def KeepsAll (_ y : Scene O) : Prop := Kept y

theorem InJob.safe {α : Type} {p : Action α} (hp : p.Only Write.ByJob Query.ShipsNothing)
    (h : InJob access target condition x) :
    p.Safe (fun _ => True) Eq KeepsAll (fun _ => InJob access target condition) x := by
  refine hp.safe h (fun x y hx heq => heq ▸ hx) (fun w hw x s hx hok _ => ?_)
    fun q hq x a e hx _ _ => ?_
  · have hbackups : w.AboutBackups := by
      cases w <;> first | exact hw.elim | trivial
    have hnot : ∀ row, w = .recordBackupSnapshot row → newestShipped row.targetId x.past ≠ none :=
      fun row heq => by rw [heq] at hw; exact hw.elim
    have hnext := hx.wrote hok hbackups hnot
    exact ⟨hnext.kept, hnext⟩
  · have hnext := hx.asked (shippedBy_none hq x.store a) e
    exact ⟨hnext.kept, hnext⟩

/-- Shipping a snapshot of the source. -/
theorem InJob.ship (h : InJob access target condition x) {n : SnapshotName} {snapshot : Database}
    (hsnapshot : snapshot.toAccess = access)
    {a : portalWorld.Answer (.putSnapshot target n snapshot)}
    (hship : ∀ other, shippedBy other (.asked (W := portalWorld) x.store
      (.putSnapshot target n snapshot) a) = if target = other then some snapshot else none)
    (e : O.State) : InJob access target True (x.asked (.putSnapshot target n snapshot) a e) := by
  have hthis := hship target
  rw [if_pos rfl] at hthis
  refine ⟨h.kept.asked fun other shipped hshipped => ?_, h.access, fun _ => ?_, fun _ => ?_⟩
  · rw [hship, Option.ite_none_right_eq_some, Option.some.injEq] at hshipped
    rw [← hshipped.2, hsnapshot, h.access]
  · rw [Scene.asked_past, newestShipped_ship hthis]
    exact Option.some_ne_none _
  · exact quiet_ship hthis

variable [Snapshots]

omit [Snapshots] in
theorem InJob.abandon (h : InJob access target condition x) {α : Type} {job : JobId}
    {Q : α → Scene O → Prop} :
    (Backup.abandon job).Safe (fun _ => True) Eq KeepsAll Q x := by
  unfold Backup.abandon
  refine safe_bind.2 (safe_write.2 fun y hy s hok _ => ⟨?_, trivial⟩)
  subst hy
  exact (h.wrote hok trivial fun _ h => nomatch h).kept

/-- Read the shipped snapshot back and record it. -/
theorem InJob.readBack (h : InJob access target True x) {job : JobId} {generation hash : ℕ}
    {name : SnapshotName} :
    (readBack target job generation name hash).Safe (fun _ => True) Eq KeepsAll
      (fun _ => InJob access target True) x := by
  unfold Backup.readBack getSnapshot
  refine safe_bind.2 (safe_query.2 ?_)
  rintro y rfl answer e - -
  have hget := h.asked (q := .getSnapshot target name) (a := answer) (fun _ => rfl) e
  refine ⟨hget.kept, ?_⟩
  split
  · exact hget.abandon
  · split
    · refine safe_bind.2 (safe_query.2 ?_)
      rintro z rfl time e - -
      have hnow := hget.asked (q := .now) (a := time) (fun _ => rfl) e
      refine ⟨hnow.kept, safe_bind.2 (safe_write.2 ?_)⟩
      rintro z rfl s hok -
      have hdone := hnow.wrote hok trivial fun row hrow => by
        cases hrow
        exact hnow.shipped trivial
      exact ⟨hdone.kept, hdone⟩
    · exact hget.abandon

theorem InJob.shipSnapshot (h : InJob access target condition x) {job : JobId} {generation : ℕ}
    {time : Time} {snapshot : Database} (hsnapshot : snapshot.toAccess = access) :
    (shipSnapshot target job generation time snapshot).Safe (fun _ => True) Eq KeepsAll
      (fun _ => InJob access target True) x := by
  unfold Backup.shipSnapshot putSnapshot
  refine safe_bind.2 (safe_query.2 ?_)
  rintro y rfl outcome e - -
  cases outcome with
  | refused error =>
    have hnext := h.asked (q := .putSnapshot target ⟨time, hashPrefix (Snapshots.hash snapshot)⟩
      snapshot) (a := .refused error) (fun _ => rfl) e
    exact ⟨hnext.kept, hnext.abandon⟩
  | created =>
    have hnext := h.ship (n := ⟨time, hashPrefix (Snapshots.hash snapshot)⟩) (a := .created)
      hsnapshot (fun _ => rfl) e
    exact ⟨hnext.kept, hnext.readBack⟩
  | identical =>
    have hnext := h.ship (n := ⟨time, hashPrefix (Snapshots.hash snapshot)⟩) (a := .identical)
      hsnapshot (fun _ => rfl) e
    exact ⟨hnext.kept, hnext.readBack⟩

/-- What the job does about its snapshot: without an issue the newest one has the keys. -/
theorem InJob.finishSnapshot (h : InJob access target condition x) {job : JobId} {generation : ℕ}
    {time : Time} {latest : Option BackupSnapshot} {pending : Option Database}
    {progress : Backup.Progress} (hnone : pending = none → condition' → condition)
    (hsome : ∀ snapshot, pending = some snapshot → snapshot.toAccess = access) :
    (finishSnapshot target job generation time latest pending progress).Safe (fun _ => True) Eq
      KeepsAll (fun (_, _, issues) => InJob access target (condition' ∧ issues = [])) x := by
  unfold Backup.finishSnapshot
  cases pending with
  | none => exact h.mono fun hc => hnone rfl hc.1
  | some snapshot =>
    dsimp only
    split
    · exact h.mono fun hc => absurd hc.2 (by simp)
    · refine safe_bind.2 ((h.shipSnapshot (hsome snapshot rfl)).mono fun record y hy => ?_)
      exact hy.mono fun _ => trivial

omit [Snapshots] in
/-- The end of a job. -/
theorem InJob.catalog (h : InJob access target condition x) {job : JobId} {catalog : Catalog}
    {report : BackupReport} :
    (fileCatalog target job catalog report).Safe (fun _ => True) Eq KeepsAll
      (fun out y => out = report ∧ InJob access target condition y) x := by
  unfold fileCatalog putCatalog
  refine safe_bind.2 (safe_query.2 ?_)
  rintro y rfl answer e - -
  have hnext := h.asked (q := .putCatalog target catalog) (a := answer) (fun _ => rfl) e
  refine ⟨hnext.kept, ?_⟩
  cases answer with
  | refused error => exact hnext.abandon
  | _ => exact ⟨rfl, hnext⟩

omit [Snapshots] in
/-- The last snapshot is one of the target. -/
theorem latestBackupSnapshot_some {db : Database} {row : BackupSnapshot}
    (h : db.latestBackupSnapshot target = some row) :
    row ∈ db.backupSnapshots ∧ row.targetId = target := by
  suffices hmem : row ∈ db.backupSnapshots.filter (·.targetId == target) by
    simpa using hmem
  have hfold : ∀ (rows : List BackupSnapshot) (best : Option BackupSnapshot),
      rows.foldl laterSnapshot best = some row → row ∈ rows ∨ best = some row := by
    intro rows
    induction rows with
    | nil => exact fun best hbest => .inr hbest
    | cons first rows ih =>
      intro best hbest
      rcases ih _ hbest with hrow | hlater
      · exact .inl (List.mem_cons_of_mem _ hrow)
      · unfold laterSnapshot at hlater
        split at hlater
        · exact .inl (by simp_all)
        · split at hlater
          · exact .inl (by simp_all)
          · exact .inr hlater
  exact (hfold _ none h).resolve_right fun h => nomatch h

omit [Snapshots] in
theorem exitCode_eq_zero {report : BackupReport} :
    exitCode report = 0 ↔ report.totals.failed = 0 ∧ report.issues = [] := by
  unfold exitCode
  split
  · next h => exact iff_of_true rfl h
  · next h => exact iff_of_false (by decide) h

variable [Sealing]

/-- The target has a snapshot of the content generation. -/
def UpToDate (db : Database) (target : TargetId) : Prop :=
  (db.latestBackupSnapshot target).any (·.contentGeneration == db.contentGeneration) = true

instance (db : Database) (target : TargetId) : Decidable (UpToDate db target) :=
  inferInstanceAs (Decidable (_ = true))

theorem InJob.runBackup {agents : List AgentTarget} {job : JobId} {sample : ℕ}
    (h : InJob access target (condition ∧ UpToDate x.store target) x) :
    (runBackup agents target job sample).Safe (fun _ => True) Eq KeepsAll
      (fun report => InJob access target (condition ∧ exitCode report = 0)) x := by
  unfold Backup.runBackup
  refine safe_bind.2 (safe_reading.2 ?_)
  rintro y rfl
  refine safe_bind.2 (safe_reading.2 ?_)
  rintro y rfl
  refine safe_bind.2 ?_
  let Taken (pending : Option Database) : Prop :=
    (pending = none → UpToDate x.store target) ∧
      ∀ snapshot, pending = some snapshot → snapshot.toAccess = access
  have htake : (takeSnapshot (x.store.latestBackupSnapshot target) x.store.contentGeneration).Safe
      (fun _ => True) Eq KeepsAll (fun pending y => y = x ∧ Taken pending) x := by
    unfold takeSnapshot
    split
    · next hup => exact ⟨rfl, fun _ => hup, fun _ h => nomatch h⟩
    · refine safe_bind.2 (safe_database.2 ?_)
      rintro y rfl
      refine ⟨rfl, fun h => (nomatch h), fun snapshot hsnapshot => ?_⟩
      cases hsnapshot
      exact h.access
  refine htake.mono ?_
  rintro pending y ⟨rfl, hnone, hsome⟩
  refine safe_bind.2 (safe_reading.2 ?_)
  rintro z rfl
  have hobjects := only_foldlM (l := y.store.historyObjects)
    (b := Backup.Progress.start y.store.historyObjects.length)
    fun object _ progress => only_backUpObject (fun _ h => h) shipsNothing_of_job agents target job
      progress object
  refine safe_bind.2 ((h.safe hobjects).mono fun progress z hz => ?_)
  refine safe_bind.2 (safe_query.2 ?_)
  rintro _ rfl time e - -
  have hnow := hz.asked (q := .now) (a := time) (fun _ => rfl) e
  have hpending (h : pending = none) (hc : condition) : condition ∧ UpToDate y.store target :=
    ⟨hc, hnone h⟩
  refine ⟨hnow.kept, safe_bind.2 ((hnow.finishSnapshot hpending hsome).mono ?_)⟩
  rintro ⟨record, skipped, issues⟩ z hz
  refine safe_bind.2 ((hz.safe (only_sampleObjects (fun _ h => h) shipsNothing_of_job target job time
    sample progress.catalog)).mono fun integrity z hz => ?_)
  refine hz.catalog.mono fun report z hz => ?_
  obtain ⟨rfl, hz⟩ := hz
  refine hz.mono fun hc => ⟨hc.1, ?_⟩
  exact (List.append_eq_nil_iff.1 (exitCode_eq_zero.1 hc.2).2).1

/-- A job that ends with exit code 0 leaves its keys in the newest snapshot. -/
theorem InJob.backup {agents : List AgentTarget} {sample : ℕ}
    (h : InJob access target (condition ∧ UpToDate x.store target) x) :
    (backup agents target sample).Safe (fun _ => True) Eq KeepsAll
      (fun report => InJob access target (condition ∧ exitCode report = 0)) x := by
  unfold Backup.backup
  refine safe_bind.2 (safe_query.2 ?_)
  rintro y rfl job e - -
  have hid := h.asked (q := .freshId) (a := job) (fun _ => rfl) e
  refine ⟨hid.kept, safe_bind.2 (safe_write.2 ?_)⟩
  rintro z rfl s hok -
  have hcreated := hid.wrote hok trivial fun _ h => nomatch h
  refine ⟨hcreated.kept, ?_⟩
  -- Creating the job changes neither the snapshots nor the content generation.
  have hs : s = _ := createBackupJob_spec hok
  have hstart : InJob access target (condition ∧ UpToDate s target) _ := hcreated.mono fun hup => by
    rw [hs] at hup
    exact hup
  refine safe_bind.2 (hstart.runBackup.mono fun report y hy => ?_)
  refine safe_bind.2 (safe_write.2 ?_)
  rintro z rfl s hok -
  have hdone := hy.wrote hok trivial fun _ h => nomatch h
  exact ⟨hdone.kept, hdone⟩

end InJob

/-! ## Runs -/

section

variable [Sealing] [Snapshots]

/-- Any writes, and backup jobs that may stop anywhere, one after the other. -/
inductive JobRuns : Scene O → Prop
  | new (e : O.State) : JobRuns ⟨.new, e, []⟩
  | write {x : Scene O} (before : JobRuns x) (w : Write) {s : Database}
      (ok : w.perform x.store = .ok s) (other : ∀ row, w ≠ .recordBackupSnapshot row) :
      JobRuns (x.wrote w s)
  | job {x y : Scene O} (before : JobRuns x) (agents : List AgentTarget) (target : TargetId)
      (sample : ℕ) {p : Action BackupReport} (steps : Steps (backup agents target sample) x p y) :
      JobRuns y

variable {x y : Scene O} {agents : List AgentTarget} {target : TargetId} {sample : ℕ}

/-- A job keeps the invariant; when it skips nothing that changed, its end has the keys. -/
theorem Kept.job (h : Kept x) {p : Action BackupReport}
    (hsteps : Steps (backup agents target sample) x p y) :
    Kept y ∧ p.Safe (fun _ => True) Eq KeepsAll (fun report => InJob x.store.toAccess target
      ((UpToDate x.store target → Quiet target x.past) ∧ exitCode report = 0)) y := by
  have hstart : InJob x.store.toAccess target
      ((UpToDate x.store target → Quiet target x.past) ∧ UpToDate x.store target) x := by
    refine ⟨h, rfl, fun hc => ?_, fun hc => hc.1 hc.2⟩
    have hup := hc.2
    unfold UpToDate at hup
    cases hlatest : x.store.latestBackupSnapshot target with
    | none =>
      rw [hlatest] at hup
      cases hup
    | some row =>
      obtain ⟨hrow, rfl⟩ := latestBackupSnapshot_some hlatest
      exact h.shipped row hrow
  exact hstart.backup.steps hsteps (fun _ _ h => h) trivial (fun _ _ hy _ => hy) h

theorem JobRuns.kept (h : JobRuns x) : Kept x := by
  induction h with
  | new e => exact .new e
  | write before w ok other ih => exact ih.wrote ok fun row hrow => absurd hrow (other row)
  | job before agents target sample steps ih => exact (ih.job steps).1

end

/-! ## A key rotated after the last snapshot -/

/-- Answers of a portal without files and of a target that stores one snapshot. -/
def targetWith (job : JobId) (stored : Database) : ∀ q : Query, q.Answer
  | .now => (1000 : ℤ)
  | .freshId => job
  | .freshUpload => ⟨1, 2, fun _ => []⟩
  | .sourceExists _ => true
  | .inspectSource _ => none
  | .manifestFits _ => true
  | .encryptChunk _ _ _ => none
  | .trailingBytes _ => false
  | .encodeManifest _ _ => none
  | .encodeMarker _ _ _ => none
  | .health _ => .unreachable
  | .put _ _ _ => .rejected
  | .get _ _ => .refused
  | .delete _ _ _ => false
  | .inventory _ _ => none
  | .putObject _ _ _ => .created
  | .getObject _ _ => some none
  | .putSnapshot _ _ _ => .created
  | .getSnapshot _ _ => some (some stored)
  | .putCatalog _ _ => .created

/-- Snapshots named by their jobs and keys. -/
abbrev countingHash : Snapshots where
  hash db := 16 * db.backupJobs.length + db.signingKeys.length

/-- The scene after a write; a refused one changes nothing. -/
def performed (w : Write) (x : Scene (.any portalWorld)) : Scene (.any portalWorld) :=
  match w.perform x.store with
  | .ok s => x.wrote w s
  | .error _ => x

/-- A backup job of a portal without agents. -/
def jobFrom (job : JobId) (stored : Database) (x : Scene (.any portalWorld)) :
    Action BackupReport × Scene (.any portalWorld) :=
  letI := namingOnly
  letI := countingHash
  advance (saying (W := portalWorld) (targetWith job stored)) 100 (backup [] 0 0) x

def signingKey (id : KeyId) : SigningKeyRow := ⟨id, id, [], [], .active⟩

/-- A portal with its first key. -/
def withKey : Scene (.any portalWorld) :=
  performed (.access (.insertFirstSigningKey (signingKey 1))) ⟨.new, (), []⟩

/-- The first job ships a snapshot. -/
def backedUp : Action BackupReport × Scene (.any portalWorld) :=
  jobFrom 7 { withKey.store with backupJobs := [⟨7, 0, .running, none⟩] } withKey

/-- The key is rotated. -/
def rotated : Scene (.any portalWorld) :=
  performed (.access (.rotateSigningKey (signingKey 2))) backedUp.2

/-- The second job finds the content generation unchanged. -/
def skipped : Action BackupReport × Scene (.any portalWorld) := jobFrom 8 .new rotated

section

variable [Sealing] [Snapshots]

theorem JobRuns.performed {x : Scene (.any portalWorld)} (h : JobRuns x) (w : Write)
    (hw : ∀ row, w ≠ .recordBackupSnapshot row) : JobRuns (performed w x) := by
  unfold Metadata.performed
  split
  · next s hok => exact .write h w hok hw
  · exact h

end

theorem jobRuns_withKey : @JobRuns (.any portalWorld) namingOnly countingHash withKey :=
  let _ := namingOnly
  let _ := countingHash
  JobRuns.performed (.new ()) (.access (.insertFirstSigningKey (signingKey 1)))
    fun _ h => nomatch h

theorem steps_jobFrom (job : JobId) (stored : Database) (x : Scene (.any portalWorld)) :
    Steps (@backup namingOnly countingHash [] 0 0) x (jobFrom job stored x).1
      (jobFrom job stored x).2 :=
  steps_advance (faithful_saying _) 100 _ x

theorem jobRuns_rotated : @JobRuns (.any portalWorld) namingOnly countingHash rotated :=
  let _ := namingOnly
  let _ := countingHash
  JobRuns.performed (.job jobRuns_withKey [] 0 0 (steps_jobFrom 7 _ withKey))
    (.access (.rotateSigningKey (signingKey 2))) fun _ h => nomatch h

end Metadata

end DistrHnsw
