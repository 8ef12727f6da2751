import DistrHnsw.Metadata.Steps

/-!
# What each write leaves alone

Transactions about files, uploads and proofs leave holdings and access alone; writes to holdings
and access leave the other tables alone.
-/

namespace DistrHnsw

namespace Metadata

namespace Database

/-- Only rows of `Tables` may differ. -/
structure OnlyTables (db db' : Database) : Prop where
  holdings : db'.toHoldings = db.toHoldings
  access : db'.toAccess = db.toAccess

variable {db db₁ db₂ : Database}

theorem OnlyTables.refl (db : Database) : OnlyTables db db := ⟨rfl, rfl⟩

theorem OnlyTables.trans (h₁ : OnlyTables db db₁) (h₂ : OnlyTables db₁ db₂) : OnlyTables db db₂ :=
  ⟨h₂.holdings.trans h₁.holdings, h₂.access.trans h₁.access⟩

/-! ## Statements -/

theorem insertFile_only {row : FileRow} (h : db.insertFile row = .ok db₁) : OnlyTables db db₁ := by
  obtain ⟨-, rfl⟩ := insertFile_spec h
  exact ⟨rfl, rfl⟩

theorem upsertFile_only {row : FileRow} {f : FileRow → FileRow} (h : db.upsertFile row f = .ok db₁) :
    OnlyTables db db₁ := by
  unfold upsertFile at h
  obtain ⟨-, h⟩ := guard_eq_ok.1 h
  split at h
  · cases h
    exact ⟨rfl, rfl⟩
  · exact insertFile_only h

theorem insertManifest_only {row : ManifestRow} (h : db.insertManifest row = .ok db₁) :
    OnlyTables db db₁ := by
  rw [insertManifest_spec h]
  exact ⟨rfl, rfl⟩

theorem insertManifestOrIgnore_only {row : ManifestRow}
    (h : db.insertManifestOrIgnore row = .ok db₁) : OnlyTables db db₁ := by
  rcases insertManifestOrIgnore_spec h with rfl | rfl <;> exact ⟨rfl, rfl⟩

theorem insertFileChunks_only {rows : List FileChunkRow}
    (h : rows.foldlM insertFileChunk db = .ok db₁) : OnlyTables db db₁ := by
  rw [foldlM_insertFileChunk h]
  exact ⟨rfl, rfl⟩

theorem insertMarkerOrIgnore_only {row : MarkerRow} (h : db.insertMarkerOrIgnore row = .ok db₁) :
    OnlyTables db db₁ := by
  obtain ⟨-, rows, rfl⟩ := insertMarkerOrIgnore_touches row.fileId h
  exact ⟨rfl, rfl⟩

theorem adoptMarker_only {existing : Option FileRow} {persisted row : MarkerRow}
    (h : db.adoptMarker existing persisted row = .ok db₁) : OnlyTables db db₁ := by
  unfold adoptMarker at h
  split at h
  · cases h
    exact .refl db
  · obtain ⟨_, _, h⟩ := bind_eq_ok.1 h
    unfold updateMarker at h
    obtain ⟨-, h⟩ := guard_eq_ok.1 h
    cases h
    exact ⟨rfl, rfl⟩

theorem linkUpload_only {manifest : DecodedManifest} {hash : ObjectHash} {bytes : Bytes}
    (h : db.linkUpload manifest hash bytes = .ok db₁) : OnlyTables db db₁ := by
  unfold linkUpload at h
  split at h
  · cases h
    exact .refl db
  · split at h
    · cases h
      exact .refl db
    · obtain ⟨-, h⟩ := guard_eq_ok.1 h
      cases h
      exact ⟨rfl, rfl⟩

theorem insertUpload_only {row : UploadRow} (h : db.insertUpload row = .ok db₁) :
    OnlyTables db db₁ := by
  unfold insertUpload at h
  obtain ⟨-, h⟩ := guard_eq_ok.1 h
  cases h
  exact ⟨rfl, rfl⟩

theorem insertUploadChunk_only {upload : UploadId} {chunk : NewChunk}
    (h : db.insertUploadChunk upload chunk = .ok db₁) : OnlyTables db db₁ := by
  unfold insertUploadChunk at h
  obtain ⟨-, h⟩ := guard_eq_ok.1 h
  obtain ⟨-, h⟩ := guard_eq_ok.1 h
  cases h
  exact ⟨rfl, rfl⟩

/-! ## Transactions -/

theorem createUpload_only {upload : NewUpload} {now : Time}
    (h : db.createUpload upload now = .ok db₁) : OnlyTables db db₁ := by
  unfold createUpload at h
  obtain ⟨_, _, h⟩ := bind_eq_ok.1 h
  obtain ⟨db₂, hinsert, h⟩ := bind_eq_ok.1 h
  exact foldlM_ok_induct (P := OnlyTables db) (fun _ _ _ hdb hchunk =>
    hdb.trans (insertUploadChunk_only hchunk)) (insertUpload_only hinsert) h

theorem advanceUpload_only {upload : UploadId} {next : UploadState}
    (h : db.advanceUpload upload next = .ok db₁) : OnlyTables db db₁ := by
  unfold advanceUpload at h
  obtain ⟨row, _, h⟩ := bind_eq_ok.1 h
  obtain ⟨_, _, h⟩ := bind_eq_ok.1 h
  cases h
  exact ⟨rfl, rfl⟩

theorem setChunkObject_only {upload : UploadId} {ordinal len : ℕ} {hash : ObjectHash}
    (h : db.setChunkObject upload ordinal hash len = .ok db₁) : OnlyTables db db₁ := by
  unfold setChunkObject at h
  obtain ⟨row, _, h⟩ := bind_eq_ok.1 h
  split at h
  · obtain ⟨_, _, h⟩ := bind_eq_ok.1 h
    cases h
    exact .refl db
  · cases h
    exact ⟨rfl, rfl⟩

theorem setManifestPlan_only {upload : UploadId} {hash : ObjectHash} {bytes : Bytes}
    (h : db.setManifestPlan upload hash bytes = .ok db₁) : OnlyTables db db₁ := by
  unfold setManifestPlan at h
  obtain ⟨row, _, h⟩ := bind_eq_ok.1 h
  split at h
  · obtain ⟨existing, _, h⟩ := bind_eq_ok.1 h
    obtain ⟨_, _, h⟩ := bind_eq_ok.1 h
    cases h
    exact .refl db
  · obtain ⟨_, _, h⟩ := bind_eq_ok.1 h
    cases h
    exact ⟨rfl, rfl⟩

theorem commitFile_only {upload : UploadId} {minimum : ℕ} {now : Time}
    (h : db.commitFile upload minimum now = .ok db₁) : OnlyTables db db₁ := by
  obtain ⟨row, -, ⟨-, rfl⟩ | ⟨-, _, _, _, -, -, -, -, -, rfl⟩⟩ := commitFile_spec h
  · exact .refl db₁
  · exact ⟨rfl, rfl⟩

theorem createDeleteOperation_only {operation : NewDeleteOperation}
    (h : db.createDeleteOperation operation = .ok db₁) : OnlyTables db db₁ := by
  unfold createDeleteOperation at h
  split at h
  · cases h
  · obtain ⟨_, _, h⟩ := bind_eq_ok.1 h
    obtain ⟨generation, _, h⟩ := bind_eq_ok.1 h
    obtain ⟨_, _, h⟩ := bind_eq_ok.1 h
    obtain ⟨_, _, h⟩ := bind_eq_ok.1 h
    obtain ⟨_, _, h⟩ := bind_eq_ok.1 h
    obtain ⟨_, _, h⟩ := bind_eq_ok.1 h
    cases h
    exact ⟨rfl, rfl⟩

theorem commitDelete_only {operation : OperationId} {minimum : ℕ} {now : Time}
    (h : db.commitDelete operation minimum now = .ok db₁) : OnlyTables db db₁ := by
  obtain ⟨row, -, ⟨-, rfl⟩ | ⟨-, -, _, _, _, -, -, -, hinsert, -, -, rfl⟩⟩ := commitDelete_spec h
  · exact .refl db₁
  · exact (insertMarkerOrIgnore_only hinsert).trans ⟨rfl, rfl⟩

theorem applyRecoveredManifest_only {manifest : DecodedManifest} {hash : ObjectHash}
    {bytes : Bytes} {now : Time} (h : db.applyRecoveredManifest manifest hash bytes now = .ok db₁) :
    OnlyTables db db₁ := by
  unfold applyRecoveredManifest at h
  obtain ⟨_, _, h⟩ := bind_eq_ok.1 h
  obtain ⟨generation, _, h⟩ := bind_eq_ok.1 h
  obtain ⟨_, _, h⟩ := bind_eq_ok.1 h
  obtain ⟨db₂, hinsert, h⟩ := bind_eq_ok.1 h
  obtain ⟨persisted, _, h⟩ := bind_eq_ok.1 h
  obtain ⟨_, _, h⟩ := bind_eq_ok.1 h
  obtain ⟨db₄, hupsert, h⟩ := bind_eq_ok.1 h
  obtain ⟨db₅, hlink, h⟩ := bind_eq_ok.1 h
  cases h
  obtain ⟨rows, -, hfold⟩ := foldl_insertFileChunkOrIgnore manifest manifest.chunks db₂
  rw [hfold] at hupsert
  have hchunks : OnlyTables db₂ { db₂ with fileChunks := db₂.fileChunks ++ rows } := ⟨rfl, rfl⟩
  exact ((insertManifestOrIgnore_only hinsert).trans hchunks).trans
    (((upsertFile_only hupsert).trans (linkUpload_only hlink)).trans ⟨rfl, rfl⟩)

theorem applyRecoveredDeletion_only {marker : DeletionMarker} {hash : ObjectHash} {now : Time}
    (h : db.applyRecoveredDeletion marker hash now = .ok db₁) : OnlyTables db db₁ := by
  unfold applyRecoveredDeletion at h
  obtain ⟨_, _, h⟩ := bind_eq_ok.1 h
  obtain ⟨generation, _, h⟩ := bind_eq_ok.1 h
  obtain ⟨db₂, hinsert, h⟩ := bind_eq_ok.1 h
  obtain ⟨persisted, _, h⟩ := bind_eq_ok.1 h
  obtain ⟨db₃, hadopt, h⟩ := bind_eq_ok.1 h
  obtain ⟨db₄, hupsert, h⟩ := bind_eq_ok.1 h
  cases h
  exact ((insertMarkerOrIgnore_only hinsert).trans (adoptMarker_only hadopt)).trans
    ((upsertFile_only hupsert).trans ⟨rfl, rfl⟩)

theorem markRecoveryBlocked_only {file : FileId} {generation : ℕ}
    {deletionHash : Option ObjectHash} {issue : String} {now : Time}
    (h : db.markRecoveryBlocked file generation deletionHash issue now = .ok db₁) :
    OnlyTables db db₁ := by
  unfold markRecoveryBlocked at h
  obtain ⟨generation', _, h⟩ := bind_eq_ok.1 h
  split at h
  · cases h
    exact .refl db
  · obtain ⟨db₂, hupsert, h⟩ := bind_eq_ok.1 h
    cases h
    exact (upsertFile_only hupsert).trans ⟨rfl, rfl⟩

/-! ## Agents, placements and backups -/

/-- Only incarnations and placements may differ. -/
def OnlyPlaces (db db₁ : Database) : Prop :=
  ∃ incarnations placements,
    db₁ = { db with incarnations := incarnations, placements := placements }

theorem insertIncarnation_places {row : Incarnation} (h : db.insertIncarnation row = .ok db₁) :
    OnlyPlaces db db₁ := by
  unfold insertIncarnation at h
  obtain ⟨-, h⟩ := guard_eq_ok.1 h
  cases h
  exact ⟨_, _, rfl⟩

theorem OnlyPlaces.trans (h₁ : OnlyPlaces db db₁) (h₂ : OnlyPlaces db₁ db₂) : OnlyPlaces db db₂ := by
  obtain ⟨_, _, rfl⟩ := h₁
  obtain ⟨_, _, rfl⟩ := h₂
  exact ⟨_, _, rfl⟩

theorem observeAgentIncarnation_places {agent : AgentTarget} {incarnation : IncarnationId}
    (h : db.observeAgentIncarnation agent incarnation = .ok db₁) : OnlyPlaces db db₁ := by
  have hupdate (id : IncarnationId) (f : Incarnation → Incarnation) :
      OnlyPlaces db (db.updateIncarnation id f) := ⟨_, _, rfl⟩
  unfold observeAgentIncarnation at h
  obtain ⟨_, -, h⟩ := bind_eq_ok.1 h
  split at h
  · split at h
    · cases h
      exact hupdate _ _
    · exact (hupdate _ _).trans (insertIncarnation_places h)
  · obtain ⟨db₂, hinsert, h⟩ := bind_eq_ok.1 h
    cases h
    exact (insertIncarnation_places hinsert).trans ⟨_, _, rfl⟩

theorem retireIncarnation_places {agent : AgentId} (h : db.retireIncarnation agent = .ok db₁) :
    OnlyPlaces db db₁ := by
  unfold retireIncarnation at h
  split at h
  · cases h
  · cases h
    exact ⟨_, _, rfl⟩

theorem updatePlacement_places (db : Database) (object : ObjectId) (agent : AgentId)
    (f : Placement → Placement) : OnlyPlaces db (db.updatePlacement object agent f) := ⟨_, _, rfl⟩

theorem ensurePendingPlacement_places (db : Database) (object : ObjectId) (agent : AgentTarget)
    (incarnation : IncarnationId) :
    OnlyPlaces db (db.ensurePendingPlacement object agent incarnation) := by
  unfold ensurePendingPlacement
  split
  · exact updatePlacement_places db object agent.id _
  · exact ⟨_, _, rfl⟩

theorem confirmPlacement_spec {object : ObjectId} {agent : AgentId}
    (h : db.confirmPlacement object agent = .ok db₁) :
    db₁ = db.updatePlacement object agent fun row => { row with state := .confirmed } := by
  unfold confirmPlacement at h
  split at h
  · cases h
    rfl
  · cases h

theorem setPlacementState_spec {object : ObjectId} {agent : AgentId} {state : PlacementState}
    (h : db.setPlacementState object agent state = .ok db₁) :
    db₁ = db.updatePlacement object agent fun row => { row with state := state } := by
  unfold setPlacementState at h
  split at h
  · cases h
    rfl
  · cases h

theorem setPlacementVerification_spec {object : ObjectId} {agent : AgentTarget}
    {incarnation : IncarnationId} {state : PlacementState}
    (h : db.setPlacementVerification object agent incarnation state = .ok db₁) :
    db₁ = (db.ensurePendingPlacement object agent incarnation).updatePlacement object agent.id
      fun row => { row with state := state } := by
  unfold setPlacementVerification at h
  obtain ⟨-, h⟩ := guard_eq_ok.1 h
  cases h
  rfl

theorem createBackupJob_spec {id : JobId} {target : TargetId}
    (h : db.createBackupJob id target = .ok db₁) :
    db₁ = { db with backupJobs := db.backupJobs ++ [⟨id, target, .running, none⟩] } := by
  unfold createBackupJob at h
  obtain ⟨-, h⟩ := guard_eq_ok.1 h
  cases h
  rfl

theorem finishBackupJob_spec {id : JobId} {status : JobStatus} {report : Option BackupReport}
    (h : db.finishBackupJob id status report = .ok db₁) :
    ∃ jobs, db₁ = { db with backupJobs := jobs } := by
  unfold finishBackupJob at h
  obtain ⟨-, h⟩ := guard_eq_ok.1 h
  split at h
  · cases h
    exact ⟨_, rfl⟩
  · cases h

theorem recordBackupObject_spec (db : Database) (target : TargetId) (object : ObjectId) :
    ∃ objects, db.recordBackupObject target object = { db with backupObjects := objects } := by
  unfold recordBackupObject
  split
  · exact ⟨db.backupObjects, rfl⟩
  · exact ⟨_, rfl⟩

theorem recordBackupSnapshot_spec {row : BackupSnapshot} (h : db.recordBackupSnapshot row = .ok db₁) :
    db₁ = { db with backupSnapshots := db.backupSnapshots ++ [row] } := by
  unfold recordBackupSnapshot at h
  obtain ⟨-, h⟩ := guard_eq_ok.1 h
  cases h
  rfl

end Database

open Database

/-- The write is about where objects are. -/
def Write.AboutPlaces : Write → Prop
  | .observeAgentIncarnation _ _ => True
  | .ensurePendingPlacement _ _ _ => True
  | .confirmPlacement _ _ => True
  | .deletePlacement _ _ => True
  | .deletePlacements _ => True
  | .setPlacementState _ _ _ => True
  | .setPlacementVerification _ _ _ _ => True
  | .retireIncarnation _ => True
  | _ => False

theorem Write.onlyPlaces {db db₁ : Database} {w : Write} (hok : w.perform db = .ok db₁)
    (hw : w.AboutPlaces) : OnlyPlaces db db₁ := by
  cases w with
  | observeAgentIncarnation agent incarnation => exact observeAgentIncarnation_places hok
  | retireIncarnation agent => exact retireIncarnation_places hok
  | ensurePendingPlacement object agent incarnation =>
    cases hok
    exact ensurePendingPlacement_places db object agent incarnation
  | confirmPlacement object agent =>
    rw [confirmPlacement_spec hok]
    exact updatePlacement_places db object agent _
  | setPlacementState object agent state =>
    rw [setPlacementState_spec hok]
    exact updatePlacement_places db object agent _
  | setPlacementVerification object agent incarnation state =>
    rw [setPlacementVerification_spec hok]
    exact (ensurePendingPlacement_places db object agent incarnation).trans
      (updatePlacement_places _ object agent.id _)
  | deletePlacement object agent =>
    cases hok
    exact ⟨_, _, rfl⟩
  | deletePlacements object =>
    cases hok
    exact ⟨_, _, rfl⟩
  | _ => exact hw.elim

/-- The write is about backups. -/
def Write.AboutBackups : Write → Prop
  | .createBackupJob _ _ => True
  | .finishBackupJob _ _ _ => True
  | .recordBackupObject _ _ => True
  | .recordBackupSnapshot _ => True
  | _ => False

/-- Only backup records may differ. -/
def OnlyBackups (db db₁ : Database) : Prop :=
  ∃ jobs objects snapshots, db₁ = { db with
    backupJobs := jobs, backupObjects := objects, backupSnapshots := snapshots }

theorem Write.onlyBackups {db db₁ : Database} {w : Write} (hok : w.perform db = .ok db₁)
    (hw : w.AboutBackups) : OnlyBackups db db₁ := by
  cases w with
  | createBackupJob id target => exact ⟨_, _, _, createBackupJob_spec hok⟩
  | finishBackupJob id status report =>
    obtain ⟨jobs, rfl⟩ := finishBackupJob_spec hok
    exact ⟨_, _, _, rfl⟩
  | recordBackupObject target object =>
    cases hok
    obtain ⟨objects, h⟩ := recordBackupObject_spec db target object
    exact ⟨_, _, _, h⟩
  | recordBackupSnapshot row => exact ⟨_, _, _, recordBackupSnapshot_spec hok⟩
  | _ => exact hw.elim

/-- The write is about agents, placements or backups. -/
def Write.AboutHoldings (w : Write) : Prop := w.AboutPlaces ∨ w.AboutBackups

/-- The write is about keys, joins or identities. -/
def Write.AboutAccess : Write → Prop
  | .access _ => True
  | _ => False

/-- Writes about neither holdings nor access leave both alone. -/
theorem Write.onlyTables {db db₁ : Database} {w : Write} (hok : w.perform db = .ok db₁)
    (hholdings : ¬ w.AboutHoldings) (haccess : ¬ w.AboutAccess) : OnlyTables db db₁ := by
  cases w with
  | createUpload upload now => exact createUpload_only hok
  | advanceUpload upload next => exact advanceUpload_only hok
  | setChunkObject upload ordinal hash len => exact setChunkObject_only hok
  | setManifestPlan upload hash bytes => exact setManifestPlan_only hok
  | commitFile upload minimum now => exact commitFile_only hok
  | createDeleteOperation operation => exact createDeleteOperation_only hok
  | commitDelete operation minimum now => exact commitDelete_only hok
  | applyRecoveredManifest manifest hash bytes now => exact applyRecoveredManifest_only hok
  | applyRecoveredDeletion marker hash now => exact applyRecoveredDeletion_only hok
  | markRecoveryBlocked file generation deletionHash issue now =>
    exact markRecoveryBlocked_only hok
  | clearRecoveryPending =>
    cases hok
    exact ⟨rfl, rfl⟩
  | setRecoveryPending restoredAt =>
    cases hok
    exact ⟨rfl, rfl⟩
  | recordGcProof id proof =>
    obtain ⟨-, rfl⟩ := recordGcProof_spec hok
    exact ⟨rfl, rfl⟩
  | finishGcProof id status =>
    cases hok
    exact ⟨rfl, rfl⟩
  | access w => exact absurd trivial haccess
  | createBackupJob => exact absurd (.inr trivial) hholdings
  | finishBackupJob => exact absurd (.inr trivial) hholdings
  | recordBackupObject => exact absurd (.inr trivial) hholdings
  | recordBackupSnapshot => exact absurd (.inr trivial) hholdings
  | _ => exact absurd (.inl trivial) hholdings

/-- Writes about places or backups leave tables and access alone. -/
theorem Write.AboutHoldings.frame {db db₁ : Database} {w : Write} (hw : w.AboutHoldings)
    (hok : w.perform db = .ok db₁) : db₁.toTables = db.toTables ∧ db₁.toAccess = db.toAccess := by
  rcases hw with hw | hw
  · obtain ⟨_, _, rfl⟩ := Write.onlyPlaces hok hw
    exact ⟨rfl, rfl⟩
  · obtain ⟨_, _, _, rfl⟩ := Write.onlyBackups hok hw
    exact ⟨rfl, rfl⟩

theorem Write.AboutAccess.frame {db db₁ : Database} {w : Write} (hw : w.AboutAccess)
    (hok : w.perform db = .ok db₁) : db₁.toTables = db.toTables ∧ db₁.toHoldings = db.toHoldings := by
  cases w with
  | access w =>
    obtain ⟨access, -, h⟩ := bind_eq_ok.1 hok
    cases h
    exact ⟨rfl, rfl⟩
  | _ => exact hw.elim

/-- Only writes about access change it. -/
theorem Write.access_eq {db db₁ : Database} {w : Write} (hok : w.perform db = .ok db₁)
    (hw : ¬ w.AboutAccess) : db₁.toAccess = db.toAccess := by
  by_cases hholdings : w.AboutHoldings
  · exact (hholdings.frame hok).2
  · exact (Write.onlyTables hok hholdings hw).access

/-- Writes about something else leave agents, placements and backups alone. -/
theorem Write.holdings_eq {db db₁ : Database} {w : Write} (hok : w.perform db = .ok db₁)
    (hw : ¬ w.AboutHoldings) : db₁.toHoldings = db.toHoldings := by
  by_cases haccess : w.AboutAccess
  · exact (haccess.frame hok).2
  · exact (Write.onlyTables hok hw haccess).holdings

/-- Only writes about places change incarnations and placements. -/
theorem Write.places_eq {db db₁ : Database} {w : Write} (hok : w.perform db = .ok db₁)
    (hw : ¬ w.AboutPlaces) :
    db₁.incarnations = db.incarnations ∧ db₁.placements = db.placements := by
  by_cases hbackups : w.AboutBackups
  · obtain ⟨_, _, _, rfl⟩ := Write.onlyBackups hok hbackups
    exact ⟨rfl, rfl⟩
  · have hsame := Write.holdings_eq hok (not_or.2 ⟨hw, hbackups⟩)
    exact ⟨congrArg Holdings.incarnations hsame, congrArg Holdings.placements hsame⟩

end Metadata

end DistrHnsw
