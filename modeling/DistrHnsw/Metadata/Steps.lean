import DistrHnsw.Metadata.Record

/-!
# Every write keeps the record

`Clean` is the condition on a write: a commit, of an upload or of a recovered manifest, brings in
nothing that was collected, and recovery blocks a file under a marker only when the file is already
deleted by it.
-/

namespace DistrHnsw

namespace Metadata

namespace Database

variable {db db₁ : Database} {id : FileId}

/-! ## Recovered evidence -/

/-- Linking an upload leaves what a file says of its generation. -/
theorem linkUpload_spec {manifest : DecodedManifest} {hash : ObjectHash} {bytes : Bytes}
    (h : db.linkUpload manifest hash bytes = .ok db₁) :
    Touches db db₁ manifest.fileId ∧ db₁.fileManifests = db.fileManifests ∧
      db₁.fileChunks = db.fileChunks ∧ ∀ file ∈ db₁.files, file.fileId = manifest.fileId →
        ∃ other ∈ db.files, other.fileId = manifest.fileId ∧ file.generation = other.generation ∧
          file.state = other.state ∧ file.manifestHash = other.manifestHash := by
  have hsame : Touches db db manifest.fileId ∧ db.fileManifests = db.fileManifests ∧
      db.fileChunks = db.fileChunks ∧ ∀ file ∈ db.files, file.fileId = manifest.fileId →
        ∃ other ∈ db.files, other.fileId = manifest.fileId ∧ file.generation = other.generation ∧
          file.state = other.state ∧ file.manifestHash = other.manifestHash :=
    ⟨(SameHistory.refl db).touches _, rfl, rfl, fun file hfile hid =>
      ⟨file, hfile, hid, rfl, rfl, rfl⟩⟩
  unfold linkUpload at h
  split at h
  · cases h
    exact hsame
  · next upload _ =>
    split at h
    · cases h
      exact hsame
    · obtain ⟨-, h⟩ := guard_eq_ok.1 h
      cases h
      refine ⟨?_, rfl, rfl, fun file hfile hid => ?_⟩
      · exact ((sameHistory_updateUpload db _ _).touches _).trans
          (touches_updateFile _ fun _ => rfl)
      · obtain ⟨other, hother, hotherId, rfl⟩ := mem_updateFile hfile hid
        exact ⟨other, hother, hotherId, rfl, rfl, rfl⟩

/-- A recovered manifest makes its generation the committed one. -/
theorem applyRecoveredManifest_commits {manifest : DecodedManifest} {hash : ObjectHash}
    {bytes : Bytes} {now : Time} (h : db.applyRecoveredManifest manifest hash bytes now = .ok db₁) :
    Commits db db₁ manifest.fileId manifest.generation hash
      (⟨.manifest, hash⟩ :: (manifest.chunks.map (⟨.chunk, ·.ciphertextHash⟩) ++
        db.recordedAt manifest.fileId manifest.generation)) := by
  unfold applyRecoveredManifest at h
  obtain ⟨_, _, h⟩ := bind_eq_ok.1 h
  obtain ⟨generation, hgen, h⟩ := bind_eq_ok.1 h
  obtain ⟨-, rfl⟩ := toI64_eq_ok.1 hgen
  obtain ⟨_, _, h⟩ := bind_eq_ok.1 h
  obtain ⟨db₂, hinsert, h⟩ := bind_eq_ok.1 h
  obtain ⟨persisted, hpersisted, h⟩ := bind_eq_ok.1 h
  obtain ⟨_, hhash, h⟩ := bind_eq_ok.1 h
  obtain ⟨db₄, hupsert, h⟩ := bind_eq_ok.1 h
  obtain ⟨db₅, hlink, h⟩ := bind_eq_ok.1 h
  cases h
  rw [queryRow_eq_ok] at hpersisted
  rw [ensure_eq_ok, beq_iff_eq] at hhash
  obtain ⟨hmem, hrowId, hrowGen⟩ := manifestAt_some hpersisted
  obtain ⟨rows, hrows, hfold⟩ := foldl_insertFileChunkOrIgnore manifest manifest.chunks db₂
  rw [hfold] at hupsert
  obtain ⟨hup, ⟨files, hfiles⟩, hnew⟩ := upsertFile_spec (by exact fun _ => rfl) hupsert
  obtain ⟨hlinked, hmanifests, hchunks, hrest⟩ := linkUpload_spec hlink
  have hfileId : ∀ row ∈ rows, row.fileId = manifest.fileId := fun row hrow => by
    obtain ⟨chunk, -, rfl⟩ := hrows row hrow
    rfl
  have hinserted : Touches db db₂ manifest.fileId ∧ db₂.fileChunks = db.fileChunks := by
    rcases insertManifestOrIgnore_spec hinsert with rfl | rfl
    · exact ⟨(SameHistory.refl _).touches _, rfl⟩
    · have happended : Touches db { db with
          fileManifests := db.fileManifests ++
            [⟨manifest.fileId, manifest.generation, hash, manifest.info⟩]
          fileChunks := db.fileChunks ++ [] } manifest.fileId :=
        touches_of_appended db [_] [] (by simp)
      rw [List.append_nil] at happended
      exact ⟨happended, rfl⟩
  have hchunked : Touches db₂ { db₂ with fileChunks := db₂.fileChunks ++ rows } manifest.fileId := by
    simpa using touches_of_appended db₂ [] rows hfileId
  exact {
    touches := (((hinserted.1.trans hchunked).trans hup).trans hlinked).thenSame
      ⟨rfl, rfl, rfl, rfl, rfl⟩
    rows := by
      intro file hfile hid
      obtain ⟨other, hother, hotherId, hgen, hstate, hmanifest⟩ := hrest file hfile hid
      rw [hgen, hstate, hmanifest]
      rcases hnew other hother hotherId with rfl | ⟨_, _, _, rfl⟩ <;> exact ⟨rfl, rfl, rfl⟩
    manifest := by
      refine ⟨persisted, ?_, hrowId, hrowGen, hhash⟩
      show persisted ∈ db₅.fileManifests
      rw [hmanifests, hfiles]
      exact hmem
    manifestBrought := by simp
    chunksBrought := by
      intro row hrow hid hgen
      have hrow : row ∈ db₅.fileChunks := hrow
      rw [hchunks, hfiles] at hrow
      refine List.mem_cons_of_mem _ ?_
      rcases List.mem_append.1 hrow with hold | hnew
      · rw [hinserted.2] at hold
        exact List.mem_append_right _ (hid ▸ hgen ▸ mem_recordedAt hold)
      · obtain ⟨chunk, hchunk, rfl⟩ := hrows row hnew
        exact List.mem_append_left _ (List.mem_map.2 ⟨chunk, hchunk, rfl⟩) }

/-- A recovered marker deletes its file. -/
theorem applyRecoveredDeletion_deletes {marker : DeletionMarker} {hash : ObjectHash} {now : Time}
    (h : db.applyRecoveredDeletion marker hash now = .ok db₁) :
    Deletes db db₁ marker.fileId marker.generation hash := by
  unfold applyRecoveredDeletion at h
  obtain ⟨_, _, h⟩ := bind_eq_ok.1 h
  obtain ⟨generation, hgen, h⟩ := bind_eq_ok.1 h
  obtain ⟨-, rfl⟩ := toI64_eq_ok.1 hgen
  obtain ⟨db₂, hinsert, h⟩ := bind_eq_ok.1 h
  obtain ⟨persisted, hpersisted, h⟩ := bind_eq_ok.1 h
  obtain ⟨db₃, hadopt, h⟩ := bind_eq_ok.1 h
  obtain ⟨db₄, hupsert, h⟩ := bind_eq_ok.1 h
  cases h
  rw [queryRow_eq_ok] at hpersisted
  obtain ⟨hinserted, -⟩ := insertMarkerOrIgnore_touches marker.fileId hinsert
  obtain ⟨hup, ⟨files, hfiles⟩, hnew⟩ := upsertFile_spec (by exact fun _ => rfl) hupsert
  obtain ⟨hmem, hrowId, -⟩ := markerAt_some hpersisted
  -- The marker is the persisted one, or takes its place.
  have hadopted : Touches db₂ db₃ marker.fileId ∧
      ∃ row ∈ db₃.deletionMarkers, row.fileId = marker.fileId ∧ row.hash = hash := by
    unfold adoptMarker at hadopt
    split at hadopt
    · next hsame =>
      cases hadopt
      exact ⟨(SameHistory.refl _).touches _, persisted, hmem, hrowId, hsame⟩
    · obtain ⟨_, _, hadopt⟩ := bind_eq_ok.1 hadopt
      obtain ⟨htouch, -, hrow⟩ := updateMarker_touches hadopt hpersisted
      exact ⟨htouch, _, hrow, rfl, rfl⟩
  exact {
    touches := ((hinserted.trans hadopted.1).trans hup).thenSame ⟨rfl, rfl, rfl, rfl, rfl⟩
    rows := by
      intro file hfile hid
      rcases hnew file hfile hid with rfl | ⟨_, _, _, rfl⟩ <;> exact ⟨rfl, rfl, rfl, rfl⟩
    marker := by
      obtain ⟨row, hrow, hrest⟩ := hadopted.2
      refine ⟨row, ?_, hrest⟩
      show row ∈ db₄.deletionMarkers
      rw [hfiles]
      exact hrow }

/-- A blocked file is deleted under the marker it has, or not readable at all. -/
theorem markRecoveryBlocked_spec {generation : ℕ} {deletionHash : Option ObjectHash}
    {issue : String} {now : Time}
    (h : db.markRecoveryBlocked id generation deletionHash issue now = .ok db₁) :
    db₁ = db ∨ Touches db db₁ id ∧ db₁.deletionMarkers = db.deletionMarkers ∧
      ∀ file ∈ db₁.files, file.fileId = id →
        match db.blockedMarker id deletionHash with
        | some hash => file.state = .deleted ∧ file.deletionHash = some hash
        | none => file.state = .recoveryBlocked := by
  unfold markRecoveryBlocked at h
  obtain ⟨generation', _, h⟩ := bind_eq_ok.1 h
  split at h
  · cases h
    exact .inl rfl
  · obtain ⟨db₂, hupsert, h⟩ := bind_eq_ok.1 h
    cases h
    obtain ⟨hup, ⟨files, hfiles⟩, hnew⟩ := upsertFile_spec (by exact fun _ => rfl) hupsert
    refine .inr ⟨hup.thenSame ⟨rfl, rfl, rfl, rfl, rfl⟩, ?_, fun file hfile hid => ?_⟩
    · show db₂.deletionMarkers = db.deletionMarkers
      rw [hfiles]
    · rcases hnew file hfile hid with rfl | ⟨other, _, _, rfl⟩ <;>
        cases db.blockedMarker id deletionHash <;> simp [blockedState]

/-! ## Writes outside the history -/

theorem createUpload_sameHistory {upload : NewUpload} {now : Time}
    (h : db.createUpload upload now = .ok db₁) : SameHistory db db₁ := by
  unfold createUpload at h
  obtain ⟨_, _, h⟩ := bind_eq_ok.1 h
  obtain ⟨db₂, hinsert, h⟩ := bind_eq_ok.1 h
  refine foldlM_ok_induct (P := SameHistory db) (fun db' chunk db'' hsame hchunk => ?_) ?_ h
  · unfold insertUploadChunk at hchunk
    obtain ⟨-, hchunk⟩ := guard_eq_ok.1 hchunk
    obtain ⟨-, hchunk⟩ := guard_eq_ok.1 hchunk
    cases hchunk
    exact hsame.trans ⟨rfl, rfl, rfl, rfl, rfl⟩
  · unfold insertUpload at hinsert
    obtain ⟨-, hinsert⟩ := guard_eq_ok.1 hinsert
    cases hinsert
    exact ⟨rfl, rfl, rfl, rfl, rfl⟩

theorem advanceUpload_sameHistory {upload : UploadId} {next : UploadState}
    (h : db.advanceUpload upload next = .ok db₁) : SameHistory db db₁ := by
  unfold advanceUpload at h
  obtain ⟨row, _, h⟩ := bind_eq_ok.1 h
  obtain ⟨_, _, h⟩ := bind_eq_ok.1 h
  cases h
  exact sameHistory_updateUpload db _ _

theorem setChunkObject_sameHistory {upload : UploadId} {ordinal len : ℕ} {hash : ObjectHash}
    (h : db.setChunkObject upload ordinal hash len = .ok db₁) : SameHistory db db₁ := by
  unfold setChunkObject at h
  obtain ⟨row, _, h⟩ := bind_eq_ok.1 h
  split at h
  · obtain ⟨_, _, h⟩ := bind_eq_ok.1 h
    cases h
    exact .refl db
  · cases h
    exact ⟨rfl, rfl, rfl, rfl, rfl⟩

theorem setManifestPlan_sameHistory {upload : UploadId} {hash : ObjectHash} {bytes : Bytes}
    (h : db.setManifestPlan upload hash bytes = .ok db₁) : SameHistory db db₁ := by
  unfold setManifestPlan at h
  obtain ⟨row, _, h⟩ := bind_eq_ok.1 h
  split at h
  · obtain ⟨existing, _, h⟩ := bind_eq_ok.1 h
    obtain ⟨_, _, h⟩ := bind_eq_ok.1 h
    cases h
    exact .refl db
  · obtain ⟨_, _, h⟩ := bind_eq_ok.1 h
    cases h
    exact sameHistory_updateUpload db _ _

theorem createDeleteOperation_sameHistory {operation : NewDeleteOperation}
    (h : db.createDeleteOperation operation = .ok db₁) : SameHistory db db₁ := by
  unfold createDeleteOperation at h
  split at h
  · cases h
  · obtain ⟨_, _, h⟩ := bind_eq_ok.1 h
    obtain ⟨generation, _, h⟩ := bind_eq_ok.1 h
    obtain ⟨_, _, h⟩ := bind_eq_ok.1 h
    obtain ⟨_, _, h⟩ := bind_eq_ok.1 h
    obtain ⟨_, _, h⟩ := bind_eq_ok.1 h
    obtain ⟨_, _, h⟩ := bind_eq_ok.1 h
    cases h
    exact ⟨rfl, rfl, rfl, rfl, rfl⟩

theorem insertIncarnation_sameHistory {row : Incarnation} (h : db.insertIncarnation row = .ok db₁) :
    SameHistory db db₁ := by
  unfold insertIncarnation at h
  obtain ⟨-, h⟩ := guard_eq_ok.1 h
  cases h
  exact ⟨rfl, rfl, rfl, rfl, rfl⟩

theorem observeAgentIncarnation_sameHistory {agent : AgentTarget} {incarnation : IncarnationId}
    (h : db.observeAgentIncarnation agent incarnation = .ok db₁) : SameHistory db db₁ := by
  unfold observeAgentIncarnation at h
  obtain ⟨_, _, h⟩ := bind_eq_ok.1 h
  split at h
  · split at h
    · cases h
      exact ⟨rfl, rfl, rfl, rfl, rfl⟩
    · have hinsert := insertIncarnation_sameHistory h
      exact ⟨hinsert.files, hinsert.manifests, hinsert.chunks, hinsert.markers, hinsert.proofs⟩
  · obtain ⟨db₂, hinsert, h⟩ := bind_eq_ok.1 h
    cases h
    exact (insertIncarnation_sameHistory hinsert).trans ⟨rfl, rfl, rfl, rfl, rfl⟩

theorem ensurePendingPlacement_sameHistory (db : Database) (object : ObjectId) (agent : AgentTarget)
    (incarnation : IncarnationId) :
    SameHistory db (db.ensurePendingPlacement object agent incarnation) := by
  unfold ensurePendingPlacement
  split <;> exact ⟨rfl, rfl, rfl, rfl, rfl⟩

theorem confirmPlacement_sameHistory {object : ObjectId} {agent : AgentId}
    (h : db.confirmPlacement object agent = .ok db₁) : SameHistory db db₁ := by
  unfold confirmPlacement at h
  split at h
  · cases h
    exact ⟨rfl, rfl, rfl, rfl, rfl⟩
  · cases h

theorem setPlacementState_sameHistory {object : ObjectId} {agent : AgentId} {state : PlacementState}
    (h : db.setPlacementState object agent state = .ok db₁) : SameHistory db db₁ := by
  unfold setPlacementState at h
  split at h
  · cases h
    exact ⟨rfl, rfl, rfl, rfl, rfl⟩
  · cases h

theorem setPlacementVerification_sameHistory {object : ObjectId} {agent : AgentTarget}
    {incarnation : IncarnationId} {state : PlacementState}
    (h : db.setPlacementVerification object agent incarnation state = .ok db₁) :
    SameHistory db db₁ := by
  unfold setPlacementVerification at h
  obtain ⟨-, h⟩ := guard_eq_ok.1 h
  cases h
  exact (ensurePendingPlacement_sameHistory db object agent incarnation).trans
    ⟨rfl, rfl, rfl, rfl, rfl⟩

theorem retireIncarnation_sameHistory {agent : AgentId} (h : db.retireIncarnation agent = .ok db₁) :
    SameHistory db db₁ := by
  unfold retireIncarnation at h
  split at h
  · cases h
  · cases h
    exact ⟨rfl, rfl, rfl, rfl, rfl⟩

theorem createBackupJob_sameHistory {job : JobId} {target : TargetId}
    (h : db.createBackupJob job target = .ok db₁) : SameHistory db db₁ := by
  unfold createBackupJob at h
  obtain ⟨-, h⟩ := guard_eq_ok.1 h
  cases h
  exact ⟨rfl, rfl, rfl, rfl, rfl⟩

theorem finishBackupJob_sameHistory {job : JobId} {status : JobStatus}
    {report : Option BackupReport} (h : db.finishBackupJob job status report = .ok db₁) :
    SameHistory db db₁ := by
  unfold finishBackupJob at h
  obtain ⟨-, h⟩ := guard_eq_ok.1 h
  split at h
  · cases h
    exact ⟨rfl, rfl, rfl, rfl, rfl⟩
  · cases h

theorem recordBackupObject_sameHistory (db : Database) (target : TargetId) (object : ObjectId) :
    SameHistory db (db.recordBackupObject target object) := by
  unfold recordBackupObject
  split <;> exact ⟨rfl, rfl, rfl, rfl, rfl⟩

theorem recordBackupSnapshot_sameHistory {row : BackupSnapshot}
    (h : db.recordBackupSnapshot row = .ok db₁) : SameHistory db db₁ := by
  unfold recordBackupSnapshot at h
  obtain ⟨-, h⟩ := guard_eq_ok.1 h
  cases h
  exact ⟨rfl, rfl, rfl, rfl, rfl⟩

/-! ## Collection proofs -/

/-- A recorded proof is planned under an identifier of its own. -/
theorem recordGcProof_spec {proofId : ProofId} {proof : NewGcProof}
    (h : db.recordGcProof proofId proof = .ok db₁) :
    proofId ∉ db.gcProofs.map (·.proofId) ∧
      db₁ = { db with gcProofs := db.gcProofs ++ [⟨proof, proofId, .planned⟩] } := by
  unfold recordGcProof at h
  obtain ⟨hno, h⟩ := guard_eq_ok.1 h
  cases h
  refine ⟨fun hmem => hno ?_, rfl⟩
  obtain ⟨row, hrow, rfl⟩ := List.mem_map.1 hmem
  exact List.any_eq_true.2 ⟨row, hrow, by simp⟩

/-- New proofs that apply to nothing required and to no marker keep the record. -/
theorem Recorded.withProofs (h : db.Recorded) {proofs : List GcProof}
    (hids : (proofs.map (·.proofId)).Nodup)
    (happlied : ∀ proof ∈ proofs, proof.status = .applied → proof ∈ db.gcProofs ∨
      db.requiredByLiveFile proof.object = false ∧ proof.object.kind ≠ .deletionMarker) :
    Recorded { db with gcProofs := proofs } where
  files := by
    intro file hfile
    obtain ⟨hmanifest, hmarker, hkept⟩ := h.files file hfile
    refine ⟨hmanifest, hmarker, fun object hobject => ?_⟩
    rw [Bool.eq_false_iff, Ne, gcApplied_iff]
    rintro ⟨proof, hproof, rfl, hstatus⟩
    rcases happlied proof hproof hstatus with hold | ⟨hnot, -⟩
    · exact absurd (gcApplied_iff.2 ⟨proof, hold, rfl, hstatus⟩)
        (Bool.eq_false_iff.1 (hkept proof.object hobject))
    · exact absurd (requiredByLiveFile_iff.2 ⟨file, hfile, hobject⟩) (Bool.eq_false_iff.1 hnot)
  fileIds := h.fileIds
  proofIds := hids
  noMarkers := by
    intro proof hproof hstatus
    rcases happlied proof hproof hstatus with hold | ⟨-, hkind⟩
    · exact h.noMarkers proof hold hstatus
    · exact hkind

theorem recordGcProof_recorded {proofId : ProofId} {proof : NewGcProof}
    (h : db.recordGcProof proofId proof = .ok db₁) (hrec : db.Recorded) : db₁.Recorded := by
  obtain ⟨hno, rfl⟩ := recordGcProof_spec h
  refine hrec.withProofs ?_ fun row hrow hstatus => ?_
  · rw [List.map_append]
    refine List.Nodup.append hrec.proofIds (by simp) ?_
    intro x hx hx'
    rw [List.map_singleton, List.mem_singleton] at hx'
    subst hx'
    exact hno hx
  · rcases List.mem_append.1 hrow with hold | hnew
    · exact .inl hold
    · rw [List.mem_singleton.1 hnew] at hstatus
      cases hstatus

theorem finishGcProof_recorded {proofId : ProofId} {status : ProofStatus} (hrec : db.Recorded)
    (hobject : status = .applied → ∀ proof ∈ db.gcProofs, proof.proofId = proofId →
      db.requiredByLiveFile proof.object = false ∧ proof.object.kind ≠ .deletionMarker) :
    (db.finishGcProof proofId status).Recorded := by
  refine hrec.withProofs ?_ fun row hrow hstatus => ?_
  · have heq : (db.gcProofs.map fun proof => if proof.proofId = proofId ∧ proof.status = .planned
        then { proof with status := status } else proof).map (·.proofId) =
          db.gcProofs.map (·.proofId) := by
      rw [List.map_map]
      refine List.map_congr_left fun row _ => ?_
      simp only [Function.comp]
      split <;> rfl
    rw [heq]
    exact hrec.proofIds
  · obtain ⟨old, hold, rfl⟩ := List.mem_map.1 hrow
    by_cases hthis : old.proofId = proofId ∧ old.status = .planned
    · rw [if_pos hthis] at hstatus ⊢
      exact .inr (hobject hstatus old hold hthis.1)
    · rw [if_neg hthis]
      exact .inl hold

end Database

/-! ## The step -/

/-- The objects a write makes required. -/
def Write.brings (db : Database) : Write → List ObjectId
  | .commitFile id _ _ =>
    match db.uploadById id with
    | some upload => if upload.state = .committed then [] else
        db.plannedObjects upload ++ db.recordedAt upload.fileId upload.generation
    | none => []
  | .applyRecoveredManifest manifest hash _ _ =>
    ⟨.manifest, hash⟩ :: (manifest.chunks.map (⟨.chunk, ·.ciphertextHash⟩) ++
      db.recordedAt manifest.fileId manifest.generation)
  | _ => []

/-- The marker a write blocks a file under is the one the file is deleted by. -/
def Write.blocksUnderOwnMarker (db : Database) : Write → Bool
  | .markRecoveryBlocked file _ (some hash) _ _ =>
    (db.fileProjection file).any fun row => row.state == .deleted && row.deletionHash == some hash
  | _ => true

/-- Nothing the write brings in was collected, and no file is blocked under a foreign marker. -/
def Clean (db : Database) (w : Write) : Prop :=
  (∀ object ∈ w.brings db, db.gcApplied object = false) ∧ w.blocksUnderOwnMarker db = true

instance (db : Database) (w : Write) : Decidable (Clean db w) := by unfold Clean; infer_instance

/-- The write leaves the projection, its history and the proofs alone. -/
def Write.OutsideHistory : Write → Prop
  | .commitFile _ _ _ => False
  | .commitDelete _ _ _ => False
  | .applyRecoveredManifest _ _ _ _ => False
  | .applyRecoveredDeletion _ _ _ => False
  | .markRecoveryBlocked _ _ _ _ _ => False
  | .recordGcProof _ _ => False
  | .finishGcProof _ _ => False
  | _ => True

/-- The write applies a collection proof. -/
def Write.appliesProof : Write → Option ProofId
  | .finishGcProof id .applied => some id
  | _ => none

open Database

/-- The marker a file is blocked under is the one it is deleted by. -/
theorem blockedMarker_deleted {db : Database} {file : FileId} {generation : ℕ}
    {deletionHash : Option ObjectHash} {issue : String} {now : Time} {hash : ObjectHash}
    (hown : (Write.markRecoveryBlocked file generation deletionHash issue
      now).blocksUnderOwnMarker db = true) (hmarker : db.blockedMarker file deletionHash = some hash) :
    ∃ row, db.fileProjection file = some row ∧ row.state = .deleted ∧
      row.deletionHash = some hash := by
  cases deletionHash with
  | some given =>
    cases hmarker
    simpa [Write.blocksUnderOwnMarker, Option.any_eq_true] using hown
  | none =>
    simp only [blockedMarker, Option.orElse_none, Option.bind_eq_some_iff,
      Option.filter_eq_some_iff, beq_iff_eq] at hmarker
    obtain ⟨row, ⟨hrow, hstate⟩, hhash⟩ := hmarker
    exact ⟨row, hrow, hstate, hhash⟩

theorem Write.sameHistory {db db₁ : Database} {w : Write} (hok : w.perform db = .ok db₁)
    (hw : w.OutsideHistory) : SameHistory db db₁ := by
  cases w with
  | createUpload upload now => exact createUpload_sameHistory hok
  | advanceUpload upload next => exact advanceUpload_sameHistory hok
  | setChunkObject upload ordinal hash len => exact setChunkObject_sameHistory hok
  | setManifestPlan upload hash bytes => exact setManifestPlan_sameHistory hok
  | createDeleteOperation operation => exact createDeleteOperation_sameHistory hok
  | observeAgentIncarnation agent incarnation => exact observeAgentIncarnation_sameHistory hok
  | confirmPlacement object agent => exact confirmPlacement_sameHistory hok
  | setPlacementState object agent state => exact setPlacementState_sameHistory hok
  | setPlacementVerification object agent incarnation state =>
    exact setPlacementVerification_sameHistory hok
  | retireIncarnation agent => exact retireIncarnation_sameHistory hok
  | createBackupJob id target => exact createBackupJob_sameHistory hok
  | finishBackupJob id status report => exact finishBackupJob_sameHistory hok
  | recordBackupSnapshot row => exact recordBackupSnapshot_sameHistory hok
  | access w =>
    obtain ⟨access, -, h⟩ := bind_eq_ok.1 hok
    cases h
    exact ⟨rfl, rfl, rfl, rfl, rfl⟩
  | ensurePendingPlacement object agent incarnation =>
    cases hok
    exact ensurePendingPlacement_sameHistory db object agent incarnation
  | recordBackupObject target object =>
    cases hok
    exact recordBackupObject_sameHistory db target object
  | clearRecoveryPending =>
    cases hok
    exact ⟨rfl, rfl, rfl, rfl, rfl⟩
  | setRecoveryPending restoredAt =>
    cases hok
    exact ⟨rfl, rfl, rfl, rfl, rfl⟩
  | deletePlacement object agent =>
    cases hok
    exact ⟨rfl, rfl, rfl, rfl, rfl⟩
  | deletePlacements object =>
    cases hok
    exact ⟨rfl, rfl, rfl, rfl, rfl⟩
  | _ => exact hw.elim

/-- A clean write keeps the record, when the proof it applies is of nothing required. -/
theorem recorded_step {db db₁ : Database} {w : Write} (h : db.Recorded) (hclean : Clean db w)
    (hproof : ∀ id, w.appliesProof = some id → ∀ proof ∈ db.gcProofs, proof.proofId = id →
      db.requiredByLiveFile proof.object = false ∧ proof.object.kind ≠ .deletionMarker)
    (hok : w.perform db = .ok db₁) : db₁.Recorded := by
  cases w with
  | commitFile upload minimum now =>
    rcases commitFile_cases hok with rfl | ⟨row, hash, bytes, hrow, hstate, -, hcommits⟩
    · exact h
    · refine hcommits.recorded h ?_
      simpa only [Write.brings, hrow, if_neg hstate] using hclean.1
  | commitDelete operation minimum now =>
    rcases commitDelete_cases hok with rfl | ⟨id, generation, hash, hdeletes⟩
    · exact h
    · exact hdeletes.recorded h
  | applyRecoveredManifest manifest hash bytes now =>
    exact (applyRecoveredManifest_commits hok).recorded h hclean.1
  | applyRecoveredDeletion marker hash now =>
    exact (applyRecoveredDeletion_deletes hok).recorded h
  | markRecoveryBlocked file generation deletionHash issue now =>
    rcases markRecoveryBlocked_spec hok with rfl | ⟨htouches, hmarkers, hrows⟩
    · exact h
    · refine htouches.recorded h fun row hrow hid => ?_
      have hrow := hrows row hrow hid
      cases hmarker : db.blockedMarker file deletionHash with
      | some hash =>
        rw [hmarker] at hrow
        refine fileRecorded_of_deleted h htouches.proofs hrow.1 hrow.2 ?_
        obtain ⟨old, hold, holdState, holdHash⟩ := blockedMarker_deleted hclean.2 hmarker
        obtain ⟨hmem, holdId⟩ := fileProjection_some hold
        rw [hmarkers, hid, ← holdId]
        exact (h.files old hmem).marker holdState hash holdHash
      | none =>
        rw [hmarker] at hrow
        have hcommitted : row.state ≠ .committed := by rw [hrow]; decide
        have hdeleted : row.state ≠ .deleted := by rw [hrow]; decide
        refine ⟨fun hstate => absurd hstate hcommitted, fun hstate => absurd hstate hdeleted, ?_⟩
        rintro ⟨kind, hash⟩ hobject
        cases kind with
        | chunk => exact absurd hobject.1 hcommitted
        | manifest => exact absurd hobject.1 hcommitted
        | deletionMarker => exact absurd hobject.1 hdeleted
  | recordGcProof id proof => exact recordGcProof_recorded hok h
  | finishGcProof id status =>
    cases hok
    refine finishGcProof_recorded h fun hstatus => ?_
    subst hstatus
    exact hproof id rfl
  | _ => exact h.of_sameHistory (Write.sameHistory hok trivial)

end Metadata

end DistrHnsw
