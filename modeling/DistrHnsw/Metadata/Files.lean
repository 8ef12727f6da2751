import DistrHnsw.Lib.Rows
import DistrHnsw.Metadata.Placements
import DistrHnsw.Metadata.PortalRuns

/-!
# The life of a file

Under uploads and deletes a file is planned, committed once by its upload, and deleted once under
one marker.  `view` is what the tables hold of one file, `Life` the stages of it; every write of an
upload or a delete touches the view of one file at most, and moves it on.
-/

namespace DistrHnsw

namespace Metadata

/-- What the tables hold of one file. -/
structure FileView where
  /-- Of each upload of the file, whether it is committed and the ordinals of its chunks. -/
  plans : List (Bool × List ℕ)
  files : List FileRow
  manifests : List ManifestRow
  chunks : List FileChunkRow
  markers : List MarkerRow
  operations : List DeleteOperation

namespace FileView

/-- One file row, one manifest and one row for each chunk of the committed upload. -/
structure Landed (v : FileView) (file : FileRow) : Prop where
  files : v.files = [file]
  manifests : ∃ row, v.manifests = [row]
  plans : v.plans = [(true, v.chunks.map (·.ordinal))]

/-- The stages of a file. -/
inductive Life (v : FileView) : Prop
  | unborn (plans : ∀ plan ∈ v.plans, plan.1 = false) (files : v.files = [])
      (manifests : v.manifests = []) (chunks : v.chunks = []) (markers : v.markers = [])
      (operations : v.operations = [])
  | committed (file : FileRow) (hash : ObjectHash) (landed : v.Landed file)
      (state : file.state = .committed) (markers : v.markers = [])
      (operations : ∀ op ∈ v.operations, op.generation = file.generation + 1 ∧
        op.markerHash = hash ∧ op.state = .replicatingMarker)
  | deleted (file : FileRow) (marker : MarkerRow) (landed : v.Landed file)
      (state : file.state = .deleted) (markers : v.markers = [marker])
      (generation : marker.generation = file.generation)
      (hash : file.deletionHash = some marker.hash)
      (operations : ∀ op ∈ v.operations, op.generation = marker.generation ∧
        op.markerHash = marker.hash)

end FileView

namespace Database

variable {db db₁ : Database} {id : FileId}

/-- The ordinals an upload planned. -/
def ordinals (db : Database) (upload : UploadId) : List ℕ :=
  (db.chunks upload).map (·.ordinal)

def view (db : Database) (id : FileId) : FileView where
  plans := (rowsOf (·.fileId) id db.uploads).map fun upload =>
    (upload.state == .committed, db.ordinals upload.uploadId)
  files := rowsOf (·.fileId) id db.files
  manifests := rowsOf (·.fileId) id db.fileManifests
  chunks := rowsOf (·.fileId) id db.fileChunks
  markers := rowsOf (·.fileId) id db.deletionMarkers
  operations := rowsOf (·.fileId) id db.deleteOperations

/-- Every file is in some stage, keys are unique, and placements are under an incarnation. -/
structure Sound (db : Database) : Prop where
  uploads : db.uploads.Pairwise fun a b =>
    a.uploadId ≠ b.uploadId ∧ a.idempotencyKey ≠ b.idempotencyKey ∧ a.fileId ≠ b.fileId
  plans : db.uploadChunks.Pairwise fun a b => ¬ (a.uploadId = b.uploadId ∧ a.ordinal = b.ordinal)
  operations : db.deleteOperations.Pairwise fun a b =>
    a.operationId ≠ b.operationId ∧ a.idempotencyKey ≠ b.idempotencyKey
  life : ∀ id, (db.view id).Life
  places : OnePlacement db.placements
  located : ∀ row ∈ db.placements, row.incarnationId.isSome

theorem Sound.new : Sound .new where
  uploads := .nil
  plans := .nil
  operations := .nil
  life _ := .unborn (fun _ h => absurd h List.not_mem_nil) rfl rfl rfl rfl rfl
  places := List.nodup_nil
  located _ h := absurd h List.not_mem_nil

/-! ## Keys -/

theorem Sound.upload_unique (h : db.Sound) {a b : UploadRow} (ha : a ∈ db.uploads)
    (hb : b ∈ db.uploads) (hid : a.fileId = b.fileId) : a = b :=
  eq_of_key h.uploads (fun _ _ h => h.2.2) ha hb hid

theorem Sound.upload_unique_key (h : db.Sound) {a b : UploadRow} (ha : a ∈ db.uploads)
    (hb : b ∈ db.uploads) (hkey : a.idempotencyKey = b.idempotencyKey) : a = b :=
  eq_of_key h.uploads (fun _ _ h => h.2.1) ha hb hkey

theorem Sound.upload_unique_id (h : db.Sound) {a b : UploadRow} (ha : a ∈ db.uploads)
    (hb : b ∈ db.uploads) (hid : a.uploadId = b.uploadId) : a = b :=
  eq_of_key h.uploads (fun _ _ h => h.1) ha hb hid

theorem Sound.operation_unique (h : db.Sound) {a b : DeleteOperation} (ha : a ∈ db.deleteOperations)
    (hb : b ∈ db.deleteOperations) (hid : a.operationId = b.operationId) : a = b :=
  eq_of_key h.operations (fun _ _ h => h.1) ha hb hid

theorem Sound.operation_unique_key (h : db.Sound) {a b : DeleteOperation}
    (ha : a ∈ db.deleteOperations) (hb : b ∈ db.deleteOperations)
    (hkey : a.idempotencyKey = b.idempotencyKey) : a = b :=
  eq_of_key h.operations (fun _ _ h => h.2) ha hb hkey

theorem uploadById_some {upload : UploadId} {row : UploadRow} (h : db.uploadById upload = some row) :
    row ∈ db.uploads ∧ row.uploadId = upload :=
  ⟨List.mem_of_find?_eq_some h, by simpa using List.find?_some h⟩

theorem uploadByIdempotency_some {key : IdempotencyKey} {row : UploadRow}
    (h : db.uploadByIdempotency key = some row) : row ∈ db.uploads ∧ row.idempotencyKey = key :=
  ⟨List.mem_of_find?_eq_some h, by simpa using List.find?_some h⟩

theorem deleteOperationById_some {operation : OperationId} {row : DeleteOperation}
    (h : db.deleteOperationById operation = some row) :
    row ∈ db.deleteOperations ∧ row.operationId = operation :=
  ⟨List.mem_of_find?_eq_some h, by simpa using List.find?_some h⟩

theorem deleteByIdempotency_some {key : IdempotencyKey} {row : DeleteOperation}
    (h : db.deleteByIdempotency key = some row) :
    row ∈ db.deleteOperations ∧ row.idempotencyKey = key :=
  ⟨List.mem_of_find?_eq_some h, by simpa using List.find?_some h⟩

theorem Sound.plans_of_upload (h : db.Sound) {row : UploadRow} (hrow : row ∈ db.uploads) :
    (db.view row.fileId).plans = [(row.state == .committed, db.ordinals row.uploadId)] := by
  have hnodup : (db.uploads.map (·.fileId)).Nodup :=
    List.pairwise_map.2 (h.uploads.imp fun {_ _} hab => hab.2.2)
  simp [view, rowsOf_eq_singleton hnodup hrow]

/-! ## Ordinals -/

theorem ordinals_eq (db : Database) (upload : UploadId) :
    db.ordinals upload =
      ((rowsOf (·.uploadId) upload db.uploadChunks).map (·.ordinal)).insertionSort (· ≤ ·) := by
  unfold ordinals chunks rowsOf
  exact List.map_insertionSort _ _ _ _ fun _ _ _ _ => Iff.rfl

theorem Sound.ordinals_nodup (h : db.Sound) (upload : UploadId) : (db.ordinals upload).Nodup := by
  rw [ordinals_eq, (List.perm_insertionSort _ _).nodup_iff]
  refine List.pairwise_map.2 ((h.plans.filter _).imp_of_mem ?_)
  intro a b ha hb hab
  have ha := (mem_rowsOf.1 ha).2
  have hb := (mem_rowsOf.1 hb).2
  exact fun heq => hab ⟨ha.trans hb.symm, heq⟩

/-! ## What the stages say -/

/-- The file of a committed upload has landed. -/
theorem Sound.landed (h : db.Sound) {row : UploadRow} (hrow : row ∈ db.uploads)
    (hstate : row.state = .committed) : ∃ file, (db.view row.fileId).Landed file := by
  cases h.life row.fileId with
  | unborn plans =>
    have hplan := plans (row.state == .committed, db.ordinals row.uploadId) (by
      rw [h.plans_of_upload hrow]
      exact List.mem_singleton_self _)
    rw [hstate] at hplan
    cases hplan
  | committed file hash landed => exact ⟨file, landed⟩
  | deleted file marker landed => exact ⟨file, landed⟩

theorem Sound.one_marker (h : db.Sound) (id : FileId) : (db.view id).markers.length ≤ 1 := by
  cases h.life id with
  | unborn plans files manifests chunks markers operations => simp [markers]
  | committed file hash landed state markers operations => simp [markers]
  | deleted file marker landed state markers generation hash operations => simp [markers]

/-- The marker of a file is that of every operation once one of them is committed. -/
theorem Sound.marker_of_operation (h : db.Sound) {op : DeleteOperation}
    (hop : op ∈ db.deleteOperations) (hstate : op.state = .committed) :
    ∃ marker, (db.view op.fileId).markers = [marker] ∧ marker.generation = op.generation ∧
      marker.hash = op.markerHash := by
  have hmem : op ∈ (db.view op.fileId).operations := mem_rowsOf.2 ⟨hop, rfl⟩
  cases h.life op.fileId with
  | unborn plans files manifests chunks markers operations =>
    rw [operations] at hmem
    exact absurd hmem List.not_mem_nil
  | committed file hash landed state markers operations =>
    obtain ⟨-, -, hpending⟩ := operations op hmem
    rw [hstate] at hpending
    cases hpending
  | deleted file marker landed state markers generation hash operations =>
    obtain ⟨hgen, hhash⟩ := operations op hmem
    exact ⟨marker, markers, hgen.symm, hhash.symm⟩

/-! ## Writes that move no file -/

/-- Unique keys, and every file where it was or in a stage again. -/
theorem Sound.of_view (h : db.Sound) (id : FileId)
    (huploads : db₁.uploads.Pairwise fun a b =>
      a.uploadId ≠ b.uploadId ∧ a.idempotencyKey ≠ b.idempotencyKey ∧ a.fileId ≠ b.fileId)
    (hplans : db₁.uploadChunks.Pairwise fun a b =>
      ¬ (a.uploadId = b.uploadId ∧ a.ordinal = b.ordinal))
    (hoperations : db₁.deleteOperations.Pairwise fun a b =>
      a.operationId ≠ b.operationId ∧ a.idempotencyKey ≠ b.idempotencyKey)
    (hothers : ∀ other, other ≠ id → db₁.view other = db.view other)
    (hlife : (db₁.view id).Life) (hplacements : db₁.placements = db.placements) : db₁.Sound where
  uploads := huploads
  plans := hplans
  operations := hoperations
  life other := by
    by_cases hother : other = id
    · rwa [hother]
    · rw [hothers other hother]
      exact h.life other
  places := hplacements ▸ h.places
  located := hplacements ▸ h.located

/-- Uploads that keep their identity stay apart. -/
theorem Sound.updateUpload_apart (h : db.Sound) {upload : UploadId} {f : UploadRow → UploadRow}
    (hid : ∀ row, (f row).uploadId = row.uploadId ∧ (f row).idempotencyKey = row.idempotencyKey ∧
      (f row).fileId = row.fileId) :
    (db.updateUpload upload f).uploads.Pairwise fun a b =>
      a.uploadId ≠ b.uploadId ∧ a.idempotencyKey ≠ b.idempotencyKey ∧ a.fileId ≠ b.fileId := by
  refine List.pairwise_map.2 (h.uploads.imp fun {a b} hab => ?_)
  have hf (row : UploadRow) : (if row.uploadId = upload then f row else row).uploadId = row.uploadId ∧
      (if row.uploadId = upload then f row else row).idempotencyKey = row.idempotencyKey ∧
      (if row.uploadId = upload then f row else row).fileId = row.fileId := by
    split
    · exact hid row
    · exact ⟨rfl, rfl, rfl⟩
  rw [(hf a).1, (hf a).2.1, (hf a).2.2, (hf b).1, (hf b).2.1, (hf b).2.2]
  exact hab

/-- A change of uploads that keeps their identity and their commitment. -/
theorem Sound.updateUpload (h : db.Sound) {upload : UploadId} {f : UploadRow → UploadRow}
    (hid : ∀ row, (f row).uploadId = row.uploadId ∧ (f row).idempotencyKey = row.idempotencyKey ∧
      (f row).fileId = row.fileId)
    (hstate : ∀ row ∈ db.uploads, row.uploadId = upload →
      ((f row).state = .committed ↔ row.state = .committed)) : (db.updateUpload upload f).Sound where
  uploads := h.updateUpload_apart hid
  plans := h.plans
  operations := h.operations
  life id := by
    have hview : (db.updateUpload upload f).view id = db.view id := by
      unfold view
      congr 1
      unfold Database.updateUpload
      simp only
      rw [rowsOf_map (fun row => by split <;> simp [(hid row).2.2]), List.map_map]
      refine List.map_congr_left fun row hrow => ?_
      show (_, _) = _
      by_cases hthis : row.uploadId = upload
      · have hiff := hstate row (mem_rowsOf.1 hrow).1 hthis
        simp only [if_pos hthis, (hid row).1]
        congr 1
        rw [Bool.eq_iff_iff, beq_iff_eq, beq_iff_eq]
        exact hiff
      · simp only [if_neg hthis]
        rfl
    rw [hview]
    exact h.life id
  places := h.places
  located := h.located

theorem advanceUpload_spec {upload : UploadId}
    (hok : db.advanceUpload upload .replicatingChunks = .ok db₁) :
    ∃ row ∈ db.uploads, row.uploadId = upload ∧ row.state ≠ .committed ∧
      db₁ = db.updateUpload upload fun row => { row with state := .replicatingChunks } := by
  unfold Database.advanceUpload at hok
  obtain ⟨row, hrow, hok⟩ := bind_eq_ok.1 hok
  obtain ⟨_, hpermits, hok⟩ := bind_eq_ok.1 hok
  cases hok
  rw [queryRow_eq_ok] at hrow
  rw [ensure_eq_ok] at hpermits
  obtain ⟨hmem, hid⟩ := uploadById_some hrow
  refine ⟨row, hmem, hid, fun hcommitted => ?_, rfl⟩
  rw [hcommitted] at hpermits
  exact absurd hpermits (by decide)

theorem setManifestPlan_spec {upload : UploadId} {hash : ObjectHash} {bytes : Bytes}
    (hok : db.setManifestPlan upload hash bytes = .ok db₁) :
    ∃ row ∈ db.uploads, row.uploadId = upload ∧ (db₁ = db ∧ row.manifest = some (hash, bytes) ∨
      row.state = .replicatingChunks ∧ db₁ = db.updateUpload upload fun row =>
        { row with manifest := some (hash, bytes), state := .replicatingManifest }) := by
  unfold Database.setManifestPlan at hok
  obtain ⟨row, hrow, hok⟩ := bind_eq_ok.1 hok
  rw [queryRow_eq_ok] at hrow
  obtain ⟨hmem, hid⟩ := uploadById_some hrow
  refine ⟨row, hmem, hid, ?_⟩
  split at hok
  · obtain ⟨existing, hexisting, hok⟩ := bind_eq_ok.1 hok
    obtain ⟨_, hsame, hok⟩ := bind_eq_ok.1 hok
    cases hok
    rw [queryRow_eq_ok] at hexisting
    rw [ensure_eq_ok, beq_iff_eq] at hsame
    exact .inl ⟨rfl, hexisting.trans (congrArg some hsame)⟩
  · obtain ⟨_, hstate, hok⟩ := bind_eq_ok.1 hok
    cases hok
    rw [ensure_eq_ok, beq_iff_eq] at hstate
    exact .inr ⟨hstate, rfl⟩

/-- A change of the one upload that is not committed, to a state that is not either. -/
theorem Sound.updatePending (h : db.Sound) {row : UploadRow} (hrow : row ∈ db.uploads)
    (hstate : row.state ≠ .committed) {f : UploadRow → UploadRow}
    (hid : ∀ row, (f row).uploadId = row.uploadId ∧ (f row).idempotencyKey = row.idempotencyKey ∧
      (f row).fileId = row.fileId)
    (hnot : (f row).state ≠ .committed) : (db.updateUpload row.uploadId f).Sound := by
  refine h.updateUpload hid fun other hother hsame => ?_
  rw [h.upload_unique_id hother hrow hsame]
  exact ⟨fun hnew => absurd hnew hnot, fun hold => absurd hold hstate⟩

theorem Sound.advanceUpload (h : db.Sound) {upload : UploadId}
    (hok : db.advanceUpload upload .replicatingChunks = .ok db₁) : db₁.Sound := by
  obtain ⟨row, hmem, rfl, hstate, rfl⟩ := advanceUpload_spec hok
  exact h.updatePending hmem hstate (by exact fun _ => ⟨rfl, rfl, rfl⟩) fun hnew => nomatch hnew

theorem Sound.setManifestPlan (h : db.Sound) {upload : UploadId} {hash : ObjectHash} {bytes : Bytes}
    (hok : db.setManifestPlan upload hash bytes = .ok db₁) : db₁.Sound := by
  obtain ⟨row, hmem, rfl, ⟨rfl, -⟩ | ⟨hstate, rfl⟩⟩ := setManifestPlan_spec hok
  · exact h
  · exact h.updatePending hmem (by rw [hstate]; decide) (by exact fun _ => ⟨rfl, rfl, rfl⟩)
      fun hnew => nomatch hnew

theorem Sound.setChunkObject (h : db.Sound) {upload : UploadId} {ordinal len : ℕ} {hash : ObjectHash}
    (hok : db.setChunkObject upload ordinal hash len = .ok db₁) : db₁.Sound := by
  unfold Database.setChunkObject at hok
  obtain ⟨row, -, hok⟩ := bind_eq_ok.1 hok
  split at hok
  · obtain ⟨_, -, hok⟩ := bind_eq_ok.1 hok
    cases hok
    exact h
  · cases hok
    let f (row : UploadChunkRow) : UploadChunkRow :=
      if row.uploadId = upload ∧ row.ordinal = ordinal then { row with object := some (hash, len) }
      else row
    have hf (row : UploadChunkRow) : (f row).uploadId = row.uploadId ∧ (f row).ordinal = row.ordinal := by
      show (ite _ _ _ : UploadChunkRow).uploadId = _ ∧ (ite _ _ _ : UploadChunkRow).ordinal = _
      split <;> exact ⟨rfl, rfl⟩
    have hordinals (other : UploadId) :
        Database.ordinals { db with uploadChunks := db.uploadChunks.map f } other =
          db.ordinals other := by
      simp only [ordinals_eq]
      rw [rowsOf_map fun row => (hf row).1, List.map_map]
      exact congrArg _ (List.map_congr_left fun row _ => (hf row).2)
    have hview (id : FileId) :
        Database.view { db with uploadChunks := db.uploadChunks.map f } id = db.view id := by
      simp only [view, hordinals]
    exact {
      uploads := h.uploads
      plans := List.pairwise_map.2 (h.plans.imp fun {a b} hab => by
        rwa [(hf a).1, (hf a).2, (hf b).1, (hf b).2])
      operations := h.operations
      life := fun id => by
        show (Database.view { db with uploadChunks := db.uploadChunks.map f } id).Life
        rw [hview id]
        exact h.life id
      places := h.places
      located := h.located }

/-! ## Writes that move one file -/

theorem insertUploadChunk_spec {upload : UploadId} {chunk : NewChunk}
    (h : db.insertUploadChunk upload chunk = .ok db₁) :
    ∃ row : UploadChunkRow, row.uploadId = upload ∧
      (∀ other ∈ db.uploadChunks, ¬ (other.uploadId = upload ∧ other.ordinal = row.ordinal)) ∧
      db₁ = { db with uploadChunks := db.uploadChunks ++ [row] } := by
  unfold insertUploadChunk at h
  obtain ⟨-, h⟩ := guard_eq_ok.1 h
  obtain ⟨hno, h⟩ := guard_eq_ok.1 h
  cases h
  refine ⟨_, rfl, fun other hother hsame => hno (List.any_eq_true.2 ⟨other, hother, ?_⟩), rfl⟩
  simp [hsame.1, hsame.2]

theorem insertUpload_spec {row : UploadRow} (h : db.insertUpload row = .ok db₁) :
    (∀ other ∈ db.uploads, other.uploadId ≠ row.uploadId ∧
      other.idempotencyKey ≠ row.idempotencyKey ∧ other.fileId ≠ row.fileId) ∧
      db₁ = { db with uploads := db.uploads ++ [row] } := by
  unfold insertUpload at h
  obtain ⟨hno, h⟩ := guard_eq_ok.1 h
  cases h
  refine ⟨fun other hother => ?_, rfl⟩
  have hother := fun hsame => hno (List.any_eq_true.2 ⟨other, hother, hsame⟩)
  simp only [Bool.or_eq_true, beq_iff_eq] at hother
  exact ⟨fun h => hother (.inl (.inl h)), fun h => hother (.inl (.inr h)), fun h => hother (.inr h)⟩

/-- The plan of an upload whose identifier no chunk has yet. -/
theorem createUpload_spec {upload : NewUpload} {now : Time}
    (hplans : db.uploadChunks.Pairwise fun a b =>
      ¬ (a.uploadId = b.uploadId ∧ a.ordinal = b.ordinal))
    (h : db.createUpload upload now = .ok db₁) :
    ∃ chunks : List UploadChunkRow, (∀ row ∈ chunks, row.uploadId = upload.uploadId) ∧
      (db.uploadChunks ++ chunks).Pairwise (fun a b =>
        ¬ (a.uploadId = b.uploadId ∧ a.ordinal = b.ordinal)) ∧
      (∀ other ∈ db.uploads, other.uploadId ≠ upload.uploadId ∧
        other.idempotencyKey ≠ upload.idempotencyKey ∧ other.fileId ≠ upload.fileId) ∧
      db₁ = { db with
        uploads := db.uploads ++ [⟨upload.uploadId, upload.idempotencyKey,
          upload.requestFingerprint, upload.fileId, upload.info, .staging, 1, none, now⟩]
        uploadChunks := db.uploadChunks ++ chunks } := by
  unfold Database.createUpload at h
  obtain ⟨_, -, h⟩ := bind_eq_ok.1 h
  obtain ⟨db₂, hinsert, h⟩ := bind_eq_ok.1 h
  obtain ⟨hfresh, rfl⟩ := insertUpload_spec hinsert
  let row : UploadRow := ⟨upload.uploadId, upload.idempotencyKey, upload.requestFingerprint,
    upload.fileId, upload.info, .staging, 1, none, now⟩
  suffices hfold : ∃ chunks : List UploadChunkRow, (∀ row ∈ chunks, row.uploadId = upload.uploadId) ∧
      (db.uploadChunks ++ chunks).Pairwise (fun a b =>
        ¬ (a.uploadId = b.uploadId ∧ a.ordinal = b.ordinal)) ∧
      db₁ = { db with uploads := db.uploads ++ [row], uploadChunks := db.uploadChunks ++ chunks } by
    obtain ⟨chunks, hids, hapart, heq⟩ := hfold
    exact ⟨chunks, hids, hapart, hfresh, heq⟩
  refine foldlM_ok_induct (P := fun db' => ∃ chunks : List UploadChunkRow,
      (∀ row ∈ chunks, row.uploadId = upload.uploadId) ∧
      (db.uploadChunks ++ chunks).Pairwise (fun a b =>
        ¬ (a.uploadId = b.uploadId ∧ a.ordinal = b.ordinal)) ∧
      db' = { db with uploads := db.uploads ++ [row], uploadChunks := db.uploadChunks ++ chunks })
    (fun db' chunk db'' hdb hchunk => ?_) ?_ h
  · obtain ⟨chunks, hids, hapart, rfl⟩ := hdb
    obtain ⟨new, hnew, hno, rfl⟩ := insertUploadChunk_spec hchunk
    refine ⟨chunks ++ [new], fun row hrow => ?_, ?_, by simp⟩
    · rcases List.mem_append.1 hrow with hrow | hrow
      · exact hids row hrow
      · rw [List.mem_singleton.1 hrow, hnew]
    · rw [← List.append_assoc, List.pairwise_append]
      refine ⟨hapart, List.pairwise_singleton _ _, fun a ha b hb hsame => ?_⟩
      rw [List.mem_singleton.1 hb, hnew] at hsame
      exact hno a ha hsame
  · exact ⟨[], by simp, by simpa using hplans, by simp [row]⟩

theorem Sound.createUpload (h : db.Sound) {upload : NewUpload} {now : Time}
    (hok : db.createUpload upload now = .ok db₁) : db₁.Sound := by
  obtain ⟨chunks, hids, hapart, hfresh, rfl⟩ := createUpload_spec h.plans hok
  -- No upload there was had chunks under the new identifier.
  have hordinals (row : UploadRow) (hrow : row ∈ db.uploads) :
      Database.ordinals { db with uploadChunks := db.uploadChunks ++ chunks } row.uploadId =
        db.ordinals row.uploadId := by
    simp only [ordinals_eq]
    rw [rowsOf_append_of_ne fun chunk hchunk heq => ?_]
    exact (hfresh row hrow).1 ((hids chunk hchunk).symm.trans heq).symm
  have hplans (id : FileId) : (rowsOf (·.fileId) id db.uploads).map (fun row =>
      (row.state == .committed, Database.ordinals { db with
        uploadChunks := db.uploadChunks ++ chunks } row.uploadId)) = (db.view id).plans :=
    List.map_congr_left fun row hrow => by rw [hordinals row (mem_rowsOf.1 hrow).1]
  refine h.of_view upload.fileId ?_ hapart h.operations (fun other hother => ?_) ?_ rfl
  · refine List.pairwise_append.2 ⟨h.uploads, List.pairwise_singleton _ _, fun a ha b hb => ?_⟩
    rw [List.mem_singleton.1 hb]
    exact hfresh a ha
  · unfold view
    congr 1
    dsimp only
    rw [rowsOf_append_of_ne fun row hrow heq => ?_]
    · exact hplans other
    · rw [List.mem_singleton.1 hrow] at heq
      exact hother heq.symm
  · have hnone : rowsOf (·.fileId) upload.fileId db.uploads = [] :=
      rowsOf_eq_nil.2 fun row hrow => (hfresh row hrow).2.2
    have hplan : (db.view upload.fileId).plans = [] := by simp [view, hnone]
    -- A file without an upload is not born.
    cases h.life upload.fileId with
    | unborn plans files manifests chunks' markers operations =>
      refine .unborn (fun plan hmem => ?_) files manifests chunks' markers operations
      simp only [view, rowsOf_append, hnone, List.nil_append, List.mem_map] at hmem
      obtain ⟨row, hrow, rfl⟩ := hmem
      rw [List.mem_singleton.1 (mem_rowsOf.1 hrow).1]
      rfl
    | committed file hash landed =>
      rw [landed.plans] at hplan
      cases hplan
    | deleted file marker landed =>
      rw [landed.plans] at hplan
      cases hplan

/-- The rows of a commit have the file, the generation and the ordinals of the plan. -/
theorem committedChunk_rows {upload : UploadRow} {plan : List UploadChunkRow}
    {rows : List FileChunkRow} (h : plan.mapM (committedChunk upload) = .ok rows) :
    rows.map (·.ordinal) = plan.map (·.ordinal) ∧ ∀ row ∈ rows, row.fileId = upload.fileId := by
  induction plan generalizing rows with
  | nil =>
    cases h
    exact ⟨rfl, fun _ h => absurd h List.not_mem_nil⟩
  | cons chunk plan ih =>
    rw [List.mapM_cons] at h
    obtain ⟨row, hrow, h⟩ := bind_eq_ok.1 h
    obtain ⟨rest, hrest, h⟩ := bind_eq_ok.1 h
    cases h
    obtain ⟨hordinals, hfile⟩ := ih hrest
    have hone : row.ordinal = chunk.ordinal ∧ row.fileId = upload.fileId := by
      unfold committedChunk at hrow
      split at hrow <;> cases hrow
      exact ⟨rfl, rfl⟩
    refine ⟨by rw [List.map_cons, List.map_cons, hone.1, hordinals], fun other hother => ?_⟩
    rcases List.mem_cons.1 hother with rfl | hother
    · exact hone.2
    · exact hfile other hother

/-- A file without rows is not born. -/
theorem Sound.unborn (h : db.Sound) (hno : ∀ other ∈ db.files, other.fileId ≠ id) :
    (db.view id).files = [] ∧ (db.view id).manifests = [] ∧ (db.view id).chunks = [] ∧
      (db.view id).markers = [] ∧ (db.view id).operations = [] := by
  have hnone : (db.view id).files = [] := rowsOf_eq_nil.2 hno
  cases h.life id with
  | unborn plans files manifests chunks markers operations =>
    exact ⟨files, manifests, chunks, markers, operations⟩
  | committed file hash landed =>
    rw [landed.files] at hnone
    cases hnone
  | deleted file marker landed =>
    rw [landed.files] at hnone
    cases hnone

/-- The uploads once one of them is committed. -/
theorem plans_committed (h : db.Sound) {row : UploadRow} (hrow : row ∈ db.uploads)
    (f : UploadRow → UploadRow) (hf : ∀ row, (f row).fileId = row.fileId)
    (hf' : ∀ row, (f row).uploadId = row.uploadId) (hstate : (f row).state = .committed)
    (other : FileId) :
    ((rowsOf (·.fileId) other (db.updateUpload row.uploadId f).uploads).map fun upload =>
        (upload.state == .committed, db.ordinals upload.uploadId)) =
      if other = row.fileId then [(true, db.ordinals row.uploadId)] else (db.view other).plans := by
  have hkeys (upload : UploadRow) :
      (if upload.uploadId = row.uploadId then f upload else upload).fileId = upload.fileId := by
    split
    · exact hf upload
    · rfl
  unfold Database.updateUpload
  dsimp only
  split
  · next heq =>
    rw [heq, rowsOf_map hkeys]
    have hnodup : (db.uploads.map (·.fileId)).Nodup :=
      List.pairwise_map.2 (h.uploads.imp fun {_ _} hab => hab.2.2)
    simp [rowsOf_eq_singleton hnodup hrow, hf', hstate]
  · next hne =>
    rw [rowsOf_map_eq hkeys fun upload hupload hid => if_neg fun hsame => hne ?_]
    · rfl
    · rw [← hid, h.upload_unique_id hupload hrow hsame]

theorem Sound.commitFile (h : db.Sound) {upload : UploadId} {minimum : ℕ} {now : Time}
    (hok : db.commitFile upload minimum now = .ok db₁) : db₁.Sound := by
  obtain ⟨row, hrow, ⟨-, rfl⟩ | ⟨hstate, hash, bytes, rows, -, -, -, hrows, hno, rfl⟩⟩ :=
    commitFile_spec hok
  · exact h
  obtain ⟨hmem, rfl⟩ := uploadById_some hrow
  obtain ⟨hordinals, hfileIds⟩ := committedChunk_rows hrows
  have hplans := plans_committed h hmem (fun upload => { upload with state := .committed })
    (fun _ => rfl) (fun _ => rfl) rfl
  refine h.of_view row.fileId (h.updateUpload_apart (by exact fun _ => ⟨rfl, rfl, rfl⟩))
    h.plans h.operations (fun other hother => ?_) ?_ rfl
  · unfold view
    congr 1
    · exact (hplans other).trans (if_neg hother)
    · exact rowsOf_append_of_ne fun file hfile => by
        rw [List.mem_singleton.1 hfile]
        exact hother.symm
    · exact rowsOf_append_of_ne fun manifest hmanifest => by
        rw [List.mem_singleton.1 hmanifest]
        exact hother.symm
    · exact rowsOf_append_of_ne fun chunk hchunk heq => hother (heq.symm.trans (hfileIds chunk hchunk))
  · obtain ⟨hfiles, hmanifests, hchunks, hmarkers, hoperations⟩ := h.unborn hno
    let file : FileRow := ⟨row.fileId, row.generation, .committed, some row.info,
      some hash, none, some row.uploadId, none, now⟩
    have hfile : rowsOf FileRow.fileId row.fileId (db.files ++ [file]) = [file] := by
      rw [rowsOf_append, @rowsOf_all _ _ _ _ _ [file] (by simp [file])]
      exact congrArg (· ++ [file]) hfiles
    have hmanifest : rowsOf ManifestRow.fileId row.fileId (db.fileManifests ++
        [⟨row.fileId, row.generation, hash, row.info⟩]) =
          [⟨row.fileId, row.generation, hash, row.info⟩] := by
      rw [rowsOf_append, @rowsOf_all _ _ _ _ _ [_] (by simp)]
      exact congrArg (· ++ [_]) hmanifests
    have hchunk : rowsOf FileChunkRow.fileId row.fileId (db.fileChunks ++ rows) = rows := by
      rw [rowsOf_append, rowsOf_all hfileIds]
      exact congrArg (· ++ rows) hchunks
    refine .committed file 0 ⟨hfile, ⟨_, hmanifest⟩, ?_⟩ rfl hmarkers fun op hop => ?_
    · refine ((hplans row.fileId).trans (if_pos rfl)).trans ?_
      exact congrArg (fun ordinals => [(true, ordinals)])
        (hordinals.symm.trans (congrArg (List.map _) hchunk.symm))
    · exact absurd (hoperations ▸ hop) List.not_mem_nil

theorem createDeleteOperation_spec {operation : NewDeleteOperation}
    (h : db.createDeleteOperation operation = .ok db₁) :
    ∃ projection, db.fileProjection operation.fileId = some projection ∧
      projection.state = .committed ∧ operation.generation = projection.generation + 1 ∧
      (∀ other ∈ db.deleteOperations, other.fileId = operation.fileId →
        other.generation = operation.generation → other.markerHash = operation.markerHash) ∧
      (∀ other ∈ db.deleteOperations, other.operationId ≠ operation.operationId ∧
        other.idempotencyKey ≠ operation.idempotencyKey) ∧
      db₁ = { db with deleteOperations := db.deleteOperations ++
        [⟨operation.operationId, operation.idempotencyKey, operation.fileId, operation.generation,
          operation.deletedAt, operation.markerHash, operation.markerBytes,
          .replicatingMarker⟩] } := by
  unfold createDeleteOperation at h
  cases hprojection : db.fileProjection operation.fileId with
  | none =>
    rw [hprojection] at h
    cases h
  | some projection =>
    simp only [hprojection] at h
    obtain ⟨_, hstate, h⟩ := bind_eq_ok.1 h
    obtain ⟨generation, hnext, h⟩ := bind_eq_ok.1 h
    obtain ⟨_, hgen, h⟩ := bind_eq_ok.1 h
    obtain ⟨_, -, h⟩ := bind_eq_ok.1 h
    obtain ⟨_, hmarkers, h⟩ := bind_eq_ok.1 h
    obtain ⟨_, hkeys, h⟩ := bind_eq_ok.1 h
    cases h
    rw [ensure_eq_ok, beq_iff_eq] at hstate hgen
    rw [ensure_eq_ok, List.all_eq_true] at hmarkers hkeys
    have hnext : generation = projection.generation + 1 := by
      unfold nextGeneration at hnext
      split at hnext <;> cases hnext
      rfl
    refine ⟨projection, rfl, hstate, hgen.symm.trans hnext, ?_, ?_, rfl⟩
    · intro other hother hfile hgeneration
      simpa [hfile, hgeneration] using hmarkers other hother
    · intro other hother
      simpa using hkeys other hother

theorem Sound.createDeleteOperation (h : db.Sound) {operation : NewDeleteOperation}
    (hok : db.createDeleteOperation operation = .ok db₁) : db₁.Sound := by
  obtain ⟨projection, hprojection, hstate, hgen, hmarkers, hkeys, rfl⟩ :=
    createDeleteOperation_spec hok
  obtain ⟨hmem, hid⟩ := fileProjection_some hprojection
  refine h.of_view operation.fileId h.uploads h.plans ?_ (fun other hother => ?_) ?_ rfl
  · refine List.pairwise_append.2 ⟨h.operations, List.pairwise_singleton _ _, fun a ha b hb => ?_⟩
    rw [List.mem_singleton.1 hb]
    exact hkeys a ha
  · unfold view
    congr 1
    refine rowsOf_append_of_ne fun op hop => ?_
    rw [List.mem_singleton.1 hop]
    exact hother.symm
  · have hfile : projection ∈ (db.view operation.fileId).files := mem_rowsOf.2 ⟨hmem, hid⟩
    cases h.life operation.fileId with
    | unborn plans files =>
      rw [files] at hfile
      exact absurd hfile List.not_mem_nil
    | committed file hash landed state markers operations =>
      rw [landed.files, List.mem_singleton] at hfile
      subst hfile
      refine .committed projection operation.markerHash ⟨landed.files, landed.manifests, landed.plans⟩
        state markers fun op hop => ?_
      obtain ⟨hop, hopId⟩ := mem_rowsOf.1 hop
      rcases List.mem_append.1 hop with hold | hnew
      · obtain ⟨hgeneration, -, hpending⟩ := operations op (mem_rowsOf.2 ⟨hold, hopId⟩)
        exact ⟨hgeneration, hmarkers op hold hopId (hgeneration.trans hgen.symm), hpending⟩
      · rw [List.mem_singleton.1 hnew]
        exact ⟨hgen, rfl, rfl⟩
    | deleted file marker landed state =>
      rw [landed.files, List.mem_singleton] at hfile
      subst hfile
      rw [hstate] at state
      cases state

/-- A marker inserted for a generation of a file is appended, when there was none. -/
theorem insertMarkerOrIgnore_spec {row : MarkerRow} (h : db.insertMarkerOrIgnore row = .ok db₁) :
    (∃ old ∈ rowsOf (·.fileId) row.fileId db.deletionMarkers, old.generation = row.generation) ∧
        db₁ = db ∨
      (∀ old ∈ rowsOf (·.fileId) row.fileId db.deletionMarkers, old.generation ≠ row.generation) ∧
        db₁ = { db with deletionMarkers := db.deletionMarkers ++ [row] } := by
  unfold insertMarkerOrIgnore at h
  obtain ⟨-, h⟩ := guard_eq_ok.1 h
  split at h
  · next hsome =>
    cases h
    obtain ⟨old, hold⟩ := Option.isSome_iff_exists.1 hsome
    obtain ⟨hmem, hid, hgen⟩ := markerAt_some hold
    exact .inl ⟨⟨old, mem_rowsOf.2 ⟨hmem, hid⟩, hgen⟩, rfl⟩
  · next hnone =>
    obtain ⟨-, h⟩ := guard_eq_ok.1 h
    cases h
    refine .inr ⟨fun old hold hgen => hnone ?_, rfl⟩
    obtain ⟨hmem, hid⟩ := mem_rowsOf.1 hold
    exact List.find?_isSome.2 ⟨old, hmem, by simp [hid, hgen]⟩

theorem Sound.commitDelete (h : db.Sound) {operation : OperationId} {minimum : ℕ} {now : Time}
    (hok : db.commitDelete operation minimum now = .ok db₁) : db₁.Sound := by
  obtain ⟨row, hrow, ⟨-, rfl⟩ | ⟨-, -, projection, db₂, marker, hprojection, -, hsame, hinsert,
    hmarker, hhash, rfl⟩⟩ := commitDelete_spec hok
  · exact h
  obtain ⟨hmem, rfl⟩ := deleteOperationById_some hrow
  obtain ⟨hprojMem, hprojId⟩ := fileProjection_some hprojection
  let finish (op : DeleteOperation) : DeleteOperation :=
    if op.operationId = row.operationId then { op with state := .committed } else op
  have hfinish (op : DeleteOperation) : (finish op).fileId = op.fileId ∧
      (finish op).generation = op.generation ∧ (finish op).markerHash = op.markerHash ∧
      (finish op).operationId = op.operationId ∧ (finish op).idempotencyKey = op.idempotencyKey := by
    show (ite _ _ _ : DeleteOperation).fileId = _ ∧ _
    simp only [finish]
    split <;> exact ⟨rfl, rfl, rfl, rfl, rfl⟩
  let remove (file : FileRow) : FileRow := { file with
    generation := row.generation, state := .deleted, deletionHash := some row.markerHash,
    deletedAt := some row.deletedAt, updatedAt := now }
  let new : MarkerRow := ⟨row.fileId, row.generation, row.markerHash, row.deletedAt⟩
  obtain ⟨markers, hmarkers, heq⟩ : ∃ markers,
      ((∃ old ∈ (db.view row.fileId).markers, old.generation = row.generation) ∧
          markers = db.deletionMarkers ∨
        (∀ old ∈ (db.view row.fileId).markers, old.generation ≠ row.generation) ∧
          markers = db.deletionMarkers ++ [new]) ∧
      db₂ = { db with deletionMarkers := markers } := by
    rcases insertMarkerOrIgnore_spec hinsert with ⟨hold, rfl⟩ | ⟨hnone, rfl⟩
    · exact ⟨_, .inl ⟨hold, rfl⟩, rfl⟩
    · exact ⟨_, .inr ⟨hnone, rfl⟩, rfl⟩
  subst heq
  have hfiles (other : FileId) := @rowsOf_update _ _ _ FileRow.fileId other row.fileId
    db.files remove fun _ => rfl
  refine h.of_view row.fileId h.uploads h.plans ?_ (fun other hother => ?_) ?_ rfl
  · refine List.pairwise_map.2 (h.operations.imp fun {a b} hab => ?_)
    show (finish a).operationId ≠ (finish b).operationId ∧ _
    rw [(hfinish a).2.2.2.1, (hfinish b).2.2.2.1]
    refine ⟨hab.1, ?_⟩
    show (finish a).idempotencyKey ≠ (finish b).idempotencyKey
    rw [(hfinish a).2.2.2.2, (hfinish b).2.2.2.2]
    exact hab.2
  · unfold view
    congr 1
    · exact (hfiles other).trans (if_neg hother)
    · rcases hmarkers with ⟨-, rfl⟩ | ⟨-, rfl⟩
      · rfl
      · exact rowsOf_append_of_ne fun marker hmarker => by
          rw [List.mem_singleton.1 hmarker]
          exact hother.symm
    · refine rowsOf_map_eq (fun op => (hfinish op).1) fun op hop hid => if_neg fun hsame => ?_
      exact hother (hid.symm.trans (congrArg _ (h.operation_unique hop hmem hsame)))
  · have hop : row ∈ (db.view row.fileId).operations := mem_rowsOf.2 ⟨hmem, rfl⟩
    have hoperations (op : DeleteOperation)
        (hop : op ∈ rowsOf DeleteOperation.fileId row.fileId (db.deleteOperations.map finish)) :
        ∃ old ∈ (db.view row.fileId).operations, op.generation = old.generation ∧
          op.markerHash = old.markerHash := by
      rw [rowsOf_map fun op => (hfinish op).1] at hop
      obtain ⟨old, hold, rfl⟩ := List.mem_map.1 hop
      exact ⟨old, hold, (hfinish old).2.1, (hfinish old).2.2.1⟩
    have hremoved (file : FileRow) (hfile : (db.view row.fileId).files = [file]) :
        rowsOf FileRow.fileId row.fileId (db.files.map fun file =>
          if file.fileId = row.fileId then remove file else file) = [remove file] := by
      rw [hfiles row.fileId, if_pos rfl]
      exact congrArg (List.map remove) hfile
    cases h.life row.fileId with
    | unborn plans files manifests chunks markers operations =>
      rw [operations] at hop
      exact absurd hop List.not_mem_nil
    | committed file hash landed state nomarkers operations =>
      rcases hmarkers with ⟨⟨old, hold, -⟩, -⟩ | ⟨-, rfl⟩
      · rw [nomarkers] at hold
        exact absurd hold List.not_mem_nil
      have hmarkers : rowsOf MarkerRow.fileId row.fileId (db.deletionMarkers ++ [new]) = [new] := by
        rw [rowsOf_append, @rowsOf_all _ _ _ _ _ [new] (by simp [new])]
        exact congrArg (· ++ [new]) nomarkers
      refine .deleted (remove file) new ⟨hremoved file landed.files, landed.manifests, landed.plans⟩
        rfl hmarkers rfl rfl fun op hop' => ?_
      obtain ⟨old, hold, hgen, hhash⟩ := hoperations op hop'
      rw [hgen, hhash, (operations old hold).1, (operations old hold).2.1]
      exact ⟨(operations row hop).1.symm, (operations row hop).2.1.symm⟩
    | deleted file old landed state onemarker generation hash operations =>
      have hrowOf := operations row hop
      rcases hmarkers with ⟨-, rfl⟩ | ⟨hnone, -⟩
      · refine .deleted (remove file) old
          ⟨hremoved file landed.files, landed.manifests, landed.plans⟩ rfl onemarker hrowOf.1.symm
          (congrArg some hrowOf.2) fun op hop' => ?_
        obtain ⟨before, hbefore, hgen, hhash⟩ := hoperations op hop'
        rw [hgen, hhash]
        exact operations before hbefore
      · refine absurd hrowOf.1.symm (hnone old ?_)
        rw [onemarker]
        exact List.mem_singleton_self old

/-- A commit of a delete leaves its operation committed. -/
theorem Sound.commitDelete_commits (h : db.Sound) {minimum : ℕ} {now : Time}
    {op : DeleteOperation} (hop : op ∈ db.deleteOperations)
    (hok : db.commitDelete op.operationId minimum now = .ok db₁) :
    { op with state := .committed } ∈ db₁.deleteOperations := by
  obtain ⟨row, hrow, ⟨hstate, rfl⟩ | ⟨-, -, projection, db₂, marker, -, -, -, hinsert, -, -, rfl⟩⟩ :=
    commitDelete_spec hok
  · obtain ⟨hmem, hid⟩ := deleteOperationById_some hrow
    obtain rfl := h.operation_unique hop hmem hid.symm
    have heq : { op with state := .committed } = op := by rw [← hstate]
    rwa [heq]
  · obtain ⟨-, markers, rfl⟩ := insertMarkerOrIgnore_touches 0 hinsert
    exact List.mem_map.2 ⟨op, hop, if_pos rfl⟩

/-! ## The step -/

/-- A row always comes from one under an incarnation, or is placed under one. -/
theorem Sound.placed (h : db.Sound) {w : Write} (hw : w.AboutPlaces)
    (hok : w.perform db = .ok db₁) : db₁.Sound := by
  have htables := (Write.AboutHoldings.frame (.inl hw) hok).1
  obtain ⟨hplaces, hcomes⟩ := Write.placementStep hok h.places
  have hview (id : FileId) : db₁.view id = db.view id := by
    unfold view ordinals chunks
    rw [htables]
  exact {
    uploads := by
      rw [htables]
      exact h.uploads
    plans := by
      rw [htables]
      exact h.plans
    operations := by
      rw [htables]
      exact h.operations
    life := fun id => by
      rw [hview id]
      exact h.life id
    places := hplaces
    located := by
      intro row hrow
      rcases hcomes row hrow with ⟨old, hold, hcontinues⟩ | ⟨agent, incarnation, hplaced⟩
      · rcases hcontinues.incarnation with heq | ⟨-, own, -, heq, -⟩
        · rw [heq]
          exact h.located old hold
        · rw [heq]
          rfl
      · rw [hplaced.incarnation]
        rfl }

/-- Writes of uploads and deletes keep every file in a stage. -/
theorem Sound.step (h : db.Sound) {w : Write} (hw : w.ByUpload ∨ w.ByDelete)
    (hok : w.perform db = .ok db₁) : db₁.Sound := by
  have hplaces : w.Locates → db₁.Sound := fun hlocates =>
    h.placed (by cases w <;> first | exact hlocates.elim | exact trivial) hok
  cases w with
  | createUpload upload now => exact h.createUpload hok
  | advanceUpload upload next =>
    have hnext : next = .replicatingChunks := hw.elim (fun h => h) fun h => h.elim
    subst hnext
    exact h.advanceUpload hok
  | setChunkObject upload ordinal hash len => exact h.setChunkObject hok
  | setManifestPlan upload hash bytes => exact h.setManifestPlan hok
  | commitFile upload minimum now => exact h.commitFile hok
  | createDeleteOperation operation => exact h.createDeleteOperation hok
  | commitDelete operation minimum now => exact h.commitDelete hok
  | observeAgentIncarnation agent incarnation => exact hplaces trivial
  | ensurePendingPlacement object agent incarnation => exact hplaces trivial
  | confirmPlacement object agent => exact hplaces trivial
  | _ => exact (hw.elim (fun h => h.elim) fun h => h.elim)

end Database

end Metadata

end DistrHnsw
