import DistrHnsw.Metadata.Writes

/-!
# What the writes keep of the history

`Recorded`: every object a file requires has its row in the history and no applied collection
proof.  `Touches` says what a transaction about one file may change; every write but the
collection's keeps `Recorded` when the objects it brings in were never collected.
-/

namespace DistrHnsw

namespace Metadata

namespace Database

/-! ## What files require -/

/-- The file requires the object. -/
def Requires (db : Database) (file : FileRow) (object : ObjectId) : Prop :=
  match object.kind with
  | .manifest => file.state = .committed ∧ file.manifestHash = some object.hash
  | .chunk => file.state = .committed ∧ ∃ row ∈ db.fileChunks,
      row.hash = object.hash ∧ row.fileId = file.fileId ∧ row.generation = file.generation
  | .deletionMarker => file.state = .deleted ∧ file.deletionHash = some object.hash

theorem requiredByLiveFile_iff {db : Database} {object : ObjectId} :
    db.requiredByLiveFile object = true ↔ ∃ file ∈ db.files, db.Requires file object := by
  unfold requiredByLiveFile Requires
  cases object.kind with
  | chunk =>
    simp only [List.any_eq_true, Bool.and_eq_true, beq_iff_eq]
    constructor
    · rintro ⟨row, hrow, hhash, file, hfile, ⟨hid, hgen⟩, hstate⟩
      exact ⟨file, hfile, hstate, row, hrow, hhash, hid.symm, hgen.symm⟩
    · rintro ⟨file, hfile, hstate, row, hrow, hhash, hid, hgen⟩
      exact ⟨row, hrow, hhash, file, hfile, ⟨hid.symm, hgen.symm⟩, hstate⟩
  | manifest => simp
  | deletionMarker => simp

theorem gcApplied_iff {db : Database} {object : ObjectId} :
    db.gcApplied object = true ↔ ∃ proof ∈ db.gcProofs, proof.object = object ∧ proof.status = .applied := by
  simp [gcApplied]

/-- The rows and proofs behind what one file requires. -/
structure FileRecorded (db : Database) (file : FileRow) : Prop where
  manifest : file.state = .committed → ∀ hash, file.manifestHash = some hash →
    ∃ row ∈ db.fileManifests, row.fileId = file.fileId ∧ row.generation = file.generation ∧
      row.hash = hash
  marker : file.state = .deleted → ∀ hash, file.deletionHash = some hash →
    ∃ row ∈ db.deletionMarkers, row.fileId = file.fileId ∧ row.hash = hash
  kept : ∀ object, db.Requires file object → db.gcApplied object = false

/-- Everything required is recorded and was not collected. -/
structure Recorded (db : Database) : Prop where
  files : ∀ file ∈ db.files, db.FileRecorded file
  fileIds : (db.files.map (·.fileId)).Nodup
  proofIds : (db.gcProofs.map (·.proofId)).Nodup
  noMarkers : ∀ proof ∈ db.gcProofs, proof.status = .applied → proof.object.kind ≠ .deletionMarker

/-- Between the databases only rows of one file changed, and no proof. -/
structure Touches (db db' : Database) (id : FileId) : Prop where
  files : ∀ file ∈ db'.files, file.fileId ≠ id → file ∈ db.files
  fileIds : (db.files.map (·.fileId)).Nodup → (db'.files.map (·.fileId)).Nodup
  manifests : ∀ row ∈ db.fileManifests, row ∈ db'.fileManifests
  chunks : ∀ row ∈ db.fileChunks, row ∈ db'.fileChunks
  newChunks : ∀ row ∈ db'.fileChunks, row.fileId ≠ id → row ∈ db.fileChunks
  markers : ∀ row ∈ db.deletionMarkers, row.fileId ≠ id → row ∈ db'.deletionMarkers
  proofs : db'.gcProofs = db.gcProofs

/-- Nothing the history is made of changed. -/
structure SameHistory (db db' : Database) : Prop where
  files : db'.files = db.files
  manifests : db'.fileManifests = db.fileManifests
  chunks : db'.fileChunks = db.fileChunks
  markers : db'.deletionMarkers = db.deletionMarkers
  proofs : db'.gcProofs = db.gcProofs

variable {db db₁ db₂ : Database} {id : FileId}

theorem SameHistory.refl (db : Database) : SameHistory db db := ⟨rfl, rfl, rfl, rfl, rfl⟩

theorem SameHistory.trans (h₁ : SameHistory db db₁) (h₂ : SameHistory db₁ db₂) :
    SameHistory db db₂ where
  files := h₂.files.trans h₁.files
  manifests := h₂.manifests.trans h₁.manifests
  chunks := h₂.chunks.trans h₁.chunks
  markers := h₂.markers.trans h₁.markers
  proofs := h₂.proofs.trans h₁.proofs

theorem SameHistory.touches (h : SameHistory db db₁) (id : FileId) : Touches db db₁ id where
  files _ hfile _ := h.files ▸ hfile
  fileIds hids := h.files ▸ hids
  manifests _ hrow := h.manifests ▸ hrow
  chunks _ hrow := h.chunks ▸ hrow
  newChunks _ hrow _ := h.chunks ▸ hrow
  markers _ hrow _ := h.markers ▸ hrow
  proofs := h.proofs

theorem Touches.trans (h₁ : Touches db db₁ id) (h₂ : Touches db₁ db₂ id) : Touches db db₂ id where
  files file hfile hne := h₁.files file (h₂.files file hfile hne) hne
  fileIds h := h₂.fileIds (h₁.fileIds h)
  manifests row hrow := h₂.manifests row (h₁.manifests row hrow)
  chunks row hrow := h₂.chunks row (h₁.chunks row hrow)
  newChunks row hrow hne := h₁.newChunks row (h₂.newChunks row hrow hne) hne
  markers row hrow hne := h₂.markers row (h₁.markers row hrow hne) hne
  proofs := h₂.proofs.trans h₁.proofs

theorem Touches.thenSame (h₁ : Touches db db₁ id) (h₂ : SameHistory db₁ db₂) : Touches db db₂ id :=
  h₁.trans (h₂.touches id)

theorem Recorded.of_sameHistory (h : db.Recorded) (hsame : SameHistory db db₁) : db₁.Recorded where
  files := by
    intro file hfile
    rw [hsame.files] at hfile
    obtain ⟨hmanifest, hmarker, hkept⟩ := h.files file hfile
    refine ⟨?_, ?_, fun object hobject => ?_⟩
    · rwa [hsame.manifests]
    · rwa [hsame.markers]
    · have hold : db.Requires file object := by
        unfold Requires at hobject ⊢
        rwa [hsame.chunks] at hobject
      simpa [gcApplied, hsame.proofs] using hkept object hold
  fileIds := by rw [hsame.files]; exact h.fileIds
  proofIds := by rw [hsame.proofs]; exact h.proofIds
  noMarkers := by rw [hsame.proofs]; exact h.noMarkers

/-- A transaction about one file keeps `Recorded` when it does for that file. -/
theorem Touches.recorded (ht : Touches db db₁ id) (h : db.Recorded)
    (hnew : ∀ file ∈ db₁.files, file.fileId = id → db₁.FileRecorded file) : db₁.Recorded where
  files := by
    intro file hfile
    by_cases hid : file.fileId = id
    · exact hnew file hfile hid
    obtain ⟨hmanifest, hmarker, hkept⟩ := h.files file (ht.files file hfile hid)
    refine ⟨fun hstate hash hhash => ?_, fun hstate hash hhash => ?_, fun object hobject => ?_⟩
    · obtain ⟨row, hrow, hrest⟩ := hmanifest hstate hash hhash
      exact ⟨row, ht.manifests row hrow, hrest⟩
    · obtain ⟨row, hrow, hfileId, hhash⟩ := hmarker hstate hash hhash
      exact ⟨row, ht.markers row hrow (hfileId ▸ hid), hfileId, hhash⟩
    · have hold : db.Requires file object := by
        unfold Requires at hobject ⊢
        cases hkind : object.kind with
        | chunk =>
          simp only [hkind] at hobject ⊢
          obtain ⟨hstate, row, hrow, hhash, hfileId, hgen⟩ := hobject
          exact ⟨hstate, row, ht.newChunks row hrow (hfileId ▸ hid), hhash, hfileId, hgen⟩
        | manifest => simpa only [hkind] using hobject
        | deletionMarker => simpa only [hkind] using hobject
      simpa [gcApplied, ht.proofs] using hkept object hold
  fileIds := ht.fileIds h.fileIds
  proofIds := by rw [ht.proofs]; exact h.proofIds
  noMarkers := by rw [ht.proofs]; exact h.noMarkers

/-- No marker was ever collected. -/
theorem Recorded.marker_kept (h : db.Recorded) (hash : ObjectHash) :
    db.gcApplied ⟨.deletionMarker, hash⟩ = false := by
  rw [Bool.eq_false_iff, Ne, gcApplied_iff]
  rintro ⟨proof, hproof, hobject, hstatus⟩
  exact h.noMarkers proof hproof hstatus (by rw [hobject])

/-! ## Statements -/

theorem updateFile_fileIds (db : Database) {f : FileRow → FileRow}
    (hf : ∀ row, (f row).fileId = row.fileId) :
    (db.updateFile id f).files.map (·.fileId) = db.files.map (·.fileId) := by
  simp only [updateFile, List.map_map]
  refine List.map_congr_left fun row _ => ?_
  simp only [Function.comp]
  split
  · exact hf row
  · rfl

theorem touches_updateFile (db : Database) {f : FileRow → FileRow}
    (hf : ∀ row, (f row).fileId = row.fileId) : Touches db (db.updateFile id f) id where
  files := by
    intro file hfile hne
    obtain ⟨row, hrow, rfl⟩ := List.mem_map.1 hfile
    by_cases hid : row.fileId = id
    · rw [if_pos hid, hf] at hne
      exact absurd hid hne
    · rwa [if_neg hid]
  fileIds h := by rwa [updateFile_fileIds db hf]
  manifests _ hrow := hrow
  chunks _ hrow := hrow
  newChunks _ hrow _ := hrow
  markers _ hrow _ := hrow
  proofs := rfl

/-- The rows of the updated file. -/
theorem mem_updateFile {f : FileRow → FileRow} {file : FileRow}
    (h : file ∈ (db.updateFile id f).files) (hid : file.fileId = id) :
    ∃ row ∈ db.files, row.fileId = id ∧ file = f row := by
  obtain ⟨row, hrow, rfl⟩ := List.mem_map.1 h
  by_cases hrowId : row.fileId = id
  · exact ⟨row, hrow, hrowId, if_pos hrowId⟩
  · rw [if_neg hrowId] at hid
    exact absurd hid hrowId

theorem insertFile_spec {row : FileRow} (h : db.insertFile row = .ok db₁) :
    (∀ other ∈ db.files, other.fileId ≠ row.fileId) ∧ db₁ = { db with files := db.files ++ [row] } := by
  unfold insertFile at h
  obtain ⟨hno, h⟩ := guard_eq_ok.1 h
  cases h
  refine ⟨fun other hother hid => hno (.inr ?_), rfl⟩
  exact List.any_eq_true.2 ⟨other, hother, by simp [hid]⟩

/-- A row of a file that had none. -/
theorem touches_appendFile {row : FileRow} (hno : ∀ other ∈ db.files, other.fileId ≠ row.fileId) :
    Touches db { db with files := db.files ++ [row] } row.fileId where
  files := by
    intro file hfile hne
    rcases List.mem_append.1 hfile with hfile | hfile
    · exact hfile
    · rw [List.mem_singleton.1 hfile] at hne
      exact absurd rfl hne
  fileIds := by
    intro hids
    rw [List.map_append]
    refine List.Nodup.append hids (by simp) ?_
    intro x hx hx'
    obtain ⟨other, hother, rfl⟩ := List.mem_map.1 hx
    exact hno other hother (by simpa using hx')
  manifests _ hrow := hrow
  chunks _ hrow := hrow
  newChunks _ hrow _ := hrow
  markers _ hrow _ := hrow
  proofs := rfl

theorem touches_insertFile {row : FileRow} (h : db.insertFile row = .ok db₁) :
    Touches db db₁ row.fileId := by
  obtain ⟨hno, rfl⟩ := insertFile_spec h
  exact touches_appendFile hno

/-- After an upsert every row of the file is the new row or an updated one. -/
theorem upsertFile_spec {row : FileRow} {f : FileRow → FileRow}
    (hf : ∀ other, (f other).fileId = other.fileId) (h : db.upsertFile row f = .ok db₁) :
    Touches db db₁ row.fileId ∧ (∃ files, db₁ = { db with files := files }) ∧
      ∀ file ∈ db₁.files, file.fileId = row.fileId →
        file = row ∨ ∃ other ∈ db.files, other.fileId = row.fileId ∧ file = f other := by
  unfold upsertFile at h
  obtain ⟨-, h⟩ := guard_eq_ok.1 h
  by_cases hex : db.files.any (·.fileId == row.fileId)
  · rw [if_pos hex] at h
    cases h
    exact ⟨touches_updateFile db hf, ⟨_, rfl⟩, fun file hfile hid => .inr (mem_updateFile hfile hid)⟩
  · rw [if_neg hex] at h
    refine ⟨touches_insertFile h, ?_, ?_⟩
    · exact ⟨_, (insertFile_spec h).2⟩
    · obtain ⟨hno, rfl⟩ := insertFile_spec h
      intro file hfile hid
      rcases List.mem_append.1 hfile with hfile | hfile
      · exact absurd hid (hno file hfile)
      · exact .inl (List.mem_singleton.1 hfile)

theorem insertManifest_spec {row : ManifestRow} (h : db.insertManifest row = .ok db₁) :
    db₁ = { db with fileManifests := db.fileManifests ++ [row] } := by
  unfold insertManifest at h
  obtain ⟨-, h⟩ := guard_eq_ok.1 h
  cases h
  rfl

theorem insertManifestOrIgnore_spec {row : ManifestRow}
    (h : db.insertManifestOrIgnore row = .ok db₁) :
    db₁ = db ∨ db₁ = { db with fileManifests := db.fileManifests ++ [row] } := by
  unfold insertManifestOrIgnore at h
  split at h
  · cases h
    exact .inl rfl
  · exact .inr (insertManifest_spec h)

/-- More manifests, and more chunks of one file. -/
theorem touches_of_appended (db : Database) (manifests : List ManifestRow)
    (chunks : List FileChunkRow) (hchunks : ∀ row ∈ chunks, row.fileId = id) :
    Touches db { db with
      fileManifests := db.fileManifests ++ manifests, fileChunks := db.fileChunks ++ chunks } id where
  files _ hfile _ := hfile
  fileIds h := h
  manifests _ hrow := List.mem_append_left _ hrow
  chunks _ hrow := List.mem_append_left _ hrow
  newChunks row hrow hne := (List.mem_append.1 hrow).resolve_right fun hrow => hne (hchunks row hrow)
  markers _ hrow _ := hrow
  proofs := rfl

theorem foldlM_insertFileChunk {rows : List FileChunkRow}
    (h : rows.foldlM insertFileChunk db = .ok db₁) :
    db₁ = { db with fileChunks := db.fileChunks ++ rows } := by
  induction rows generalizing db with
  | nil =>
    cases h
    simp
  | cons row rows ih =>
    rw [List.foldlM_cons] at h
    obtain ⟨db', hrow, h⟩ := bind_eq_ok.1 h
    unfold insertFileChunk at hrow
    obtain ⟨-, hrow⟩ := guard_eq_ok.1 hrow
    cases hrow
    rw [ih h]
    simp

/-- Chunks that are not there yet are appended. -/
theorem foldl_insertFileChunkOrIgnore (manifest : DecodedManifest) (chunks : List ChunkRecord)
    (db : Database) :
    ∃ rows, (∀ row ∈ rows, ∃ chunk ∈ chunks, row = manifestChunk manifest chunk) ∧
      chunks.foldl (fun db chunk => db.insertFileChunkOrIgnore (manifestChunk manifest chunk)) db =
        { db with fileChunks := db.fileChunks ++ rows } := by
  induction chunks generalizing db with
  | nil => exact ⟨[], by simp, by simp⟩
  | cons chunk chunks ih =>
    rw [List.foldl_cons]
    obtain ⟨rows, hrows, heq⟩ := ih (db.insertFileChunkOrIgnore (manifestChunk manifest chunk))
    have hold : ∀ row ∈ rows, ∃ c ∈ chunk :: chunks, row = manifestChunk manifest c := fun row hrow =>
      have ⟨c, hc, hrow⟩ := hrows row hrow
      ⟨c, List.mem_cons_of_mem _ hc, hrow⟩
    rw [heq]
    unfold insertFileChunkOrIgnore
    split
    · exact ⟨rows, hold, rfl⟩
    · refine ⟨manifestChunk manifest chunk :: rows, ?_, by simp⟩
      intro row hrow
      rcases List.mem_cons.1 hrow with rfl | hrow
      · exact ⟨chunk, by simp, rfl⟩
      · exact hold row hrow

/-- The row found is in the table, with its file and generation. -/
theorem markerAt_some {file generation : ℕ} {row : MarkerRow}
    (h : db.markerAt file generation = some row) :
    row ∈ db.deletionMarkers ∧ row.fileId = file ∧ row.generation = generation := by
  have hrow := List.find?_some h
  simp only [Bool.and_eq_true, beq_iff_eq] at hrow
  exact ⟨List.mem_of_find?_eq_some h, hrow.1, hrow.2⟩

theorem manifestAt_some {file generation : ℕ} {row : ManifestRow}
    (h : db.manifestAt file generation = some row) :
    row ∈ db.fileManifests ∧ row.fileId = file ∧ row.generation = generation := by
  have hrow := List.find?_some h
  simp only [Bool.and_eq_true, beq_iff_eq] at hrow
  exact ⟨List.mem_of_find?_eq_some h, hrow.1, hrow.2⟩

theorem fileProjection_some {file : FileId} {row : FileRow} (h : db.fileProjection file = some row) :
    row ∈ db.files ∧ row.fileId = file :=
  ⟨List.mem_of_find?_eq_some h, by simpa using List.find?_some h⟩

theorem queryRow_eq_ok {α : Type} {o : Option α} {a : α} : queryRow o = .ok a ↔ o = some a := by
  cases o <;> simp [queryRow]

theorem ensure_eq_ok {c : Bool} {e : MetadataError} {u : Unit} : ensure c e = .ok u ↔ c = true := by
  cases c <;> simp [ensure]

theorem toI64_eq_ok {n m : ℕ} : toI64 n = .ok m ↔ n ≤ i64Max ∧ n = m := by
  unfold toI64
  split <;> simp [*]

/-- More markers. -/
theorem touches_of_markers (db : Database) (rows : List MarkerRow) :
    Touches db { db with deletionMarkers := db.deletionMarkers ++ rows } id where
  files _ hfile _ := hfile
  fileIds h := h
  manifests _ hrow := hrow
  chunks _ hrow := hrow
  newChunks _ hrow _ := hrow
  markers _ hrow _ := List.mem_append_left _ hrow
  proofs := rfl

theorem insertMarkerOrIgnore_touches (id : FileId) {row : MarkerRow} (h : db.insertMarkerOrIgnore row = .ok db₁) :
    Touches db db₁ id ∧ ∃ rows, db₁ = { db with deletionMarkers := rows } := by
  unfold insertMarkerOrIgnore at h
  obtain ⟨-, h⟩ := guard_eq_ok.1 h
  split at h
  · cases h
    exact ⟨(SameHistory.refl _).touches _, _, rfl⟩
  · obtain ⟨-, h⟩ := guard_eq_ok.1 h
    cases h
    exact ⟨touches_of_markers db [row], _, rfl⟩

/-- Replacing a marker leaves the other files' alone and puts the new one in its place. -/
theorem updateMarker_touches {row old : MarkerRow} (h : db.updateMarker row = .ok db₁)
    (hold : db.markerAt row.fileId row.generation = some old) :
    Touches db db₁ row.fileId ∧ (∃ rows, db₁ = { db with deletionMarkers := rows }) ∧
      row ∈ db₁.deletionMarkers := by
  unfold updateMarker at h
  obtain ⟨-, h⟩ := guard_eq_ok.1 h
  cases h
  obtain ⟨hmem, hid, hgen⟩ := markerAt_some hold
  refine ⟨?_, ⟨_, rfl⟩, List.mem_map.2 ⟨old, hmem, if_pos ⟨hid, hgen⟩⟩⟩
  exact {
    files := fun _ hfile _ => hfile
    fileIds := fun h => h
    manifests := fun _ hrow => hrow
    chunks := fun _ hrow => hrow
    newChunks := fun _ hrow _ => hrow
    markers := fun other hother hne =>
      List.mem_map.2 ⟨other, hother, if_neg fun hsame => hne hsame.1⟩
    proofs := rfl }

/-! ## Transactions about one file -/

/-- A transaction that makes one generation of a file the committed one. -/
structure Commits (db db' : Database) (id : FileId) (generation : ℕ) (hash : ObjectHash)
    (brought : List ObjectId) : Prop where
  touches : Touches db db' id
  rows : ∀ file ∈ db'.files, file.fileId = id →
    file.generation = generation ∧ file.state = .committed ∧ file.manifestHash = some hash
  manifest : ∃ row ∈ db'.fileManifests,
    row.fileId = id ∧ row.generation = generation ∧ row.hash = hash
  manifestBrought : ⟨.manifest, hash⟩ ∈ brought
  chunksBrought : ∀ row ∈ db'.fileChunks, row.fileId = id → row.generation = generation →
    ⟨.chunk, row.hash⟩ ∈ brought

theorem Commits.recorded {generation : ℕ} {hash : ObjectHash} {brought : List ObjectId}
    (hc : Commits db db₁ id generation hash brought) (h : db.Recorded)
    (hclean : ∀ object ∈ brought, db.gcApplied object = false) : db₁.Recorded := by
  refine hc.touches.recorded h fun file hfile hid => ?_
  obtain ⟨hgen, hstate, hhash⟩ := hc.rows file hfile hid
  refine ⟨fun _ hash' hhash' => ?_, fun hdeleted => ?_, fun object hobject => ?_⟩
  · rw [hhash] at hhash'
    cases hhash'
    rw [hid, hgen]
    exact hc.manifest
  · rw [hstate] at hdeleted
    cases hdeleted
  · have hbrought : object ∈ brought := by
      obtain ⟨kind, hash'⟩ := object
      cases kind with
      | chunk =>
        obtain ⟨-, row, hrow, rfl, hrowId, hrowGen⟩ := hobject
        exact hc.chunksBrought row hrow (hrowId.trans hid) (hrowGen.trans hgen)
      | manifest =>
        have heq := hhash.symm.trans hobject.2
        cases heq
        exact hc.manifestBrought
      | deletionMarker => exact absurd (hstate.symm.trans hobject.1) (by decide)
    simpa [gcApplied, hc.touches.proofs] using hclean object hbrought

/-- A transaction that makes a file deleted by a marker. -/
structure Deletes (db db' : Database) (id : FileId) (generation : ℕ) (hash : ObjectHash) : Prop where
  touches : Touches db db' id
  rows : ∀ file ∈ db'.files, file.fileId = id → file.generation = generation ∧
    file.state = .deleted ∧ file.deletionHash = some hash ∧ file.deletedAt.isSome
  marker : ∃ row ∈ db'.deletionMarkers, row.fileId = id ∧ row.hash = hash

theorem fileRecorded_of_deleted {file : FileRow} {hash : ObjectHash} (h : db.Recorded)
    (hproofs : db₁.gcProofs = db.gcProofs) (hstate : file.state = .deleted)
    (hhash : file.deletionHash = some hash)
    (hmarker : ∃ row ∈ db₁.deletionMarkers, row.fileId = file.fileId ∧ row.hash = hash) :
    db₁.FileRecorded file := by
  refine ⟨fun hcommitted => ?_, fun _ hash' hhash' => ?_, fun object hobject => ?_⟩
  · rw [hstate] at hcommitted
    cases hcommitted
  · rw [hhash] at hhash'
    cases hhash'
    exact hmarker
  · obtain ⟨kind, hash'⟩ := object
    cases kind with
    | chunk => exact absurd (hstate.symm.trans hobject.1) (by decide)
    | manifest => exact absurd (hstate.symm.trans hobject.1) (by decide)
    | deletionMarker => simpa [gcApplied, hproofs] using h.marker_kept hash'

theorem Deletes.recorded {generation : ℕ} {hash : ObjectHash}
    (hd : Deletes db db₁ id generation hash) (h : db.Recorded) : db₁.Recorded := by
  refine hd.touches.recorded h fun file hfile hid => ?_
  obtain ⟨-, hstate, hhash, -⟩ := hd.rows file hfile hid
  refine fileRecorded_of_deleted h hd.touches.proofs hstate hhash ?_
  rw [hid]
  exact hd.marker

/-- The chunks of the history at one generation of a file. -/
def recordedAt (db : Database) (file : FileId) (generation : ℕ) : List ObjectId :=
  (db.fileChunks.filter fun row => row.fileId == file && row.generation == generation).map
    fun row => ⟨.chunk, row.hash⟩

theorem mem_recordedAt {row : FileChunkRow} (hrow : row ∈ db.fileChunks) :
    ⟨.chunk, row.hash⟩ ∈ db.recordedAt row.fileId row.generation :=
  List.mem_map.2 ⟨row, List.mem_filter.2 ⟨hrow, by simp⟩, rfl⟩

theorem sameHistory_updateUpload (db : Database) (upload : UploadId) (f : UploadRow → UploadRow) :
    SameHistory db (db.updateUpload upload f) := ⟨rfl, rfl, rfl, rfl, rfl⟩

/-- A committed chunk is one the upload planned. -/
theorem committedChunk_planned {upload : UploadRow} {row : UploadChunkRow} {out : FileChunkRow}
    (hrow : row ∈ db.chunks upload.uploadId) (h : committedChunk upload row = .ok out) :
    out.fileId = upload.fileId ∧ ⟨.chunk, out.hash⟩ ∈ db.plannedObjects upload := by
  unfold committedChunk at h
  cases hobject : row.object with
  | none =>
    rw [hobject] at h
    cases h
  | some object =>
    rw [hobject] at h
    cases h
    refine ⟨rfl, List.mem_append_right _ (List.mem_filterMap.2 ⟨row, ?_, by rw [hobject]; rfl⟩)⟩
    exact (List.mem_insertionSort _).1 hrow

/-- What a commit checks and writes. -/
theorem commitFile_spec {upload : UploadId} {minimum : ℕ} {now : Time}
    (h : db.commitFile upload minimum now = .ok db₁) :
    ∃ row, db.uploadById upload = some row ∧
      (row.state = .committed ∧ db₁ = db ∨
        row.state = .replicatingManifest ∧ ∃ hash bytes rows, row.manifest = some (hash, bytes) ∧
          db.requireReplicaFloor ⟨.manifest, hash⟩ minimum = .ok () ∧
          (db.chunks upload).forM (db.requireChunkFloor minimum) = .ok () ∧
          (db.chunks upload).mapM (committedChunk row) = .ok rows ∧
          (∀ other ∈ db.files, other.fileId ≠ row.fileId) ∧
          db₁ = (Database.updateUpload { db with
            files := db.files ++ [⟨row.fileId, row.generation, .committed, some row.info,
              some hash, none, some row.uploadId, none, now⟩]
            fileManifests := db.fileManifests ++ [⟨row.fileId, row.generation, hash, row.info⟩]
            fileChunks := db.fileChunks ++ rows } upload
              fun row => { row with state := .committed }).bumpContentGeneration) := by
  unfold commitFile at h
  obtain ⟨row, hrow, h⟩ := bind_eq_ok.1 h
  rw [queryRow_eq_ok] at hrow
  refine ⟨row, hrow, ?_⟩
  split at h
  · next hstate =>
    obtain ⟨-, -, h⟩ := bind_eq_ok.1 h
    cases h
    exact .inl ⟨hstate, rfl⟩
  · obtain ⟨_, hstate, h⟩ := bind_eq_ok.1 h
    rw [ensure_eq_ok, beq_iff_eq] at hstate
    refine .inr ⟨hstate, ?_⟩
    cases hplan : row.manifest with
    | none =>
      rw [hplan] at h
      cases h
    | some plan =>
      obtain ⟨hash, bytes⟩ := plan
      simp only [hplan] at h
      obtain ⟨_, hfloor, h⟩ := bind_eq_ok.1 h
      obtain ⟨_, hfloors, h⟩ := bind_eq_ok.1 h
      obtain ⟨generation, hgen, h⟩ := bind_eq_ok.1 h
      obtain ⟨-, rfl⟩ := toI64_eq_ok.1 hgen
      obtain ⟨-, -, h⟩ := bind_eq_ok.1 h
      obtain ⟨rows, hrows, h⟩ := bind_eq_ok.1 h
      obtain ⟨db₂, hfile, h⟩ := bind_eq_ok.1 h
      obtain ⟨db₃, hmanifest, h⟩ := bind_eq_ok.1 h
      obtain ⟨db₄, hchunks, h⟩ := bind_eq_ok.1 h
      cases h
      obtain ⟨hno, rfl⟩ := insertFile_spec hfile
      rw [insertManifest_spec hmanifest] at hchunks
      rw [foldlM_insertFileChunk hchunks]
      exact ⟨hash, bytes, rows, rfl, hfloor, hfloors, hrows, hno, rfl⟩

/-- A commit that writes makes the upload's generation the committed one. -/
theorem commitFile_cases {upload : UploadId} {minimum : ℕ} {now : Time}
    (h : db.commitFile upload minimum now = .ok db₁) :
    db₁ = db ∨ ∃ row hash bytes, db.uploadById upload = some row ∧ row.state ≠ .committed ∧
      row.manifest = some (hash, bytes) ∧ Commits db db₁ row.fileId row.generation hash
        (db.plannedObjects row ++ db.recordedAt row.fileId row.generation) := by
  obtain ⟨row, hrow, ⟨-, heq⟩ | ⟨hstate, hash, bytes, rows, hplan, -, -, hrows, hno, rfl⟩⟩ :=
    commitFile_spec h
  · exact .inl heq
  have hid : row.uploadId = upload := by simpa using List.find?_some hrow
  have hplanned : ∀ out ∈ rows,
      out.fileId = row.fileId ∧ ⟨.chunk, out.hash⟩ ∈ db.plannedObjects row := fun out hout =>
    have ⟨_, hmem, hok⟩ := mapM_ok_mem hrows out hout
    committedChunk_planned (hid ▸ hmem) hok
  have hinsert (file : FileRow) (hfile : file.fileId = row.fileId) :
      Touches db { db with files := db.files ++ [file] } row.fileId :=
    hfile ▸ touches_appendFile (hfile ▸ hno)
  refine .inr ⟨row, hash, bytes, hrow, by rw [hstate]; decide, hplan, ?_⟩
  exact {
    touches := ((hinsert _ rfl).trans (touches_of_appended _ [_] rows fun out hout =>
      (hplanned out hout).1)).thenSame ⟨rfl, rfl, rfl, rfl, rfl⟩
    rows := by
      intro file hfile hfileId
      rcases List.mem_append.1 hfile with hold | hnew
      · exact absurd hfileId (hno file hold)
      · rw [List.mem_singleton.1 hnew]
        exact ⟨rfl, rfl, rfl⟩
    manifest := ⟨_, List.mem_append_right _ (List.mem_singleton_self _), rfl, rfl, rfl⟩
    manifestBrought := List.mem_append_left _ (by simp [plannedObjects, plannedManifest, hplan])
    chunksBrought := by
      intro out hout hfileId hgeneration
      rcases List.mem_append.1 hout with hold | hnew
      · exact List.mem_append_right _ (hfileId ▸ hgeneration ▸ mem_recordedAt hold)
      · exact List.mem_append_left _ (hplanned out hnew).2 }

/-- What a delete checks and writes. -/
theorem commitDelete_spec {operation : OperationId} {minimum : ℕ} {now : Time}
    (h : db.commitDelete operation minimum now = .ok db₁) :
    ∃ row, db.deleteOperationById operation = some row ∧
      (row.state = .committed ∧ db₁ = db ∨
        row.state ≠ .committed ∧
          db.requireReplicaFloor ⟨.deletionMarker, row.markerHash⟩ minimum = .ok () ∧
          ∃ projection db₂ marker, db.fileProjection row.fileId = some projection ∧
            projection.generation ≤ row.generation ∧
            (projection.generation = row.generation → projection.state = .deleted ∧
              projection.deletionHash = some row.markerHash) ∧
            db.insertMarkerOrIgnore
              ⟨row.fileId, row.generation, row.markerHash, row.deletedAt⟩ = .ok db₂ ∧
            db₂.markerAt row.fileId row.generation = some marker ∧ marker.hash = row.markerHash ∧
            db₁ = Database.bumpContentGeneration { db₂.updateFile row.fileId fun file => { file with
                generation := row.generation, state := .deleted,
                deletionHash := some row.markerHash, deletedAt := some row.deletedAt,
                updatedAt := now } with
              deleteOperations := db₂.deleteOperations.map fun other : DeleteOperation =>
                if other.operationId = operation then { other with state := .committed }
                else other }) := by
  unfold commitDelete at h
  obtain ⟨row, hrow, h⟩ := bind_eq_ok.1 h
  rw [queryRow_eq_ok] at hrow
  refine ⟨row, hrow, ?_⟩
  split at h
  · next hstate =>
    cases h
    exact .inl ⟨hstate, rfl⟩
  · next hstate =>
    obtain ⟨_, hfloor, h⟩ := bind_eq_ok.1 h
    obtain ⟨projection, hprojection, h⟩ := bind_eq_ok.1 h
    obtain ⟨_, hle, h⟩ := bind_eq_ok.1 h
    obtain ⟨_, hsame, h⟩ := bind_eq_ok.1 h
    obtain ⟨db₂, hinsert, h⟩ := bind_eq_ok.1 h
    obtain ⟨marker, hmarker, h⟩ := bind_eq_ok.1 h
    obtain ⟨_, hhash, h⟩ := bind_eq_ok.1 h
    cases h
    rw [queryRow_eq_ok] at hprojection hmarker
    rw [ensure_eq_ok] at hle hsame hhash
    refine .inr ⟨hstate, hfloor, projection, db₂, marker, hprojection, of_decide_eq_true hle, ?_,
      hinsert, hmarker, eq_of_beq hhash, rfl⟩
    intro hgen
    simpa [hgen] using hsame

/-- A committed delete that writes deletes the file of its operation. -/
theorem commitDelete_cases {operation : OperationId} {minimum : ℕ} {now : Time}
    (h : db.commitDelete operation minimum now = .ok db₁) :
    db₁ = db ∨ ∃ id generation hash, Deletes db db₁ id generation hash := by
  obtain ⟨row, -, ⟨-, heq⟩ | ⟨-, -, -, db₂, marker, -, -, -, hinsert, hmarker, hhash, rfl⟩⟩ :=
    commitDelete_spec h
  · exact .inl heq
  refine .inr ⟨row.fileId, row.generation, row.markerHash, ?_⟩
  obtain ⟨hmem, hfileId, -⟩ := markerAt_some hmarker
  have htouches : Touches db db₂ row.fileId := (insertMarkerOrIgnore_touches _ hinsert).1
  exact {
    touches := (htouches.trans (touches_updateFile db₂ (by exact fun _ => rfl))).thenSame
      ⟨rfl, rfl, rfl, rfl, rfl⟩
    rows := by
      intro file hfile hid
      obtain ⟨_, _, _, rfl⟩ := mem_updateFile hfile hid
      exact ⟨rfl, rfl, rfl, rfl⟩
    marker := ⟨marker, hmem, hfileId, hhash⟩ }

end Database

end Metadata

end DistrHnsw
