import DistrHnsw.Metadata.Frames

/-!
# Generations of files

No write loses a file or lowers its generation, and a deleted file is made readable by a recovered
manifest only.
-/

namespace DistrHnsw

namespace Metadata

namespace Database

variable {db db₁ db₂ : Database} {id : FileId}

/-- No file is lost, and files other than one keep their rows. -/
structure KeepsFiles (db db' : Database) (id : FileId) : Prop where
  others : ∀ file ∈ db.files, file.fileId ≠ id → file ∈ db'.files
  same : ∀ file ∈ db.files, file.fileId = id → ∃ file' ∈ db'.files, file'.fileId = id

theorem KeepsFiles.of_eq (h : db₁.files = db.files) : KeepsFiles db db₁ id :=
  ⟨fun _ hfile _ => h ▸ hfile, fun file hfile hid => ⟨file, h ▸ hfile, hid⟩⟩

theorem KeepsFiles.trans (h₁ : KeepsFiles db db₁ id) (h₂ : KeepsFiles db₁ db₂ id) :
    KeepsFiles db db₂ id where
  others file hfile hne := h₂.others file (h₁.others file hfile hne) hne
  same file hfile hid := by
    obtain ⟨file', hfile', hid'⟩ := h₁.same file hfile hid
    exact h₂.same file' hfile' hid'

theorem keepsFiles_updateFile (db : Database) (id : FileId) {f : FileRow → FileRow}
    (hf : ∀ row, (f row).fileId = row.fileId) : KeepsFiles db (db.updateFile id f) id where
  others file hfile hne := List.mem_map.2 ⟨file, hfile, if_neg hne⟩
  same file hfile hid := ⟨f file, List.mem_map.2 ⟨file, hfile, if_pos hid⟩, (hf file).trans hid⟩

theorem keepsFiles_append (db : Database) (id : FileId) (rows : List FileRow) :
    KeepsFiles db { db with files := db.files ++ rows } id :=
  ⟨fun _ hfile _ => List.mem_append_left _ hfile,
    fun file hfile hid => ⟨file, List.mem_append_left _ hfile, hid⟩⟩

/-- An upsert appends the row of a file that had none, or updates the file's row. -/
theorem upsertFile_cases {row : FileRow} {f : FileRow → FileRow} (h : db.upsertFile row f = .ok db₁) :
    (∀ other ∈ db.files, other.fileId ≠ row.fileId) ∧ db₁ = { db with files := db.files ++ [row] } ∨
      (∃ other ∈ db.files, other.fileId = row.fileId) ∧ db₁ = db.updateFile row.fileId f := by
  unfold upsertFile at h
  obtain ⟨-, h⟩ := guard_eq_ok.1 h
  by_cases hex : db.files.any (·.fileId == row.fileId)
  · rw [if_pos hex] at h
    cases h
    obtain ⟨other, hother, hid⟩ := List.any_eq_true.1 hex
    exact .inr ⟨⟨other, hother, eq_of_beq hid⟩, rfl⟩
  · rw [if_neg hex] at h
    exact .inl (insertFile_spec h)

theorem upsertFile_keeps {row : FileRow} {f : FileRow → FileRow}
    (hf : ∀ other, (f other).fileId = other.fileId) (h : db.upsertFile row f = .ok db₁) :
    KeepsFiles db db₁ row.fileId := by
  rcases upsertFile_cases h with ⟨-, rfl⟩ | ⟨-, rfl⟩
  · exact keepsFiles_append db row.fileId [row]
  · exact keepsFiles_updateFile db row.fileId hf

theorem linkUpload_keeps {manifest : DecodedManifest} {hash : ObjectHash} {bytes : Bytes}
    (h : db.linkUpload manifest hash bytes = .ok db₁) : KeepsFiles db db₁ manifest.fileId := by
  unfold linkUpload at h
  split at h
  · cases h
    exact .of_eq rfl
  · split at h
    · cases h
      exact .of_eq rfl
    · obtain ⟨-, h⟩ := guard_eq_ok.1 h
      cases h
      refine KeepsFiles.trans ?_ (keepsFiles_updateFile _ _ ?_)
      · exact .of_eq rfl
      · exact fun _ => rfl

theorem requireGeneration_spec {generation : ℕ} {u : Unit}
    (h : db.requireGeneration id generation = .ok u) :
    ∀ row, db.fileProjection id = some row → row.generation ≤ generation := by
  unfold requireGeneration at h
  rw [ensure_eq_ok] at h
  intro row hrow
  rw [hrow] at h
  exact of_decide_eq_true h

theorem applyRecoveredManifest_keeps {manifest : DecodedManifest} {hash : ObjectHash}
    {bytes : Bytes} {now : Time} (h : db.applyRecoveredManifest manifest hash bytes now = .ok db₁) :
    KeepsFiles db db₁ manifest.fileId ∧
      ∀ row, db.fileProjection manifest.fileId = some row → row.generation ≤ manifest.generation := by
  unfold applyRecoveredManifest at h
  obtain ⟨_, hgen, h⟩ := bind_eq_ok.1 h
  obtain ⟨generation, _, h⟩ := bind_eq_ok.1 h
  obtain ⟨_, _, h⟩ := bind_eq_ok.1 h
  obtain ⟨db₂, hinsert, h⟩ := bind_eq_ok.1 h
  obtain ⟨persisted, _, h⟩ := bind_eq_ok.1 h
  obtain ⟨_, _, h⟩ := bind_eq_ok.1 h
  obtain ⟨db₄, hupsert, h⟩ := bind_eq_ok.1 h
  obtain ⟨db₅, hlink, h⟩ := bind_eq_ok.1 h
  cases h
  obtain ⟨rows, -, hfold⟩ := foldl_insertFileChunkOrIgnore manifest manifest.chunks db₂
  rw [hfold] at hupsert
  have hinserted : db₂.files = db.files := by
    rcases insertManifestOrIgnore_spec hinsert with rfl | rfl <;> rfl
  have hbefore : KeepsFiles db { db₂ with fileChunks := db₂.fileChunks ++ rows } manifest.fileId :=
    .of_eq hinserted
  have hupserted := hbefore.trans (upsertFile_keeps (by exact fun _ => rfl) hupsert)
  exact ⟨(hupserted.trans (linkUpload_keeps hlink)).trans (.of_eq rfl), requireGeneration_spec hgen⟩

theorem applyRecoveredDeletion_keeps {marker : DeletionMarker} {hash : ObjectHash} {now : Time}
    (h : db.applyRecoveredDeletion marker hash now = .ok db₁) :
    KeepsFiles db db₁ marker.fileId ∧
      ∀ row, db.fileProjection marker.fileId = some row → row.generation ≤ marker.generation := by
  unfold applyRecoveredDeletion at h
  obtain ⟨_, hgen, h⟩ := bind_eq_ok.1 h
  obtain ⟨generation, _, h⟩ := bind_eq_ok.1 h
  obtain ⟨db₂, hinsert, h⟩ := bind_eq_ok.1 h
  obtain ⟨persisted, hpersisted, h⟩ := bind_eq_ok.1 h
  obtain ⟨db₃, hadopt, h⟩ := bind_eq_ok.1 h
  obtain ⟨db₄, hupsert, h⟩ := bind_eq_ok.1 h
  cases h
  rw [queryRow_eq_ok] at hpersisted
  have hinserted : db₂.files = db.files := by
    obtain ⟨-, rows, rfl⟩ := insertMarkerOrIgnore_touches 0 hinsert
    rfl
  have hadopted : db₃.files = db₂.files := by
    unfold adoptMarker at hadopt
    split at hadopt
    · cases hadopt
      rfl
    · obtain ⟨_, _, hadopt⟩ := bind_eq_ok.1 hadopt
      obtain ⟨-, ⟨rows, rfl⟩, -⟩ := updateMarker_touches hadopt hpersisted
      rfl
  have hupserted := (KeepsFiles.of_eq (hadopted.trans hinserted)).trans
    (upsertFile_keeps (by exact fun _ => rfl) hupsert)
  exact ⟨hupserted.trans (.of_eq rfl), requireGeneration_spec hgen⟩

/-- The row a blocked file had, as blocking leaves it. -/
def blockRow (generation : ℕ) (deletionHash : Option ObjectHash) (now : Time) (row : FileRow) :
    FileRow :=
  { row with
    generation := max row.generation generation, state := blockedState deletionHash,
    deletionHash := deletionHash.orElse fun _ => row.deletionHash, updatedAt := now }

/-- What blocking a file writes. -/
theorem markRecoveryBlocked_cases {generation : ℕ} {deletionHash : Option ObjectHash}
    {issue : String} {now : Time}
    (h : db.markRecoveryBlocked id generation deletionHash issue now = .ok db₁) :
    db₁ = db ∨
      (∀ other ∈ db.files, other.fileId ≠ id) ∧ db₁.files = db.files ++
        [⟨id, generation, blockedState (db.blockedMarker id deletionHash), none, none,
          db.blockedMarker id deletionHash, none, none, now⟩] ∨
      db₁.files =
        (db.updateFile id (blockRow generation (db.blockedMarker id deletionHash) now)).files := by
  unfold markRecoveryBlocked at h
  obtain ⟨generation', hgen, h⟩ := bind_eq_ok.1 h
  obtain ⟨-, rfl⟩ := toI64_eq_ok.1 hgen
  split at h
  · cases h
    exact .inl rfl
  · obtain ⟨db₂, hupsert, h⟩ := bind_eq_ok.1 h
    cases h
    rcases upsertFile_cases hupsert with ⟨hno, rfl⟩ | ⟨-, rfl⟩
    · exact .inr (.inl ⟨hno, rfl⟩)
    · exact .inr (.inr rfl)

/-! ## Every write -/

/-- One row for each file, and the marker of each deleted one. -/
structure Marked (db : Database) : Prop where
  fileIds : (db.files.map (·.fileId)).Nodup
  markers : ∀ file ∈ db.files, file.state = .deleted → file.deletionHash.isSome

theorem Marked.new : Marked .new :=
  ⟨List.nodup_nil, fun _ h => absurd h List.not_mem_nil⟩

theorem Marked.file_unique (h : db.Marked) {a b : FileRow} (ha : a ∈ db.files) (hb : b ∈ db.files)
    (hid : a.fileId = b.fileId) : a = b :=
  List.inj_on_of_nodup_map h.fileIds ha hb hid

theorem Marked.fileProjection (h : db.Marked) {file : FileRow} (hfile : file ∈ db.files) :
    db.fileProjection file.fileId = some file := by
  cases hfind : db.fileProjection file.fileId with
  | none =>
    have hno := List.find?_eq_none.1 hfind file hfile
    simp at hno
  | some other =>
    obtain ⟨hmem, hid⟩ := fileProjection_some hfind
    rw [h.file_unique hmem hfile hid]

end Database

open Database

/-- The file is in its state only after the write. -/
def Becomes (db db' : Database) (file : FileRow) : Prop :=
  file ∈ db'.files ∧ ∀ old ∈ db.files, old.fileId = file.fileId → old.state ≠ file.state

/-- A file that was there in its state did not come into it. -/
theorem not_becomes {db db₁ : Database} {file : FileRow} (h : file ∈ db.files) : ¬ Becomes db db₁ file :=
  fun hbecomes => hbecomes.2 file h rfl rfl

/-- Every file is there, at no lower generation; a deleted one is still deleted, or readable by a
recovered manifest of no lower generation. -/
def Forward (db : Database) (w : Write) (db₁ : Database) : Prop :=
  ∀ file ∈ db.files, ∃ file' ∈ db₁.files, file'.fileId = file.fileId ∧
    file.generation ≤ file'.generation ∧
    (file.state = .deleted → file'.state = .deleted ∨ ∃ manifest hash bytes now,
      w = .applyRecoveredManifest manifest hash bytes now ∧ manifest.fileId = file.fileId ∧
        file'.generation = manifest.generation)

section Forward

variable {db db₁ : Database} {w : Write}

theorem forward_of_mem (h : ∀ file ∈ db.files, file ∈ db₁.files) : Forward db w db₁ :=
  fun file hfile => ⟨file, h file hfile, rfl, le_rfl, .inl⟩

/-- A transaction about one file, that moves its row on. -/
theorem Database.KeepsFiles.forward {id : FileId} (hkeeps : KeepsFiles db db₁ id)
    (hrows : ∀ file ∈ db.files, file.fileId = id → ∀ file' ∈ db₁.files, file'.fileId = id →
      file.generation ≤ file'.generation ∧
      (file.state = .deleted → file'.state = .deleted ∨ ∃ manifest hash bytes now,
        w = .applyRecoveredManifest manifest hash bytes now ∧ manifest.fileId = file.fileId ∧
          file'.generation = manifest.generation)) : Forward db w db₁ := by
  intro file hfile
  by_cases hid : file.fileId = id
  · obtain ⟨file', hfile', hid'⟩ := hkeeps.same file hfile hid
    exact ⟨file', hfile', hid'.trans hid.symm, hrows file hfile hid file' hfile' hid'⟩
  · exact ⟨file, hkeeps.others file hfile hid, rfl, le_rfl, .inl⟩

theorem Database.Touches.marked {id : FileId} (ht : Touches db db₁ id) (h : db.Marked)
    (hnew : ∀ file ∈ db₁.files, file.fileId = id → file.state = .deleted → file.deletionHash.isSome) :
    db₁.Marked where
  fileIds := ht.fileIds h.fileIds
  markers file hfile hstate := by
    by_cases hid : file.fileId = id
    · exact hnew file hfile hid hstate
    · exact h.markers file (ht.files file hfile hid) hstate

theorem Database.Marked.of_files (h : db.Marked) (hfiles : db₁.files = db.files) : db₁.Marked :=
  ⟨by rw [hfiles]; exact h.fileIds, by rw [hfiles]; exact h.markers⟩

/-- A blocked file is not lowered, and a deleted one stays deleted. -/
theorem Database.Marked.blocked (h : db.Marked) {id : FileId} {generation : ℕ}
    {deletionHash : Option ObjectHash} {issue : String} {now : Time}
    (hok : db.markRecoveryBlocked id generation deletionHash issue now = .ok db₁) :
    Forward db w db₁ := by
  rcases markRecoveryBlocked_cases hok with rfl | ⟨-, hfiles⟩ | hfiles
  · exact forward_of_mem fun file hfile => hfile
  · refine forward_of_mem fun file hfile => ?_
    rw [hfiles]
    exact List.mem_append_left _ hfile
  · have hkeeps : KeepsFiles db db₁ id :=
      (keepsFiles_updateFile db id (by exact fun _ => rfl)).trans (.of_eq hfiles)
    refine hkeeps.forward fun file hfile hid file' hfile' hid' => ?_
    rw [hfiles] at hfile'
    obtain ⟨old, hold, holdId, rfl⟩ := mem_updateFile hfile' hid'
    obtain rfl := h.file_unique hfile hold (hid.trans holdId.symm)
    refine ⟨le_max_left _ _, fun hstate => .inl ?_⟩
    -- The marker a deleted file has is kept.
    obtain ⟨hash, hhash⟩ := Option.isSome_iff_exists.1 (h.markers file hfile hstate)
    have hprojection := hid ▸ h.fileProjection hfile
    cases deletionHash with
    | some given => rfl
    | none => simp [blockRow, blockedMarker, blockedState, hprojection, hstate, hhash]

/-- Every write moves files forward only. -/
theorem Database.Marked.step (h : db.Marked) (hok : w.perform db = .ok db₁) :
    Forward db w db₁ ∧ db₁.Marked := by
  have hsame (hfiles : db₁.files = db.files) : Forward db w db₁ ∧ db₁.Marked :=
    ⟨forward_of_mem fun file hfile => hfiles ▸ hfile, h.of_files hfiles⟩
  cases w with
  | commitFile upload minimum now =>
    rcases commitFile_cases hok with rfl | ⟨row, hash, bytes, -, -, -, hcommits⟩
    · exact hsame rfl
    refine ⟨forward_of_mem ?_, hcommits.touches.marked h fun file hfile hid hstate => ?_⟩
    · obtain ⟨row, -, ⟨-, rfl⟩ | ⟨-, hash, bytes, rows, -, -, -, -, -, rfl⟩⟩ := commitFile_spec hok
      · exact fun file hfile => hfile
      · exact fun file hfile => List.mem_append_left _ hfile
    · rw [(hcommits.rows file hfile hid).2.1] at hstate
      cases hstate
  | commitDelete operation minimum now =>
    obtain ⟨row, -, ⟨-, rfl⟩ | ⟨-, -, projection, db₂, marker, hprojection, hle, -, hinsert, -, -,
      rfl⟩⟩ := commitDelete_spec hok
    · exact hsame rfl
    obtain ⟨hmem, hprojId⟩ := fileProjection_some hprojection
    obtain ⟨-, markers, rfl⟩ := insertMarkerOrIgnore_touches 0 hinsert
    have htouches := @touches_updateFile row.fileId db (fun file => { file with
      generation := row.generation, state := .deleted, deletionHash := some row.markerHash,
      deletedAt := some row.deletedAt, updatedAt := now }) fun _ => rfl
    have hkeeps := keepsFiles_updateFile db row.fileId (f := fun file => { file with
      generation := row.generation, state := .deleted, deletionHash := some row.markerHash,
      deletedAt := some row.deletedAt, updatedAt := now }) fun _ => rfl
    refine ⟨(hkeeps.trans (.of_eq rfl)).forward fun file hfile hid file' hfile' hid' => ?_, ?_⟩
    · obtain ⟨old, -, -, rfl⟩ := mem_updateFile hfile' hid'
      obtain rfl := h.file_unique hfile hmem (hid.trans hprojId.symm)
      exact ⟨hle, fun _ => .inl rfl⟩
    · refine Marked.of_files
        (htouches.marked h fun file hfile hid _ => ?_) rfl
      obtain ⟨old, -, -, rfl⟩ := mem_updateFile hfile hid
      rfl
  | applyRecoveredManifest manifest hash bytes now =>
    have hcommits := applyRecoveredManifest_commits hok
    obtain ⟨hkeeps, hgen⟩ := applyRecoveredManifest_keeps hok
    refine ⟨hkeeps.forward fun file hfile hid file' hfile' hid' => ?_,
      hcommits.touches.marked h fun file hfile hid hstate => ?_⟩
    · have hrow := (hcommits.rows file' hfile' hid').1
      refine ⟨?_, fun _ => .inr ⟨manifest, hash, bytes, now, rfl, hid.symm, hrow⟩⟩
      rw [hrow]
      exact hgen file (hid ▸ h.fileProjection hfile)
    · rw [(hcommits.rows file hfile hid).2.1] at hstate
      cases hstate
  | applyRecoveredDeletion marker hash now =>
    have hdeletes := applyRecoveredDeletion_deletes hok
    obtain ⟨hkeeps, hgen⟩ := applyRecoveredDeletion_keeps hok
    refine ⟨hkeeps.forward fun file hfile hid file' hfile' hid' => ?_,
      hdeletes.touches.marked h fun file hfile hid _ => ?_⟩
    · obtain ⟨hrow, hstate, -, -⟩ := hdeletes.rows file' hfile' hid'
      refine ⟨?_, fun _ => .inl hstate⟩
      rw [hrow]
      exact hgen file (hid ▸ h.fileProjection hfile)
    · rw [(hdeletes.rows file hfile hid).2.2.1]
      rfl
  | markRecoveryBlocked file generation deletionHash issue now =>
    refine ⟨h.blocked hok, ?_⟩
    rcases markRecoveryBlocked_spec hok with rfl | ⟨htouches, -, hrows⟩
    · exact h
    refine htouches.marked h fun row hrow hid hstate => ?_
    have hblocked := hrows row hrow hid
    cases hmarker : db.blockedMarker file deletionHash with
    | none =>
      rw [hmarker] at hblocked
      exact absurd (hstate.symm.trans hblocked) (by decide)
    | some hash =>
      rw [hmarker] at hblocked
      rw [hblocked.2]
      rfl
  | recordGcProof id proof =>
    obtain ⟨-, rfl⟩ := recordGcProof_spec hok
    exact hsame rfl
  | finishGcProof id status =>
    cases hok
    exact hsame rfl
  | _ => exact hsame (Write.sameHistory hok trivial).files

end Forward

end Metadata

end DistrHnsw
