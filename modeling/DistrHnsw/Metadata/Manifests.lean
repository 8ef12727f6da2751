import DistrHnsw.Metadata.Files
import DistrHnsw.Metadata.Fleet
import DistrHnsw.Metadata.Generations

/-!
# Manifests that agents accept

A manifest is sealed with fresh randomness, so only the plan in the uploads table makes a retry send
the same one again.  `Vouched` is what the tables promise about the manifests the agents hold, and
`Stocked` what the agents hold; every write of an upload or of a recovery keeps both.
-/

namespace DistrHnsw

namespace Metadata

open Program Portal Database

/-- Some agent holds the object. -/
def Fleet.Holds (fleet : Fleet) (object : ObjectId) : Prop :=
  ∃ agent, fleet.holds agent object = true

/-- The manifest an agent holds under a hash. -/
def Fleet.HoldsManifest (fleet : Fleet) (hash : ObjectHash) : Prop := fleet.Holds ⟨.manifest, hash⟩

section

variable [Sealing] {past past' : List (Event portalWorld)} {fleet fleet' : Fleet} {db db₁ : Database}
  {hash other : ObjectHash} {file : FileId} {generation : ℕ} {bytes : Bytes}

/-! ## What manifests speak for -/

/-- The bytes named by the hash are a manifest of the file at the generation. -/
def Speaks (hash : ObjectHash) (file : FileId) (generation : ℕ) : Prop :=
  ∃ bytes manifest, Sealing.digest bytes = hash ∧ Sealing.decodeManifest bytes = some manifest ∧
    manifest.fileId = file ∧ manifest.generation = generation

theorem Speaks.unique (hdigest : Function.Injective Sealing.digest) {file' : FileId}
    {generation' : ℕ} (h : Speaks hash file generation) (h' : Speaks hash file' generation') :
    file = file' ∧ generation = generation' := by
  obtain ⟨bytes, manifest, hbytes, hdecode, rfl, rfl⟩ := h
  obtain ⟨bytes', manifest', hbytes', hdecode', rfl, rfl⟩ := h'
  rw [hdigest (hbytes.trans hbytes'.symm), hdecode'] at hdecode
  cases hdecode
  exact ⟨rfl, rfl⟩

/-- The file identifier an event draws. -/
def drawnFile : Event portalWorld → Option FileId
  | .asked _ .freshUpload fresh => some (FreshUpload.fileId fresh)
  | _ => none

def drawn (past : List (Event portalWorld)) : List FileId := past.filterMap drawnFile

/-- A sealed manifest opens as one of its upload. -/
def SealsOwn : Event portalWorld → Prop
  | .asked _ (.encodeManifest upload _) (some bytes) => ∃ manifest,
      Sealing.decodeManifest bytes = some manifest ∧ manifest.fileId = upload.fileId ∧
        manifest.generation = upload.generation
  | _ => True

/-- Identifiers are drawn once, and sealing keeps what is sealed. -/
def Regular (past : List (Event portalWorld)) : Prop :=
  (drawn past).Nodup ∧ ∀ event ∈ past, SealsOwn event

theorem Regular.before {later : List (Event portalWorld)} (h : Regular (past ++ later)) :
    Regular past := by
  refine ⟨?_, fun event hevent => h.2 event (List.mem_append_left _ hevent)⟩
  have hnodup := h.1
  unfold drawn at hnodup
  rw [List.filterMap_append] at hnodup
  exact hnodup.of_append_left

omit [Sealing] in
theorem mem_drawn_append (later : List (Event portalWorld)) (h : file ∈ drawn past) :
    file ∈ drawn (past ++ later) := by
  unfold drawn
  rw [List.filterMap_append]
  exact List.mem_append_left _ h

/-! ## What tables and agents promise -/

/-- The planned manifest is one of the upload; when it is committed, some agent holds it. -/
structure UploadVouched (past : List (Event portalWorld)) (fleet : Fleet) (row : UploadRow) : Prop where
  known : row.fileId ∈ drawn past
  first : row.generation = 1
  plan : ∀ hash bytes, row.manifest = some (hash, bytes) →
    Sealing.digest bytes = hash ∧ Speaks hash row.fileId 1
  landed : row.state = .committed → ∃ hash bytes, row.manifest = some (hash, bytes) ∧
    fleet.HoldsManifest hash

/-- Nothing is deleted, and some agent holds the manifest of the file. -/
structure FileVouched (fleet : Fleet) (row : FileRow) : Prop where
  kept : row.state ≠ .deleted
  first : row.generation = 1
  manifest : ∀ hash, row.manifestHash = some hash → fleet.HoldsManifest hash ∧ Speaks hash row.fileId 1

structure Vouched (past : List (Event portalWorld)) (fleet : Fleet) (db : Database) : Prop where
  apart : db.uploads.Pairwise fun a b => a.uploadId ≠ b.uploadId ∧ a.fileId ≠ b.fileId
  uploads : ∀ row ∈ db.uploads, UploadVouched past fleet row
  files : ∀ row ∈ db.files, FileVouched fleet row

/-- Agents hold at most one manifest of each file, of files that were drawn, and no marker. -/
structure Stocked (past : List (Event portalWorld)) (fleet : Fleet) : Prop where
  noMarkers : ∀ hash, ¬ fleet.Holds ⟨.deletionMarker, hash⟩
  manifests : ∀ hash, fleet.HoldsManifest hash → ∃ file ∈ drawn past, Speaks hash file 1
  one : ∀ a b file, fleet.HoldsManifest a → fleet.HoldsManifest b → Speaks a file 1 →
    Speaks b file 1 → a = b

/-- Every manifest of the upload that agents hold is the planned one. -/
def Agrees (fleet : Fleet) (row : UploadRow) : Prop :=
  ∀ hash, fleet.HoldsManifest hash → Speaks hash row.fileId 1 →
    ∃ bytes, row.manifest = some (hash, bytes)

theorem UploadVouched.mono {row : UploadRow} (h : UploadVouched past fleet row)
    (hdrawn : ∀ file ∈ drawn past, file ∈ drawn past')
    (hholds : ∀ hash, fleet.HoldsManifest hash → fleet'.HoldsManifest hash) :
    UploadVouched past' fleet' row where
  known := hdrawn _ h.known
  first := h.first
  plan := h.plan
  landed hstate := by
    obtain ⟨hash, bytes, hplan, hheld⟩ := h.landed hstate
    exact ⟨hash, bytes, hplan, hholds hash hheld⟩

theorem FileVouched.mono {row : FileRow} (h : FileVouched fleet row)
    (hholds : ∀ hash, fleet.HoldsManifest hash → fleet'.HoldsManifest hash) :
    FileVouched fleet' row :=
  ⟨h.kept, h.first, fun hash hmanifest =>
    ⟨hholds hash (h.manifest hash hmanifest).1, (h.manifest hash hmanifest).2⟩⟩

theorem Vouched.mono (h : Vouched past fleet db) (hdrawn : ∀ file ∈ drawn past, file ∈ drawn past')
    (hholds : ∀ hash, fleet.HoldsManifest hash → fleet'.HoldsManifest hash) :
    Vouched past' fleet' db :=
  ⟨h.apart, fun row hrow => (h.uploads row hrow).mono hdrawn hholds,
    fun row hrow => (h.files row hrow).mono hholds⟩

theorem Vouched.new : Vouched past fleet .new :=
  ⟨.nil, fun _ h => absurd h List.not_mem_nil, fun _ h => absurd h List.not_mem_nil⟩

theorem Vouched.of_eq (h : Vouched past fleet db) (huploads : db₁.uploads = db.uploads)
    (hfiles : db₁.files = db.files) : Vouched past fleet db₁ :=
  ⟨huploads ▸ h.apart, huploads ▸ h.uploads, hfiles ▸ h.files⟩

theorem Vouched.upload_unique (h : Vouched past fleet db) {a b : UploadRow} (ha : a ∈ db.uploads)
    (hb : b ∈ db.uploads) (hid : a.uploadId = b.uploadId) : a = b :=
  eq_of_key h.apart (fun _ _ h => h.1) ha hb hid

theorem Vouched.upload_unique_file (h : Vouched past fleet db) {a b : UploadRow} (ha : a ∈ db.uploads)
    (hb : b ∈ db.uploads) (hid : a.fileId = b.fileId) : a = b :=
  eq_of_key h.apart (fun _ _ h => h.2) ha hb hid

/-! ## Writes -/

/-- A change of one upload that stays vouched for. -/
theorem Vouched.updateUpload (h : Vouched past fleet db) {upload : UploadId}
    {f : UploadRow → UploadRow}
    (hid : ∀ row, (f row).uploadId = row.uploadId ∧ (f row).fileId = row.fileId)
    (hf : ∀ row ∈ db.uploads, row.uploadId = upload → UploadVouched past fleet (f row)) :
    Vouched past fleet (db.updateUpload upload f) where
  apart := by
    refine List.pairwise_map.2 (h.apart.imp fun {a b} hab => ?_)
    have hsame (row : UploadRow) :
        (if row.uploadId = upload then f row else row).uploadId = row.uploadId ∧
        (if row.uploadId = upload then f row else row).fileId = row.fileId := by
      split
      · exact hid row
      · exact ⟨rfl, rfl⟩
    rw [(hsame a).1, (hsame a).2, (hsame b).1, (hsame b).2]
    exact hab
  uploads row hrow := by
    obtain ⟨old, hold, rfl⟩ := List.mem_map.1 hrow
    by_cases hthis : old.uploadId = upload
    · rw [if_pos hthis]
      exact hf old hold hthis
    · rw [if_neg hthis]
      exact h.uploads old hold
  files := h.files

omit [Sealing] in
theorem createUpload_rows {upload : NewUpload} {now : Time} (h : db.createUpload upload now = .ok db₁) :
    (∀ other ∈ db.uploads, other.uploadId ≠ upload.uploadId ∧
      other.idempotencyKey ≠ upload.idempotencyKey ∧ other.fileId ≠ upload.fileId) ∧
      db₁.files = db.files ∧ db₁.uploads = db.uploads ++ [⟨upload.uploadId, upload.idempotencyKey,
        upload.requestFingerprint, upload.fileId, upload.info, .staging, 1, none, now⟩] := by
  unfold Database.createUpload at h
  obtain ⟨_, -, h⟩ := bind_eq_ok.1 h
  obtain ⟨db₂, hinsert, h⟩ := bind_eq_ok.1 h
  obtain ⟨hfresh, rfl⟩ := insertUpload_spec hinsert
  refine ⟨hfresh, ?_⟩
  refine foldlM_ok_induct (P := fun db₃ => db₃.files = db.files ∧ db₃.uploads = db.uploads ++
    [⟨upload.uploadId, upload.idempotencyKey, upload.requestFingerprint, upload.fileId,
      upload.info, .staging, 1, none, now⟩]) (fun db₃ chunk db₄ hdb₃ hchunk => ?_) ⟨rfl, rfl⟩ h
  obtain ⟨row, -, -, rfl⟩ := insertUploadChunk_spec hchunk
  exact hdb₃

/-- A new upload is vouched for. -/
theorem Vouched.createUpload (h : Vouched past fleet db) {upload : NewUpload} {now : Time}
    (hdrawn : upload.fileId ∈ drawn past) (hok : db.createUpload upload now = .ok db₁) :
    Vouched past fleet db₁ := by
  obtain ⟨hfresh, hfiles, huploads⟩ := createUpload_rows hok
  refine ⟨?_, fun row hrow => ?_, hfiles ▸ h.files⟩
  · rw [huploads, List.pairwise_append]
    refine ⟨h.apart, List.pairwise_singleton _ _, fun a ha b hb => ?_⟩
    rw [List.mem_singleton.1 hb]
    exact ⟨(hfresh a ha).1, (hfresh a ha).2.2⟩
  · rw [huploads] at hrow
    rcases List.mem_append.1 hrow with hrow | hrow
    · exact h.uploads row hrow
    · rw [List.mem_singleton.1 hrow]
      exact ⟨hdrawn, rfl, (fun _ _ h => nomatch h), (fun h => nomatch h)⟩

theorem Vouched.advanceUpload (h : Vouched past fleet db) {upload : UploadId}
    (hok : db.advanceUpload upload .replicatingChunks = .ok db₁) : Vouched past fleet db₁ := by
  obtain ⟨-, -, -, -, rfl⟩ := advanceUpload_spec hok
  refine h.updateUpload (by exact fun _ => ⟨rfl, rfl⟩) fun row hrow _ => ?_
  obtain ⟨hdrawn, hfirst, hplan, -⟩ := h.uploads row hrow
  exact ⟨hdrawn, hfirst, hplan, fun h => nomatch h⟩

/-- A plan of an own manifest is vouched for. -/
theorem Vouched.setManifestPlan (h : Vouched past fleet db) {upload : UploadId}
    (hbytes : Sealing.digest bytes = hash)
    (hspeaks : ∀ row ∈ db.uploads, row.uploadId = upload → Speaks hash row.fileId 1)
    (hok : db.setManifestPlan upload hash bytes = .ok db₁) : Vouched past fleet db₁ := by
  obtain ⟨-, -, -, ⟨rfl, -⟩ | ⟨-, rfl⟩⟩ := setManifestPlan_spec hok
  · exact h
  refine h.updateUpload (by exact fun _ => ⟨rfl, rfl⟩) fun row hrow hid => ?_
  obtain ⟨hdrawn, hfirst, -, -⟩ := h.uploads row hrow
  refine ⟨hdrawn, hfirst, fun own content hplan => ?_, fun h => nomatch h⟩
  cases hplan
  exact ⟨hbytes, hspeaks row hrow hid⟩

/-- A commit of a manifest that some agent holds is vouched for. -/
theorem Vouched.commitFile (h : Vouched past fleet db) {upload : UploadId} {minimum : ℕ} {now : Time}
    (hheld : ∀ row ∈ db.uploads, row.uploadId = upload → ∀ hash bytes,
      row.manifest = some (hash, bytes) → fleet.HoldsManifest hash)
    (hok : db.commitFile upload minimum now = .ok db₁) : Vouched past fleet db₁ := by
  obtain ⟨row, hrow, ⟨-, rfl⟩ | ⟨-, hash, bytes, rows, hplan, -, -, -, -, rfl⟩⟩ := commitFile_spec hok
  · exact h
  obtain ⟨hmem, rfl⟩ := uploadById_some hrow
  obtain ⟨-, hfirst, hplanned, -⟩ := h.uploads row hmem
  have huploads := h.updateUpload
    (f := fun row => { row with state := .committed }) (by exact fun _ => ⟨rfl, rfl⟩)
    fun own hown hid => by
      obtain rfl := h.upload_unique hown hmem hid
      obtain ⟨hdrawn, hfirst, hplans, -⟩ := h.uploads own hown
      exact ⟨hdrawn, hfirst, hplans, fun _ => ⟨hash, bytes, hplan, hheld own hown rfl hash bytes hplan⟩⟩
  refine ⟨huploads.apart, huploads.uploads, fun file hfile => ?_⟩
  rcases List.mem_append.1 hfile with hfile | hfile
  · exact h.files file hfile
  · rw [List.mem_singleton.1 hfile]
    refine ⟨(fun h => nomatch h), hfirst, fun own hown => ?_⟩
    cases hown
    exact ⟨hheld row hmem rfl hash bytes hplan, (hplanned hash bytes hplan).2⟩

omit [Sealing] in
/-- Linking an upload leaves the other uploads alone and commits the linked one to the manifest. -/
theorem linkUpload_uploads {manifest : DecodedManifest} (h : db.linkUpload manifest hash bytes = .ok db₁) :
    db₁.uploads = db.uploads ∨ ∃ upload ∈ db.uploads, upload.fileId = manifest.fileId ∧
      db₁.uploads = (db.updateUpload upload.uploadId fun row =>
        { row with state := .committed, manifest := some (hash, bytes) }).uploads := by
  unfold linkUpload at h
  split at h
  · cases h
    exact .inl rfl
  · next upload hfind =>
    split at h
    · cases h
      exact .inl rfl
    · obtain ⟨-, h⟩ := guard_eq_ok.1 h
      cases h
      exact .inr ⟨upload, List.mem_of_find?_eq_some hfind, by simpa using List.find?_some hfind, rfl⟩

omit [Sealing] in
theorem applyRecoveredManifest_uploads {manifest : DecodedManifest} {now : Time}
    (h : db.applyRecoveredManifest manifest hash bytes now = .ok db₁) :
    db₁.uploads = db.uploads ∨ ∃ upload ∈ db.uploads, upload.fileId = manifest.fileId ∧
      db₁.uploads = (db.updateUpload upload.uploadId fun row =>
        { row with state := .committed, manifest := some (hash, bytes) }).uploads := by
  unfold applyRecoveredManifest at h
  obtain ⟨_, _, h⟩ := bind_eq_ok.1 h
  obtain ⟨generation, _, h⟩ := bind_eq_ok.1 h
  obtain ⟨_, _, h⟩ := bind_eq_ok.1 h
  obtain ⟨db₂, hinsert, h⟩ := bind_eq_ok.1 h
  obtain ⟨persisted, _, h⟩ := bind_eq_ok.1 h
  obtain ⟨_, _, h⟩ := bind_eq_ok.1 h
  obtain ⟨db₄, hupsert, h⟩ := bind_eq_ok.1 h
  obtain ⟨db₅, hlink, h⟩ := bind_eq_ok.1 h
  cases h
  have hinserted : db₂.uploads = db.uploads := by
    rcases insertManifestOrIgnore_spec hinsert with rfl | rfl <;> rfl
  obtain ⟨rows, -, hfold⟩ := foldl_insertFileChunkOrIgnore manifest manifest.chunks db₂
  rw [hfold] at hupsert
  have hupserted : db₄.uploads = db.uploads := by
    rcases upsertFile_cases hupsert with ⟨-, rfl⟩ | ⟨-, rfl⟩ <;> exact hinserted
  have hlinked := linkUpload_uploads hlink
  unfold Database.updateUpload at hlinked ⊢
  rwa [hupserted] at hlinked

/-- A recovered manifest that some agent holds is vouched for. -/
theorem Vouched.applyRecoveredManifest (h : Vouched past fleet db) {manifest : DecodedManifest}
    {now : Time} (hbytes : Sealing.digest bytes = hash)
    (hdecode : Sealing.decodeManifest bytes = some manifest) (hfirst : manifest.generation = 1)
    (hheld : fleet.HoldsManifest hash)
    (hok : db.applyRecoveredManifest manifest hash bytes now = .ok db₁) : Vouched past fleet db₁ := by
  have hspeaks : Speaks hash manifest.fileId 1 := ⟨bytes, manifest, hbytes, hdecode, rfl, hfirst⟩
  have hcommits := applyRecoveredManifest_commits hok
  have huploads : Vouched past fleet { db with uploads := db₁.uploads } := by
    rcases applyRecoveredManifest_uploads hok with heq | ⟨upload, hmem, hid, heq⟩
    · rw [heq]
      exact h
    · rw [heq]
      refine h.updateUpload (by exact fun _ => ⟨rfl, rfl⟩) fun row hrow hsame => ?_
      obtain rfl := h.upload_unique hrow hmem hsame
      obtain ⟨hdrawn, hrowFirst, -, -⟩ := h.uploads row hrow
      refine ⟨hdrawn, hrowFirst, fun own content hplan => ?_, fun _ => ⟨hash, bytes, rfl, hheld⟩⟩
      cases hplan
      exact ⟨hbytes, hid ▸ hspeaks⟩
  refine ⟨huploads.apart, huploads.uploads, fun file hfile => ?_⟩
  by_cases hid : file.fileId = manifest.fileId
  · obtain ⟨hgen, hstate, hhash⟩ := hcommits.rows file hfile hid
    have hkept : file.state ≠ .deleted := by
      rw [hstate]
      decide
    refine ⟨hkept, hgen.trans hfirst, fun own hown => ?_⟩
    rw [hhash] at hown
    cases hown
    exact ⟨hheld, hid ▸ hspeaks⟩
  · exact h.files file (hcommits.touches.files file hfile hid)

omit [Sealing] in
theorem markRecoveryBlocked_uploads {deletionHash : Option ObjectHash} {issue : String} {now : Time}
    (h : db.markRecoveryBlocked file generation deletionHash issue now = .ok db₁) :
    db₁.uploads = db.uploads := by
  unfold markRecoveryBlocked at h
  obtain ⟨generation', -, h⟩ := bind_eq_ok.1 h
  split at h
  · cases h
    rfl
  · obtain ⟨db₂, hupsert, h⟩ := bind_eq_ok.1 h
    cases h
    rcases upsertFile_cases hupsert with ⟨-, rfl⟩ | ⟨-, rfl⟩ <;> rfl

/-- A file blocked at its first generation without a marker is vouched for. -/
theorem Vouched.markRecoveryBlocked (h : Vouched past fleet db) {issue : String} {now : Time}
    (hok : db.markRecoveryBlocked file 1 none issue now = .ok db₁) : Vouched past fleet db₁ := by
  have huploads := markRecoveryBlocked_uploads hok
  have hmarker : db.blockedMarker file none = none := by
    unfold blockedMarker
    cases hrow : db.fileProjection file with
    | none => rfl
    | some row =>
      have hkept := (h.files row (List.mem_of_find?_eq_some hrow)).kept
      simp [Option.filter, hkept]
  refine ⟨huploads ▸ h.apart, huploads ▸ h.uploads, fun row hrow => ?_⟩
  rcases markRecoveryBlocked_cases hok with rfl | ⟨-, hfiles⟩ | hfiles
  · exact h.files row hrow
  · rw [hfiles, hmarker] at hrow
    rcases List.mem_append.1 hrow with hrow | hrow
    · exact h.files row hrow
    · rw [List.mem_singleton.1 hrow]
      exact ⟨(fun h => nomatch h), rfl, (fun _ h => nomatch h)⟩
  · rw [hfiles, hmarker] at hrow
    obtain ⟨old, hold, rfl⟩ := List.mem_map.1 hrow
    split
    · obtain ⟨-, hfirst, hmanifest⟩ := h.files old hold
      refine ⟨(fun h => nomatch h), ?_, hmanifest⟩
      show max old.generation 1 = 1
      rw [hfirst]
      rfl
    · exact h.files old hold

/-! ## Answers -/

/-- The agents hold the same manifests and markers. -/
def SameControls (fleet fleet' : Fleet) : Prop :=
  ∀ object, object.kind ≠ .chunk → (fleet'.Holds object ↔ fleet.Holds object)

omit [Sealing] in
theorem SameControls.manifest (h : SameControls fleet fleet') :
    fleet'.HoldsManifest hash ↔ fleet.HoldsManifest hash := h _ (by exact fun h => nomatch h)

omit [Sealing] in
theorem Fleet.holds_setHolds {agent : AgentId} {object thing : ObjectId} :
    (fleet.setHolds agent object true).Holds thing ↔ thing = object ∨ fleet.Holds thing := by
  unfold Fleet.Holds Fleet.setHolds
  by_cases hthing : thing = object
  · simp only [hthing, true_or, iff_true, and_true]
    exact ⟨agent, if_pos rfl⟩
  · simp [hthing]

theorem Stocked.same (h : Stocked past fleet) (hsame : SameControls fleet fleet')
    (hdrawn : ∀ file ∈ drawn past, file ∈ drawn past') : Stocked past' fleet' where
  noMarkers hash hheld := h.noMarkers hash ((hsame _ (by exact fun h => nomatch h)).1 hheld)
  manifests hash hheld := by
    obtain ⟨file, hfile, hspeaks⟩ := h.manifests hash (hsame.manifest.1 hheld)
    exact ⟨file, hdrawn file hfile, hspeaks⟩
  one a b file ha hb := h.one a b file (hsame.manifest.1 ha) (hsame.manifest.1 hb)

theorem Agrees.same {row : UploadRow} (h : Agrees fleet row) (hsame : SameControls fleet fleet') :
    Agrees fleet' row := fun hash hheld => h hash (hsame.manifest.1 hheld)

/-- The manifest of an upload is stored whose other manifests no agent holds. -/
theorem Stocked.stored (h : Stocked past fleet) (hdigest : Function.Injective Sealing.digest)
    {agent : AgentId} (hfile : file ∈ drawn past) (hspeaks : Speaks hash file 1)
    (hown : ∀ other, fleet.HoldsManifest other → Speaks other file 1 → other = hash) :
    Stocked past (fleet.setHolds agent ⟨.manifest, hash⟩ true) where
  noMarkers other hheld := by
    rcases Fleet.holds_setHolds.1 hheld with heq | hheld
    · cases heq
    · exact h.noMarkers other hheld
  manifests other hheld := by
    rcases Fleet.holds_setHolds.1 hheld with heq | hheld
    · cases heq
      exact ⟨file, hfile, hspeaks⟩
    · exact h.manifests other hheld
  one a b thing ha hb hspeaksA hspeaksB := by
    rcases Fleet.holds_setHolds.1 ha with heqA | hheldA
    · cases heqA
      obtain ⟨rfl, -⟩ := hspeaksA.unique hdigest hspeaks
      rcases Fleet.holds_setHolds.1 hb with heqB | hheldB
      · cases heqB
        rfl
      · exact (hown b hheldB hspeaksB).symm
    · rcases Fleet.holds_setHolds.1 hb with heqB | hheldB
      · cases heqB
        obtain ⟨rfl, -⟩ := hspeaksB.unique hdigest hspeaks
        exact hown a hheldA hspeaksA
      · exact h.one a b thing hheldA hheldB hspeaksA hspeaksB

end

end Metadata

end DistrHnsw
