import DistrHnsw.Metadata.Files
import DistrHnsw.Metadata.Generations
import DistrHnsw.Metadata.Visibility

/-!
# Replica floors and retries

Any number of uploads and deletes, each with agents and a memory of its own, over one database and
any outside world, in any interleaving, each stopping anywhere.  Files become committed or deleted
only above the replica floor; calls with one key return one file, and a file has one marker.
-/

namespace DistrHnsw

namespace Metadata

open Program Portal Database

/-! ## The floor -/

/-- The placement is confirmed and under an active incarnation. -/
def Database.ConfirmedOnActive (db : Database) (row : Placement) : Prop :=
  row.state = .confirmed ∧
    ∃ incarnation, row.incarnationId = some incarnation ∧ db.activeIncarnation incarnation = true

/-- The object has such placements in two failure domains. -/
def Database.FloorMet (db : Database) (object : ObjectId) : Prop :=
  ∃ a ∈ db.placements, ∃ b ∈ db.placements, a.object = object ∧ b.object = object ∧
    db.ConfirmedOnActive a ∧ db.ConfirmedOnActive b ∧ a.failureDomain ≠ b.failureDomain

/-- Whatever a file requires when it becomes committed or deleted is above the floor. -/
def Floored : Event portalWorld → Prop
  | .wrote db w => ∀ db', w.perform db = .ok db' → ∀ file, Becomes db db' file →
      ∀ object, db'.Requires file object → db.FloorMet object
  | .asked _ _ _ => True

namespace Database

variable {db db₁ : Database}

theorem floorMet_of_requireReplicaFloor {object : ObjectId}
    (hlocated : ∀ row ∈ db.placements, row.incarnationId.isSome)
    (h : db.requireReplicaFloor object minimumReplicas = .ok ()) : db.FloorMet object := by
  unfold requireReplicaFloor at h
  rw [ensure_eq_ok, decide_eq_true_eq] at h
  obtain ⟨x, hx, y, hy, hne⟩ := two_le_dedup_length
    (l := (db.placements.filter fun row : Placement =>
      row.object == object && db.liveConfirmed row).map Placement.failureDomain) h
  have hheld (d : Domain) (hd : d ∈ (db.placements.filter fun row =>
      row.object == object && db.liveConfirmed row).map (·.failureDomain)) :
      ∃ row ∈ db.placements, row.object = object ∧ db.ConfirmedOnActive row ∧
        row.failureDomain = d := by
    obtain ⟨row, hrow, rfl⟩ := List.mem_map.1 hd
    simp only [liveConfirmed, List.mem_filter, Bool.and_eq_true, beq_iff_eq] at hrow
    obtain ⟨hmem, hobject, hstate, hactive⟩ := hrow
    obtain ⟨incarnation, hsome⟩ := Option.isSome_iff_exists.1 (hlocated row hmem)
    rw [hsome] at hactive
    exact ⟨row, hmem, hobject, ⟨hstate, incarnation, hsome, hactive⟩, rfl⟩
  obtain ⟨a, ha, haObject, haHeld, rfl⟩ := hheld x hx
  obtain ⟨b, hb, hbObject, hbHeld, rfl⟩ := hheld y hy
  exact ⟨a, ha, b, hb, haObject, hbObject, haHeld, hbHeld, hne⟩

theorem Sound.floored_commitFile (h : db.Sound) {upload : UploadId} {now : Time}
    (hok : db.commitFile upload minimumReplicas now = .ok db₁) {file : FileRow}
    (hbecomes : Becomes db db₁ file) {object : ObjectId} (hrequires : db₁.Requires file object) :
    db.FloorMet object := by
  obtain ⟨row, hrow, ⟨-, rfl⟩ | ⟨-, hash, bytes, rows, -, hfloor, hfloors, hrows, hno, rfl⟩⟩ :=
    commitFile_spec hok
  · exact absurd hbecomes (not_becomes hbecomes.1)
  rcases List.mem_append.1 hbecomes.1 with hold | hnew
  · exact absurd hbecomes (not_becomes hold)
  obtain rfl := List.mem_singleton.1 hnew
  obtain ⟨kind, hash'⟩ := object
  cases kind with
  | manifest =>
    obtain ⟨-, heq⟩ := hrequires
    obtain rfl := Option.some.inj heq
    exact floorMet_of_requireReplicaFloor h.located hfloor
  | chunk =>
    obtain ⟨-, chunk, hchunk, rfl, hfileId, -⟩ := hrequires
    rcases List.mem_append.1 hchunk with hold | hnew
    · -- The file had no chunks before.
      have hnone := (h.unborn hno).2.2.1
      exact absurd hfileId (rowsOf_eq_nil.1 hnone chunk hold)
    · obtain ⟨plan, hplan, hcommitted⟩ := mapM_ok_mem hrows chunk hnew
      have hplanFloor := forM_ok_mem hfloors plan hplan
      unfold committedChunk at hcommitted
      unfold requireChunkFloor at hplanFloor
      cases hobject : plan.object with
      | none =>
        rw [hobject] at hcommitted
        cases hcommitted
      | some object =>
        rw [hobject] at hcommitted hplanFloor
        cases hcommitted
        exact floorMet_of_requireReplicaFloor h.located hplanFloor
  | deletionMarker =>
    obtain ⟨hstate, -⟩ := hrequires
    cases hstate

theorem Sound.floored_commitDelete (h : db.Sound) {operation : OperationId} {now : Time}
    (hok : db.commitDelete operation minimumReplicas now = .ok db₁) {file : FileRow}
    (hbecomes : Becomes db db₁ file) {object : ObjectId} (hrequires : db₁.Requires file object) :
    db.FloorMet object := by
  obtain ⟨row, hrow, ⟨-, rfl⟩ | ⟨-, hfloor, projection, db₂, marker, -, -, -, hinsert, -, -, rfl⟩⟩ :=
    commitDelete_spec hok
  · exact absurd hbecomes (not_becomes hbecomes.1)
  have hfiles : db₂.files = db.files := by
    obtain ⟨-, markers, rfl⟩ := insertMarkerOrIgnore_touches 0 hinsert
    rfl
  obtain ⟨old, hold, heq⟩ := List.mem_map.1 hbecomes.1
  rw [hfiles] at hold
  split at heq
  · subst heq
    obtain ⟨kind, hash⟩ := object
    cases kind with
    | deletionMarker =>
      obtain ⟨-, heq⟩ := hrequires
      obtain rfl := Option.some.inj heq
      exact floorMet_of_requireReplicaFloor h.located hfloor
    | manifest => exact absurd hrequires.1 (fun hstate => nomatch hstate)
    | chunk => exact absurd hrequires.1 (fun hstate => nomatch hstate)
  · subst heq
    exact absurd hbecomes (not_becomes hold)

/-- A write of an upload or a delete makes files committed or deleted only above the floor. -/
theorem Sound.floored (h : db.Sound) {w : Write} (hw : w.ByUpload ∨ w.ByDelete) :
    Floored (.wrote db w) := by
  intro db₁ hok file hbecomes object hrequires
  have hsame (hfiles : db₁.files = db.files) : db.FloorMet object :=
    absurd hbecomes (not_becomes (hfiles ▸ hbecomes.1))
  cases w with
  | commitFile upload minimum now =>
    obtain rfl : minimum = minimumReplicas := hw.elim (fun h => h) fun h => h.elim
    exact h.floored_commitFile hok hbecomes hrequires
  | commitDelete operation minimum now =>
    obtain rfl : minimum = minimumReplicas := hw.elim (fun h => h.elim) fun h => h
    exact h.floored_commitDelete hok hbecomes hrequires
  | createUpload | advanceUpload | setChunkObject | setManifestPlan | createDeleteOperation |
    observeAgentIncarnation | ensurePendingPlacement | confirmPlacement =>
    exact hsame (Write.sameHistory hok trivial).files
  | _ => exact (hw.elim (fun h => h.elim) fun h => h.elim)

end Database

/-! ## Rows that stay -/

/-- Uploads and delete operations keep their identity, and stay committed. -/
structure Advances (db db' : Database) : Prop where
  uploads : ∀ row ∈ db.uploads, ∃ row' ∈ db'.uploads, row'.uploadId = row.uploadId ∧
    row'.idempotencyKey = row.idempotencyKey ∧ row'.fileId = row.fileId ∧
    (row.state = .committed → row'.state = .committed)
  operations : ∀ op ∈ db.deleteOperations, ∃ op' ∈ db'.deleteOperations,
    op'.operationId = op.operationId ∧ op'.idempotencyKey = op.idempotencyKey ∧
    op'.fileId = op.fileId ∧ op'.generation = op.generation ∧ op'.markerHash = op.markerHash ∧
    (op.state = .committed → op'.state = .committed)

theorem Advances.refl (db : Database) : Advances db db :=
  ⟨fun row hrow => ⟨row, hrow, rfl, rfl, rfl, id⟩,
    fun op hop => ⟨op, hop, rfl, rfl, rfl, rfl, rfl, id⟩⟩

theorem Advances.trans {a b c : Database} (h₁ : Advances a b) (h₂ : Advances b c) : Advances a c where
  uploads row hrow := by
    obtain ⟨row₁, hrow₁, hid₁, hkey₁, hfile₁, hstate₁⟩ := h₁.uploads row hrow
    obtain ⟨row₂, hrow₂, hid₂, hkey₂, hfile₂, hstate₂⟩ := h₂.uploads row₁ hrow₁
    exact ⟨row₂, hrow₂, hid₂.trans hid₁, hkey₂.trans hkey₁, hfile₂.trans hfile₁,
      fun h => hstate₂ (hstate₁ h)⟩
  operations op hop := by
    obtain ⟨op₁, hop₁, hid₁, hkey₁, hfile₁, hgen₁, hhash₁, hstate₁⟩ := h₁.operations op hop
    obtain ⟨op₂, hop₂, hid₂, hkey₂, hfile₂, hgen₂, hhash₂, hstate₂⟩ := h₂.operations op₁ hop₁
    exact ⟨op₂, hop₂, hid₂.trans hid₁, hkey₂.trans hkey₁, hfile₂.trans hfile₁, hgen₂.trans hgen₁,
      hhash₂.trans hhash₁, fun h => hstate₂ (hstate₁ h)⟩

section Advances

variable {db db₁ : Database}

theorem Advances.of_eq (huploads : db₁.uploads = db.uploads)
    (hoperations : db₁.deleteOperations = db.deleteOperations) : Advances db db₁ := by
  refine ⟨fun row hrow => ?_, fun op hop => ?_⟩
  · exact ⟨row, huploads ▸ hrow, rfl, rfl, rfl, id⟩
  · exact ⟨op, hoperations ▸ hop, rfl, rfl, rfl, rfl, rfl, id⟩

/-- A change of uploads other than the committed ones. -/
theorem Advances.updateUpload (db : Database) (upload : UploadId) {f : UploadRow → UploadRow}
    (hid : ∀ row, (f row).uploadId = row.uploadId ∧ (f row).idempotencyKey = row.idempotencyKey ∧
      (f row).fileId = row.fileId)
    (hstate : ∀ row ∈ db.uploads, row.uploadId = upload → row.state = .committed →
      (f row).state = .committed) : Advances db (db.updateUpload upload f) where
  uploads row hrow := by
    refine ⟨_, List.mem_map.2 ⟨row, hrow, rfl⟩, ?_⟩
    split
    · next hthis => exact ⟨(hid row).1, (hid row).2.1, (hid row).2.2, hstate row hrow hthis⟩
    · exact ⟨rfl, rfl, rfl, id⟩
  operations op hop := ⟨op, hop, rfl, rfl, rfl, rfl, rfl, id⟩

theorem Advances.updatePending (h : db.Sound) {row : UploadRow} (hrow : row ∈ db.uploads)
    (hstate : row.state ≠ .committed) {f : UploadRow → UploadRow}
    (hid : ∀ row, (f row).uploadId = row.uploadId ∧ (f row).idempotencyKey = row.idempotencyKey ∧
      (f row).fileId = row.fileId) : Advances db (db.updateUpload row.uploadId f) := by
  refine .updateUpload db _ hid fun other hother hsame hcommitted => ?_
  rw [h.upload_unique_id hother hrow hsame] at hcommitted
  exact absurd hcommitted hstate

/-- The uploads and delete operations of a sound database only advance. -/
theorem Database.Sound.advances (h : db.Sound) {w : Write} (hw : w.ByUpload ∨ w.ByDelete)
    (hok : w.perform db = .ok db₁) : Advances db db₁ := by
  have hplaces : w.Locates → Advances db db₁ := fun hlocates => by
    have hframe := (Write.AboutHoldings.frame
      (.inl (by cases w <;> first | exact hlocates.elim | exact trivial)) hok).1
    exact .of_eq (congrArg Tables.uploads hframe) (congrArg Tables.deleteOperations hframe)
  cases w with
  | createUpload upload now =>
    obtain ⟨chunks, -, -, -, rfl⟩ := createUpload_spec h.plans hok
    exact ⟨fun row hrow => ⟨row, List.mem_append_left _ hrow, rfl, rfl, rfl, id⟩,
      fun op hop => ⟨op, hop, rfl, rfl, rfl, rfl, rfl, id⟩⟩
  | advanceUpload upload next =>
    obtain rfl : next = .replicatingChunks := hw.elim (fun h => h) fun h => h.elim
    obtain ⟨row, hmem, rfl, hstate, rfl⟩ := advanceUpload_spec hok
    exact .updatePending h hmem hstate fun _ => ⟨rfl, rfl, rfl⟩
  | setChunkObject upload ordinal hash len =>
    unfold Write.perform Database.setChunkObject at hok
    obtain ⟨row, -, hok⟩ := bind_eq_ok.1 hok
    split at hok
    · obtain ⟨_, -, hok⟩ := bind_eq_ok.1 hok
      cases hok
      exact .refl db
    · cases hok
      exact .of_eq rfl rfl
  | setManifestPlan upload hash bytes =>
    obtain ⟨row, hmem, rfl, ⟨rfl, -⟩ | ⟨hstate, rfl⟩⟩ := setManifestPlan_spec hok
    · exact .refl _
    · exact .updatePending h hmem (by rw [hstate]; decide) fun _ => ⟨rfl, rfl, rfl⟩
  | commitFile upload minimum now =>
    obtain ⟨row, -, ⟨-, rfl⟩ | ⟨-, hash, bytes, rows, -, -, -, -, -, rfl⟩⟩ := commitFile_spec hok
    · exact .refl _
    · exact (Advances.updateUpload db upload (f := fun row => { row with state := .committed })
        (fun _ => ⟨rfl, rfl, rfl⟩) fun _ _ _ _ => rfl).trans (.of_eq rfl rfl)
  | createDeleteOperation operation =>
    obtain ⟨projection, -, -, -, -, -, rfl⟩ := createDeleteOperation_spec hok
    exact ⟨fun row hrow => ⟨row, hrow, rfl, rfl, rfl, id⟩,
      fun op hop => ⟨op, List.mem_append_left _ hop, rfl, rfl, rfl, rfl, rfl, id⟩⟩
  | commitDelete operation minimum now =>
    obtain ⟨row, -, ⟨-, rfl⟩ | ⟨-, -, projection, db₂, marker, -, -, -, hinsert, -, -, rfl⟩⟩ :=
      commitDelete_spec hok
    · exact .refl _
    · obtain ⟨-, markers, rfl⟩ := insertMarkerOrIgnore_touches 0 hinsert
      refine ⟨fun row hrow => ⟨row, hrow, rfl, rfl, rfl, id⟩, fun op hop => ?_⟩
      refine ⟨_, List.mem_map.2 ⟨op, hop, rfl⟩, ?_⟩
      split
      · exact ⟨rfl, rfl, rfl, rfl, rfl, fun _ => rfl⟩
      · exact ⟨rfl, rfl, rfl, rfl, rfl, id⟩
  | observeAgentIncarnation agent incarnation => exact hplaces trivial
  | ensurePendingPlacement object agent incarnation => exact hplaces trivial
  | confirmPlacement object agent => exact hplaces trivial
  | _ => exact (hw.elim (fun h => h.elim) fun h => h.elim)

end Advances

/-! ## One call among others -/

section Calls

variable {O : Outside portalWorld} {x y : Scene O} {α β : Type}

/-- The database is sound, and nothing was committed or deleted below the floor. -/
structure Sane (x : Scene O) : Prop where
  sound : x.store.Sound
  floored : ∀ event ∈ x.past, Floored event

/-- What every step of every call keeps, and relies on. -/
def Proceeds (x y : Scene O) : Prop := Sane x → Sane y ∧ Advances x.store y.store

theorem Proceeds.refl (x : Scene O) : Proceeds x x := fun h => ⟨h, .refl _⟩

theorem Proceeds.trans {z : Scene O} (h₁ : Proceeds x y) (h₂ : Proceeds y z) : Proceeds x z :=
  fun h => ⟨(h₂ (h₁ h).1).1, (h₁ h).2.trans (h₂ (h₁ h).1).2⟩

/-- A write of an upload or a delete. -/
def Write.ByCall (w : Write) : Prop := w.ByUpload ∨ w.ByDelete

theorem proceeds_wrote {w : Write} (hw : w.ByCall) {s : Database}
    (hok : w.perform x.store = .ok s) : Proceeds x (x.wrote w s) := by
  intro h
  refine ⟨⟨h.sound.step hw hok, fun event hevent => ?_⟩, h.sound.advances hw hok⟩
  rcases List.mem_append.1 hevent with hold | hnew
  · exact h.floored event hold
  · rw [List.mem_singleton.1 hnew]
    exact h.sound.floored hw

theorem proceeds_asked {q : portalWorld.Query} (a : portalWorld.Answer q) (e : O.State) :
    Proceeds x (x.asked q a e) := by
  intro h
  refine ⟨⟨h.sound, fun event hevent => ?_⟩, .refl _⟩
  rcases List.mem_append.1 hevent with hold | hnew
  · exact h.floored event hold
  · rw [List.mem_singleton.1 hnew]
    trivial

/-- The program keeps what every call keeps, and ends as `Q` says. -/
abbrev Converges (p : Action α) (Q : α → Scene O → Prop) (x : Scene O) : Prop :=
  p.Safe (fun _ => True) Proceeds Proceeds Q x

/-- The assertion is kept by the steps of other calls. -/
def Stable (J : Scene O → Prop) : Prop := ∀ x y, J x → Proceeds x y → J y

/-- An assertion kept by the steps of others is kept by a part of the program itself. -/
theorem converges_then {p : Action α} {f : α → Action β} {J : Scene O → Prop}
    {Q : β → Scene O → Prop} {A : Query → Prop} (hp : p.Only Write.ByCall A) (hJ : Stable J)
    (hx : J x) (hf : ∀ a y, J y → Converges (f a) Q y) : Converges (p >>= f) Q x := by
  refine safe_bind.2 (Safe.mono (Q := fun _ => J) ?_ hf)
  refine hp.safe hx hJ (fun w hw x s hx hok _ => ?_) fun q _ x a e hx _ _ => ?_
  · exact ⟨proceeds_wrote hw hok, hJ _ _ hx (proceeds_wrote hw hok)⟩
  · exact ⟨proceeds_asked a e, hJ _ _ hx (proceeds_asked a e)⟩

theorem byCall_of_upload (w : Write) (h : w.ByUpload) : w.ByCall := .inl h

theorem byCall_of_delete (w : Write) (h : w.ByDelete) : w.ByCall := .inr h

theorem byCall_of_locates (w : Write) (h : w.Locates) : w.ByCall := .inl (byUpload_of_locates w h)

/-! ### Uploads -/

/-- The key has an upload of the file. -/
def HasUpload (key : IdempotencyKey) (file : FileId) (x : Scene O) : Prop :=
  Sane x ∧ ∃ row ∈ x.store.uploads, row.idempotencyKey = key ∧ row.fileId = file

/-- The key has a committed upload of the file. -/
def Uploaded (key : IdempotencyKey) (file : FileId) (x : Scene O) : Prop :=
  Sane x ∧ ∃ row ∈ x.store.uploads, row.idempotencyKey = key ∧ row.fileId = file ∧
    row.state = .committed

theorem stable_sane : Stable (Sane (O := O)) := fun _ _ h hy => (hy h).1

theorem stable_hasUpload (key : IdempotencyKey) (file : FileId) :
    Stable (HasUpload (O := O) key file) := by
  rintro x y ⟨hsane, row, hrow, rfl, rfl⟩ hy
  obtain ⟨hsane', hadvances⟩ := hy hsane
  obtain ⟨row', hrow', -, hkey, hfile, -⟩ := hadvances.uploads row hrow
  exact ⟨hsane', row', hrow', hkey, hfile⟩

theorem stable_uploaded (key : IdempotencyKey) (file : FileId) :
    Stable (Uploaded (O := O) key file) := by
  rintro x y ⟨hsane, row, hrow, rfl, rfl, hstate⟩ hy
  obtain ⟨hsane', hadvances⟩ := hy hsane
  obtain ⟨row', hrow', -, hkey, hfile, hcommitted⟩ := hadvances.uploads row hrow
  exact ⟨hsane', row', hrow', hkey, hfile, hcommitted hstate⟩

theorem Database.Sound.upload_of_file {db : Database} (h : db.Sound) {file : FileRow}
    (hfile : file ∈ db.files) :
    ∃ row ∈ db.uploads, row.fileId = file.fileId ∧ row.state = .committed := by
  have hmem : file ∈ (db.view file.fileId).files := mem_rowsOf.2 ⟨hfile, rfl⟩
  have hlanded {other : FileRow} (landed : (db.view file.fileId).Landed other) :
      ∃ row ∈ db.uploads, row.fileId = file.fileId ∧ row.state = .committed := by
    have hplan : (true, (db.view file.fileId).chunks.map (·.ordinal)) ∈
        (db.view file.fileId).plans := by
      rw [landed.plans]
      exact List.mem_singleton_self _
    obtain ⟨row, hrow, heq⟩ := List.mem_map.1 hplan
    obtain ⟨hrow, hid⟩ := mem_rowsOf.1 hrow
    exact ⟨row, hrow, hid, eq_of_beq (congrArg Prod.fst heq)⟩
  cases h.life file.fileId with
  | unborn plans files =>
    rw [files] at hmem
    exact absurd hmem List.not_mem_nil
  | committed other hash landed => exact hlanded landed
  | deleted other marker landed => exact hlanded landed

variable [Sealing]

theorem converges_transfer {agents : List AgentTarget} {memory : Memory} {source : Source}
    {upload : UploadRow} {key : IdempotencyKey} (hx : HasUpload key upload.fileId x) :
    Converges (transfer agents memory source upload) (Uploaded key) x := by
  have hJ := stable_hasUpload (O := O) key upload.fileId
  have hupload {α : Type} {p : Action α} {A : Query → Prop} (h : p.Only Write.ByUpload A) :
      p.Only Write.ByCall A := h.mono byCall_of_upload fun _ h => h
  refine converges_then (A := Query.Keeps) (only_requireAdmissibleCapacity _ _ _) hJ hx
    fun _ x hx => ?_
  refine converges_then (A := Query.Keeps) (only_onlyIf (only_write (.inl rfl))) hJ hx
    fun _ x hx => ?_
  refine converges_then (A := Query.Keeps) only_get hJ hx fun db x hx => ?_
  refine converges_then (hupload (only_mapM fun plan _ => only_sendChunk byUpload_of_locates
    keeps_of_reads agents memory source upload plan (fun _ _ => trivial) fun _ _ _ => trivial)) hJ hx
    fun records x hx => ?_
  refine converges_then (A := Query.Keeps) (only_query trivial) hJ hx fun _ x hx => ?_
  refine converges_then (A := Query.Keeps) (only_failIf _) hJ hx fun _ x hx => ?_
  refine converges_then (hupload (only_planManifest upload records)) hJ hx fun plan x hx => ?_
  refine converges_then (A := Query.Keeps) (only_replicate byCall_of_locates agents memory
    fun _ => trivial) hJ hx fun _ x hx => ?_
  refine converges_then (only_ensureLiveUploadReplicaFloor keeps_of_reads agents _ _) hJ hx
    fun _ x hx => ?_
  refine converges_then (A := Query.Keeps) (only_query trivial) hJ hx fun time x hx => ?_
  refine converges_then (A := Query.Keeps) (only_write (.inl rfl)) hJ hx fun _ x hx => ?_
  refine safe_bind.2 (safe_database.2 fun y hy => safe_bind.2 (safe_require fun file hfile => ?_))
  -- A committed file has a committed upload, which is the one of this key.
  obtain ⟨hsane, row, hrow, hkey, hid⟩ := hJ x y hx hy
  have hfile' := List.find?_some hfile
  simp only [Bool.and_eq_true, beq_iff_eq] at hfile'
  obtain ⟨own, hown, hownId, hstate⟩ :=
    hsane.sound.upload_of_file (List.mem_of_find?_eq_some hfile)
  have heq := hsane.sound.upload_unique hrow hown (hid.trans (hfile'.1.symm.trans hownId.symm))
  exact ⟨hsane, row, hrow, hkey, hid.trans hfile'.1.symm, heq ▸ hstate⟩

theorem converges_upload (agents : List AgentTarget) (memory : Memory) (source : Source)
    (key : IdempotencyKey) (hx : Sane x) :
    Converges (Portal.upload agents memory source key) (Uploaded key) x := by
  refine safe_bind.2 (safe_database.2 fun y hy => ?_)
  have hsane := stable_sane x y hx hy
  split
  · next existing hexisting =>
    obtain ⟨hmem, hkey⟩ := uploadByIdempotency_some hexisting
    have hupload : HasUpload key existing.fileId y := ⟨hsane, existing, hmem, hkey, rfl⟩
    have hJ := stable_hasUpload (O := O) key existing.fileId
    split
    · next hcommitted =>
      have huploaded : Uploaded key existing.fileId y :=
        ⟨hsane, existing, hmem, hkey, rfl, hcommitted⟩
      have hJ := stable_uploaded (O := O) key existing.fileId
      refine converges_then (A := Query.Keeps) (only_query trivial) hJ huploaded fun _ x hx => ?_
      exact converges_then (A := Query.Keeps) (only_onlyIf (only_inspectAgain keeps_of_reads source existing)) hJ hx
        fun _ x hx => hx
    · refine converges_then (only_verifyRemoteAgents byCall_of_locates keeps_of_reads agents memory) hJ hupload
        fun memory x hx => ?_
      exact converges_then (A := Query.Keeps) (only_inspectAgain keeps_of_reads source existing) hJ hx
        fun _ x hx => converges_transfer hx
  · have hJ := stable_sane (O := O)
    refine converges_then (only_verifyRemoteAgents byCall_of_locates keeps_of_reads agents memory) hJ hsane
      fun memory x hx => ?_
    refine converges_then (A := Query.Keeps) (only_bind (only_query trivial) fun _ => only_require _)
      hJ hx fun inspection x hx => ?_
    refine converges_then (A := Query.Keeps) (only_newUpload keeps_of_reads key inspection) hJ hx
      fun planned x hx => ?_
    refine converges_then (A := Query.Keeps) (only_query trivial) hJ hx fun time x hx => ?_
    refine converges_then (A := Query.Keeps) (only_write (.inl trivial)) hJ hx fun _ x hx => ?_
    refine safe_bind.2 (safe_database.2 fun y hy => safe_bind.2 (safe_require fun created hcreated => ?_))
    obtain ⟨hmem, hkey⟩ := uploadByIdempotency_some hcreated
    exact converges_transfer ⟨hJ x y hx hy, created, hmem, hkey, rfl⟩

/-! ### Deletes -/

/-- The operation as it was returned is one of the file, and may be committed by now. -/
def HasOperation (file : FileId) (operation : DeleteOperation) (x : Scene O) : Prop :=
  Sane x ∧ ∃ op ∈ x.store.deleteOperations, op.operationId = operation.operationId ∧
    op.idempotencyKey = operation.idempotencyKey ∧ op.fileId = file ∧
    op.generation = operation.generation ∧ op.markerHash = operation.markerHash ∧
    (operation.state = .committed → op.state = .committed)

/-- The operation is one of the file, and committed. -/
def Deleted (file : FileId) (operation : DeleteOperation) (x : Scene O) : Prop :=
  Sane x ∧ ∃ op ∈ x.store.deleteOperations, op.idempotencyKey = operation.idempotencyKey ∧
    op.fileId = file ∧ op.generation = operation.generation ∧
    op.markerHash = operation.markerHash ∧ op.state = .committed

/-- The key has a delete operation of the file. -/
def HasDelete (key : IdempotencyKey) (file : FileId) (x : Scene O) : Prop :=
  Sane x ∧ ∃ op ∈ x.store.deleteOperations, op.idempotencyKey = key ∧ op.fileId = file

omit [Sealing] in
theorem stable_hasOperation (file : FileId) (operation : DeleteOperation) :
    Stable (HasOperation (O := O) file operation) := by
  rintro x y ⟨hsane, op, hop, hid, hkey, hfile, hgen, hhash, hstate⟩ hy
  obtain ⟨hsane', hadvances⟩ := hy hsane
  obtain ⟨op', hop', hid', hkey', hfile', hgen', hhash', hstate'⟩ := hadvances.operations op hop
  exact ⟨hsane', op', hop', hid'.trans hid, hkey'.trans hkey, hfile'.trans hfile, hgen'.trans hgen,
    hhash'.trans hhash, fun h => hstate' (hstate h)⟩

omit [Sealing] in
theorem stable_deleted (file : FileId) (operation : DeleteOperation) :
    Stable (Deleted (O := O) file operation) := by
  rintro x y ⟨hsane, op, hop, hkey, hfile, hgen, hhash, hstate⟩ hy
  obtain ⟨hsane', hadvances⟩ := hy hsane
  obtain ⟨op', hop', -, hkey', hfile', hgen', hhash', hstate'⟩ := hadvances.operations op hop
  exact ⟨hsane', op', hop', hkey'.trans hkey, hfile'.trans hfile, hgen'.trans hgen,
    hhash'.trans hhash, hstate' hstate⟩

omit [Sealing] in
theorem stable_hasDelete (key : IdempotencyKey) (file : FileId) :
    Stable (HasDelete (O := O) key file) := by
  rintro x y ⟨hsane, op, hop, hkey, hfile⟩ hy
  obtain ⟨hsane', hadvances⟩ := hy hsane
  obtain ⟨op', hop', -, hkey', hfile', -⟩ := hadvances.operations op hop
  exact ⟨hsane', op', hop', hkey'.trans hkey, hfile'.trans hfile⟩

theorem converges_planDelete (file : FileId) (key : IdempotencyKey) (hx : Sane x) :
    Converges (planDelete file key) (HasOperation file) x := by
  refine safe_bind.2 (safe_database.2 fun y hy => ?_)
  have hsane := stable_sane x y hx hy
  split
  · next existing hexisting =>
    obtain ⟨hmem, hkey⟩ := deleteByIdempotency_some hexisting
    refine safe_bind.2 (safe_failIf fun hfile => ?_)
    have hfile : existing.fileId = file := by simpa using hfile
    exact ⟨hsane, existing, hmem, rfl, rfl, hfile, rfl, rfl, id⟩
  · have hJ := stable_sane (O := O)
    refine converges_then (A := Query.Keeps) only_get hJ hsane fun db x hx => ?_
    refine converges_then (A := Query.Keeps) (only_require _) hJ hx fun projection x hx => ?_
    refine converges_then (A := Query.Keeps) (only_failIf _) hJ hx fun _ x hx => ?_
    refine converges_then (A := Query.Keeps) (only_require _) hJ hx fun generation x hx => ?_
    refine converges_then (A := Query.Keeps) (only_planMarker file generation) hJ hx
      fun marker x hx => ?_
    refine converges_then (A := Query.Keeps) (only_query trivial) hJ hx fun id x hx => ?_
    refine safe_bind.2 (safe_write.2 fun y hy s hok _ => ?_)
    have hproceeds := proceeds_wrote (x := y) (w := .createDeleteOperation _) (.inr trivial) hok
    refine ⟨hproceeds, ?_⟩
    have hcreated : HasDelete key file (y.wrote (.createDeleteOperation
        ⟨id, key, file, generation, marker.1, marker.2.1, marker.2.2⟩) s) := by
      refine ⟨(hproceeds (hJ x y hx hy)).1, ?_⟩
      obtain ⟨projection, -, -, -, -, -, rfl⟩ := createDeleteOperation_spec hok
      exact ⟨_, List.mem_append_right _ (List.mem_singleton_self _), rfl, rfl⟩
    refine safe_bind.2 (safe_database.2 fun z hz => safe_require fun operation hoperation => ?_)
    obtain ⟨hsane, op, hop, hkey, hfile⟩ := stable_hasDelete key file _ z hcreated hz
    obtain ⟨hmem, hkey'⟩ := deleteByIdempotency_some hoperation
    obtain rfl := hsane.sound.operation_unique_key hop hmem (hkey.trans hkey'.symm)
    exact ⟨hsane, op, hop, rfl, rfl, hfile, rfl, rfl, fun h => h⟩

theorem converges_delete (agents : List AgentTarget) (memory : Memory) (file : FileId)
    (key : IdempotencyKey) (hx : Sane x) :
    Converges (Portal.delete agents memory file key) (Deleted file) x := by
  refine safe_bind.2 ((converges_planDelete file key hx).mono fun operation x hx => ?_)
  split
  · next hstate =>
    obtain ⟨hsane, op, hop, -, hkey, hfile, hgen, hhash, hcommitted⟩ := hx
    exact ⟨hsane, op, hop, hkey, hfile, hgen, hhash, hcommitted hstate⟩
  · have hJ := stable_hasOperation (O := O) file operation
    refine converges_then (only_verifyRemoteAgents byCall_of_locates keeps_of_reads agents memory) hJ hx
      fun memory x hx => ?_
    refine converges_then (A := Query.Keeps) (only_replicate byCall_of_locates agents memory
      fun _ => trivial) hJ hx
      fun _ x hx => ?_
    refine converges_then (only_requireLiveDomains keeps_of_reads agents _) hJ hx fun _ x hx => ?_
    refine converges_then (A := Query.Keeps) (only_query trivial) hJ hx fun time x hx => ?_
    refine safe_bind.2 (safe_write.2 fun y hy s hok _ => ?_)
    have hproceeds := proceeds_wrote (x := y) (w := .commitDelete _ _ _) (.inr rfl) hok
    refine ⟨hproceeds, ?_⟩
    obtain ⟨hsane, op, hop, hid, hkey, hfile, hgen, hhash, -⟩ := hJ x y hx hy
    have hdeleted : Deleted file operation (y.wrote (.commitDelete operation.operationId
        minimumReplicas time) s) := by
      have hok : y.store.commitDelete op.operationId minimumReplicas time = .ok s := hid ▸ hok
      exact ⟨(hproceeds hsane).1, _, hsane.sound.commitDelete_commits hop hok, hkey, hfile, hgen,
        hhash, rfl⟩
    refine safe_bind.2 (safe_database.2 fun z hz => safe_require fun result hresult => ?_)
    obtain ⟨hsane, op, hop, hkey, hfile, hgen, hhash, hstate⟩ := stable_deleted _ _ _ z hdeleted hz
    obtain ⟨hmem, hkey'⟩ := deleteByIdempotency_some hresult
    obtain rfl := hsane.sound.operation_unique_key hop hmem (hkey.trans hkey'.symm)
    exact ⟨hsane, op, hop, rfl, hfile, rfl, rfl, hstate⟩

end Calls

/-! ## All calls -/

/-- A call of the portal, with the agents it is configured with and what it remembers. -/
inductive Call where
  | upload (agents : List AgentTarget) (memory : Memory) (source : Source) (key : IdempotencyKey)
  | delete (agents : List AgentTarget) (memory : Memory) (file : FileId) (key : IdempotencyKey)

inductive Outcome where
  | uploaded (file : FileId)
  | deleted (operation : DeleteOperation)
  deriving DecidableEq

section

variable [Sealing]

def Call.program : Call → Action Outcome
  | .upload agents memory source key => do
    return .uploaded (← Portal.upload agents memory source key)
  | .delete agents memory file key => do
    return .deleted (← Portal.delete agents memory file key)

variable {O : Outside portalWorld} {x y : Scene O}

/-- What the outcome of a call says of the database. -/
def Call.Achieved (call : Call) (outcome : Outcome) (x : Scene O) : Prop :=
  match call, outcome with
  | .upload _ _ _ key, .uploaded file => Uploaded key file x
  | .delete _ _ file _, .deleted operation => Deleted file operation x
  | _, _ => False

theorem Call.converges (call : Call) (hx : Sane x) : Converges call.program call.Achieved x := by
  cases call with
  | upload agents memory source key =>
    exact safe_bind.2 ((converges_upload agents memory source key hx).mono fun _ _ h => h)
  | delete agents memory file key =>
    exact safe_bind.2 ((converges_delete agents memory file key hx).mono fun _ _ h => h)

omit [Sealing] in
theorem Call.stable_achieved (call : Call) (outcome : Outcome) :
    Stable (call.Achieved outcome (O := O)) := by
  intro x y h hy
  cases call with
  | upload agents memory source key =>
    cases outcome with
    | uploaded file => exact stable_uploaded key file x y h hy
    | deleted operation => exact h.elim
  | delete agents memory file key =>
    cases outcome with
    | uploaded file => exact h.elim
    | deleted operation => exact stable_deleted file operation x y h hy

end

/-- An upload, its retry, a delete of the file, and the upload once more. -/
def fourCalls : Fin 4 → Call
  | 2 => .delete twoAgents ⟨[], []⟩ 2 0
  | _ => .upload twoAgents ⟨[], []⟩ 0 0

/-- The first call stops halfway, the others run to their ends. -/
def fourRun : (Fin 4 → Action Outcome) × Scene (.any portalWorld) :=
  letI := namingOnly
  let r : Responder (.any portalWorld) := saying (W := portalWorld) (answersAt 1000)
  advanceAll [(0, 27, r), (1, 1000, r), (2, 1000, r), (3, 1000, r)]
    (fun i => (fourCalls i).program, ⟨.new, (), []⟩)

end Metadata

end DistrHnsw
