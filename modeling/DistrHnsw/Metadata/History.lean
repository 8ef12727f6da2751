import DistrHnsw.Metadata.Collect
import DistrHnsw.Metadata.Steps

/-!
# What the history returns

Whatever is recorded is returned by `history_objects`, and what a committed file required is a
candidate of collection once the file is deleted.
-/

namespace DistrHnsw

namespace Metadata

open Database

/-! ## What the history returns -/

theorem mem_firstOfEach {object : ObjectId} {rows : List HistoryObject} {seen : List ObjectId} :
    (∃ row ∈ firstOfEach seen rows, row.object = object) ↔
      object ∉ seen ∧ ∃ row ∈ rows, row.object = object := by
  induction rows generalizing seen with
  | nil => simp [firstOfEach]
  | cons row rows ih =>
    unfold firstOfEach
    by_cases hseen : row.object ∈ seen
    · rw [if_pos hseen, ih]
      constructor
      · rintro ⟨hno, other, hother, rfl⟩
        exact ⟨hno, other, List.mem_cons_of_mem _ hother, rfl⟩
      · rintro ⟨hno, other, hother, rfl⟩
        rcases List.mem_cons.1 hother with rfl | hother
        · exact absurd hseen hno
        · exact ⟨hno, other, hother, rfl⟩
    · rw [if_neg hseen]
      simp only [List.mem_cons, exists_eq_or_imp, ih]
      by_cases hthis : row.object = object
      · subst hthis
        simp [hseen]
      · simp [hthis, Ne.symm hthis]

theorem mem_joinFiles {α : Type} {db : Database} (file : α → FileId) (object : α → ObjectId)
    (len : α → Option ℕ) {rows : List α} {row : α} {f : FileRow} (hrow : row ∈ rows)
    (hf : f ∈ db.files) (hid : f.fileId = file row) :
    ∃ out ∈ db.joinFiles rows file object len, out.object = object row := by
  refine ⟨⟨object row, len row, f.updatedAt⟩, ?_, rfl⟩
  refine List.mem_flatMap.2 ⟨row, hrow, List.mem_map.2 ⟨f, List.mem_filter.2 ⟨hf, ?_⟩, rfl⟩⟩
  simp [hid]

/-- The rows of a file are rows of the history. -/
theorem Database.Recorded.mem_historyRows {db : Database} (h : db.Recorded) {file : FileRow}
    (hfile : file ∈ db.files) {object : ObjectId} (hreq : db.Requires file object) :
    ∃ row ∈ db.historyRows, row.object = object := by
  obtain ⟨kind, hash⟩ := object
  simp only [historyRows, List.mem_append]
  cases kind with
  | chunk =>
    obtain ⟨-, row, hrow, rfl, hid, -⟩ := hreq
    obtain ⟨out, hout, hobject⟩ := mem_joinFiles (fun row : FileChunkRow => row.fileId)
      (fun row => ⟨.chunk, row.hash⟩) (fun row => some row.len) hrow hfile hid.symm
    exact ⟨out, .inl (.inr hout), hobject⟩
  | manifest =>
    obtain ⟨row, hrow, hid, -, rfl⟩ := (h.files file hfile).manifest hreq.1 hash hreq.2
    obtain ⟨out, hout, hobject⟩ := mem_joinFiles (fun row : ManifestRow => row.fileId)
      (fun row => ⟨.manifest, row.hash⟩) (fun _ => none) hrow hfile hid.symm
    exact ⟨out, .inl (.inl hout), hobject⟩
  | deletionMarker =>
    obtain ⟨row, hrow, hid, rfl⟩ := (h.files file hfile).marker hreq.1 hash hreq.2
    obtain ⟨out, hout, hobject⟩ := mem_joinFiles (fun row : MarkerRow => row.fileId)
      (fun row => ⟨.deletionMarker, row.hash⟩) (fun _ => none) hrow hfile hid.symm
    exact ⟨out, .inr hout, hobject⟩

/-- What is recorded is returned. -/
theorem Database.Recorded.mem_historyObjects {db : Database} (h : db.Recorded) {object : ObjectId}
    (hreq : db.requiredByLiveFile object = true) :
    ∃ row ∈ db.historyObjects, row.object = object := by
  obtain ⟨file, hfile, hreq⟩ := requiredByLiveFile_iff.1 hreq
  obtain ⟨row, hrow, rfl⟩ := h.mem_historyRows hfile hreq
  refine mem_firstOfEach.2 ⟨by simp, row, ?_, rfl⟩
  rw [List.mem_insertionSort, List.mem_filter]
  exact ⟨hrow, by simp [(h.files file hfile).kept row.object hreq]⟩

/-! ## Candidates of deleted files -/

theorem mem_firstPerObject {object : ObjectId} {list : List Collect.Candidate}
    {seen : List ObjectId} :
    (∃ candidate ∈ Collect.firstPerObject seen list, candidate.object = object) ↔
      object ∉ seen ∧ ∃ candidate ∈ list, candidate.object = object := by
  induction list generalizing seen with
  | nil => simp [Collect.firstPerObject]
  | cons candidate list ih =>
    unfold Collect.firstPerObject
    by_cases hseen : candidate.object ∈ seen
    · rw [if_pos hseen, ih]
      constructor
      · rintro ⟨hno, other, hother, rfl⟩
        exact ⟨hno, other, List.mem_cons_of_mem _ hother, rfl⟩
      · rintro ⟨hno, other, hother, rfl⟩
        rcases List.mem_cons.1 hother with rfl | hother
        · exact absurd hseen hno
        · exact ⟨hno, other, hother, rfl⟩
    · rw [if_neg hseen]
      simp only [List.mem_cons, exists_eq_or_imp, ih]
      by_cases hthis : candidate.object = object
      · subst hthis
        simp [hseen]
      · simp [hthis, Ne.symm hthis]

theorem mem_deletedFiles {db : Database} {file : FileRow} {deletedAt : Time}
    (hfile : file ∈ db.files) (hstate : file.state = .deleted)
    (htime : file.deletedAt = some deletedAt) :
    (file.fileId, file.generation, deletedAt) ∈ db.deletedFiles := by
  refine List.mem_filterMap.2 ⟨file, ?_, by rw [htime]; rfl⟩
  rw [List.mem_insertionSort, List.mem_filter]
  exact ⟨hfile, by simp [hstate]⟩

/-- Superseded objects of a deleted file are candidates. -/
theorem candidate_of_superseded {db : Database} {file : FileRow} (hfile : file ∈ db.files)
    (hstate : file.state = .deleted) (htime : file.deletedAt.isSome) {object : ObjectId}
    (hobject : object ∈ db.supersededObjects file.fileId file.generation)
    (options : Collect.GcOptions) (now : Time) :
    ∃ candidate ∈ Collect.candidates db options now, candidate.object = object := by
  obtain ⟨deletedAt, htime⟩ := Option.isSome_iff_exists.1 htime
  obtain ⟨candidate, hmem, hcandidate⟩ := mem_firstPerObject.2
    (⟨by simp, ⟨object, deletedAt, options.retentionSeconds, .deletedGeneration⟩,
      List.mem_append_left _ (List.mem_flatMap.2 ⟨_, mem_deletedFiles hfile hstate htime,
        List.mem_map.2 ⟨object, hobject, rfl⟩⟩), rfl⟩ :
      object ∉ [] ∧ ∃ candidate ∈ Collect.deletedCandidates db options ++
        Collect.stagingCandidates db options now, candidate.object = object)
  exact ⟨candidate, (List.mem_insertionSort _).2 hmem, hcandidate⟩

/-- What a committed file required is superseded once later rows only add to the history. -/
theorem mem_supersededObjects {db db₁ : Database} (h : db.Recorded) {file : FileRow}
    (hfile : file ∈ db.files) (hstate : file.state = .committed) {object : ObjectId}
    (hreq : db.Requires file object) {id : FileId} (htouches : Touches db db₁ id) {generation : ℕ}
    (hgen : file.generation < generation) :
    object ∈ db₁.supersededObjects file.fileId generation := by
  obtain ⟨kind, hash⟩ := object
  unfold supersededObjects
  cases kind with
  | chunk =>
    obtain ⟨-, row, hrow, rfl, hid, hrowGen⟩ := hreq
    refine List.mem_append_right _ (List.mem_map.2 ⟨row, ?_, rfl⟩)
    exact List.mem_filter.2 ⟨htouches.chunks row hrow, by simp [hid, hrowGen, hgen]⟩
  | manifest =>
    obtain ⟨row, hrow, hid, hrowGen, rfl⟩ := (h.files file hfile).manifest hreq.1 hash hreq.2
    refine List.mem_append_left _ (List.mem_map.2 ⟨row, ?_, rfl⟩)
    exact List.mem_filter.2 ⟨htouches.manifests row hrow, by simp [hid, hrowGen, hgen]⟩
  | deletionMarker => exact absurd (hstate.symm.trans hreq.1) (by decide)

theorem Database.Recorded.file_unique {db : Database} (h : db.Recorded) {a b : FileRow} (ha : a ∈ db.files)
    (hb : b ∈ db.files) (hid : a.fileId = b.fileId) : a = b :=
  List.inj_on_of_nodup_map h.fileIds ha hb hid

/-- A clean write that deletes a committed file records the time and only adds to the history. -/
theorem deleted_step {db db₁ : Database} {w : Write} (h : db.Recorded) (hclean : Clean db w)
    (hok : w.perform db = .ok db₁) {file file' : FileRow} (hfile : file ∈ db.files)
    (hstate : file.state = .committed) (hfile' : file' ∈ db₁.files)
    (hid : file'.fileId = file.fileId) (hdeleted : file'.state = .deleted) :
    file'.deletedAt.isSome ∧ ∃ id, Touches db db₁ id := by
  have hne : file' ∉ db.files := fun hold => by
    rw [h.file_unique hold hfile hid, hstate] at hdeleted
    cases hdeleted
  have hsame {P : Prop} (hfiles : db₁.files = db.files) : P := absurd (hfiles ▸ hfile') hne
  -- A transaction about one file changed this one.
  have htouched {id : FileId} (ht : Touches db db₁ id) : file'.fileId = id := by
    by_contra hother
    exact hne (ht.files file' hfile' hother)
  cases w with
  | commitFile upload minimum now =>
    rcases commitFile_cases hok with rfl | ⟨row, hash, bytes, -, -, -, hcommits⟩
    · exact absurd hfile' hne
    · have hrow := (hcommits.rows file' hfile' (htouched hcommits.touches)).2.1
      rw [hdeleted] at hrow
      cases hrow
  | commitDelete operation minimum now =>
    rcases commitDelete_cases hok with rfl | ⟨id, generation, hash, hdeletes⟩
    · exact absurd hfile' hne
    · exact ⟨(hdeletes.rows file' hfile' (htouched hdeletes.touches)).2.2.2, id, hdeletes.touches⟩
  | applyRecoveredManifest manifest hash bytes now =>
    have hcommits := applyRecoveredManifest_commits hok
    have hrow := (hcommits.rows file' hfile' (htouched hcommits.touches)).2.1
    rw [hdeleted] at hrow
    cases hrow
  | applyRecoveredDeletion marker hash now =>
    have hdeletes := applyRecoveredDeletion_deletes hok
    exact ⟨(hdeletes.rows file' hfile' (htouched hdeletes.touches)).2.2.2, _, hdeletes.touches⟩
  | markRecoveryBlocked blocked generation deletionHash issue now =>
    rcases markRecoveryBlocked_spec hok with rfl | ⟨htouches, -, hrows⟩
    · exact absurd hfile' hne
    · have hblocked := htouched htouches
      have hrow := hrows file' hfile' hblocked
      cases hmarker : db.blockedMarker blocked deletionHash with
      | none =>
        rw [hmarker] at hrow
        exact absurd (hdeleted.symm.trans hrow) (by decide)
      | some hash =>
        -- Only a file that is deleted already is blocked under a marker.
        obtain ⟨row, hrow, hrowState⟩ := blockedMarker_deleted hclean.2 hmarker
        obtain ⟨hmem, hrowId⟩ := fileProjection_some hrow
        have heq := h.file_unique hmem hfile (hrowId.trans (hblocked.symm.trans hid))
        rw [heq, hstate] at hrowState
        cases hrowState.1
  | recordGcProof id proof =>
    obtain ⟨-, rfl⟩ := recordGcProof_spec hok
    exact hsame rfl
  | finishGcProof id status =>
    cases hok
    exact hsame rfl
  | _ => exact hsame (Write.sameHistory hok trivial).files

end Metadata

end DistrHnsw
