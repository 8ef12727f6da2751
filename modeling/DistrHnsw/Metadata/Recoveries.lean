import DistrHnsw.Metadata.Evidence
import DistrHnsw.Metadata.Visibility

/-!
# Recovery moves files forward

In a run of the portal's operations and of recoveries in either mode, one after the other, no file
is lost or lowered, and a deleted file is made readable by a manifest of a higher generation only.
-/

namespace DistrHnsw

namespace Metadata

open Program Portal Recovery Database

variable {O : Outside portalWorld} {x y z : Scene O}

/-! ## Moving forward -/

/-- A manifest above the generation makes the file readable. -/
def Restores (id : FileId) (generation : ℕ) : Event portalWorld → Prop
  | .wrote _ w => ∃ manifest hash bytes now, w = .applyRecoveredManifest manifest hash bytes now ∧
      manifest.fileId = id ∧ generation < manifest.generation
  | .asked _ _ _ => False

/-- Every file is there later, at no lower generation; a deleted one is still deleted, or was
restored above the generation of its marker. -/
def Moves (x y : Scene O) : Prop :=
  ∃ later, y.past = x.past ++ later ∧ ∀ file ∈ x.store.files, ∃ file' ∈ y.store.files,
    file'.fileId = file.fileId ∧ file.generation ≤ file'.generation ∧
    (file.state = .deleted → file'.state = .deleted ∨
      ∃ event ∈ later, Restores file.fileId file.generation event)

theorem Moves.refl (x : Scene O) : Moves x x :=
  ⟨[], (List.append_nil _).symm, fun file hfile => ⟨file, hfile, rfl, le_rfl, .inl⟩⟩

theorem Moves.trans (h₁ : Moves x y) (h₂ : Moves y z) : Moves x z := by
  obtain ⟨events, hpast₁, hfiles₁⟩ := h₁
  obtain ⟨later, hpast₂, hfiles₂⟩ := h₂
  refine ⟨events ++ later, by rw [hpast₂, hpast₁, List.append_assoc], fun file hfile => ?_⟩
  obtain ⟨file₁, hfile₁, hid₁, hgen₁, hdeleted₁⟩ := hfiles₁ file hfile
  obtain ⟨file₂, hfile₂, hid₂, hgen₂, hdeleted₂⟩ := hfiles₂ file₁ hfile₁
  refine ⟨file₂, hfile₂, hid₂.trans hid₁, hgen₁.trans hgen₂, fun hstate => ?_⟩
  rcases hdeleted₁ hstate with hstate₁ | ⟨event, hevent, hrestores⟩
  · rcases hdeleted₂ hstate₁ with hstate₂ | ⟨event, hevent, hrestores⟩
    · exact .inl hstate₂
    · refine .inr ⟨event, List.mem_append_right _ hevent, ?_⟩
      cases event with
      | asked store query answer => exact hrestores.elim
      | wrote store w =>
        obtain ⟨manifest, hash, bytes, now, rfl, hid, hgen⟩ := hrestores
        exact ⟨manifest, hash, bytes, now, rfl, hid.trans hid₁, lt_of_le_of_lt hgen₁ hgen⟩
  · exact .inr ⟨event, List.mem_append_left _ hevent, hrestores⟩

theorem moves_asked (x : Scene O) (q : Query) (a : q.Answer) (e : O.State) :
    Moves x (x.asked q a e) :=
  ⟨_, rfl, fun file hfile => ⟨file, hfile, rfl, le_rfl, .inl⟩⟩

/-- A write moves files forward when a manifest it applies is above the marker of its file. -/
theorem moves_wrote {w : Write} {s : Database} (h : x.store.Marked)
    (hok : w.perform x.store = .ok s)
    (habove : ∀ manifest hash bytes now, w = .applyRecoveredManifest manifest hash bytes now →
      ∀ file ∈ x.store.files, file.fileId = manifest.fileId → file.state = .deleted →
        file.generation < manifest.generation) : Moves x (x.wrote w s) := by
  refine ⟨_, rfl, fun file hfile => ?_⟩
  obtain ⟨file', hfile', hid, hgen, hdeleted⟩ := (h.step hok).1 file hfile
  refine ⟨file', hfile', hid, hgen, fun hstate => ?_⟩
  rcases hdeleted hstate with hstate' | ⟨manifest, hash, bytes, now, hw, hmanifest, -⟩
  · exact .inl hstate'
  · refine .inr ⟨_, List.mem_singleton_self _, manifest, hash, bytes, now, hw, hmanifest, ?_⟩
    exact habove manifest hash bytes now hw file hfile hmanifest.symm hstate

/-! ## One recovery -/

/-- What the decisions of one recovery keep: files move forward, and one whose evidence conflicts
is not made readable. -/
structure Decides (picture : Picture) (x y : Scene O) : Prop where
  moves : Moves x y
  conflicts : ∀ candidate ∈ picture.candidates, conflicted candidate.evidence = true →
    ∀ file ∈ y.store.files, file.fileId = candidate.fileId → file.state = .committed →
      ∃ old ∈ x.store.files, old.fileId = candidate.fileId ∧ old.state = .committed

theorem Decides.refl (picture : Picture) (x : Scene O) : Decides picture x x :=
  ⟨.refl x, fun _ _ _ file hfile hid hstate => ⟨file, hfile, hid, hstate⟩⟩

theorem Decides.trans {picture : Picture} (h₁ : Decides picture x y) (h₂ : Decides picture y z) :
    Decides picture x z where
  moves := h₁.moves.trans h₂.moves
  conflicts candidate hcandidate hconflict file hfile hid hstate := by
    obtain ⟨old, hold, holdId, holdState⟩ :=
      h₂.conflicts candidate hcandidate hconflict file hfile hid hstate
    exact h₁.conflicts candidate hcandidate hconflict old hold holdId holdState

/-- The candidates still to be decided have the files they had in the picture. -/
structure Undecided (picture : Picture) (rest : List FileCandidate) (x : Scene O) : Prop where
  marked : x.store.Marked
  candidates : ∀ candidate ∈ rest, candidate ∈ picture.candidates
  distinct : (rest.map (·.fileId)).Nodup
  files : ∀ candidate ∈ rest, ∀ file ∈ x.store.files, file.fileId = candidate.fileId →
    file ∈ picture.database.files

variable {picture : Picture} {candidate : FileCandidate} {rest : List FileCandidate}

theorem Undecided.of_files (h : Undecided picture rest x) (hfiles : y.store.files = x.store.files) :
    Undecided picture rest y where
  marked := h.marked.of_files hfiles
  candidates := h.candidates
  distinct := h.distinct
  files := by rw [hfiles]; exact h.files

/-- The file of the first candidate was decided. -/
theorem Undecided.decided (h : Undecided picture (candidate :: rest) x) {w : Write} {s : Database}
    (hok : w.perform x.store = .ok s) (htouches : Touches x.store s candidate.fileId) :
    Undecided picture rest (x.wrote w s) where
  marked := (h.marked.step hok).2
  candidates other hother := h.candidates other (List.mem_cons_of_mem _ hother)
  distinct := (List.nodup_cons.1 h.distinct).2
  files other hother file hfile hid := by
    have hne : file.fileId ≠ candidate.fileId := by
      intro heq
      refine (List.nodup_cons.1 h.distinct).1 (List.mem_map.2 ⟨other, hother, ?_⟩)
      exact hid.symm.trans heq
    exact h.files other (List.mem_cons_of_mem _ hother) file (htouches.files file hfile hne) hid

theorem Undecided.skip (h : Undecided picture (candidate :: rest) x) : Undecided picture rest x where
  marked := h.marked
  candidates other hother := h.candidates other (List.mem_cons_of_mem _ hother)
  distinct := (List.nodup_cons.1 h.distinct).2
  files other hother := h.files other (List.mem_cons_of_mem _ hother)

section

variable [Sealing]

/-- Decoded evidence of a candidate speaks for its file and generation. -/
theorem decoded_of_candidate {db : Database} (ht : picture.Taken db)
    (hcandidate : candidate ∈ picture.candidates) {own : Evidence} (hown : own ∈ candidate.evidence) :
    (∀ hash manifest, own = .manifest hash (some manifest) →
      manifest.fileId = candidate.fileId ∧ manifest.generation = candidate.generation) ∧
    ∀ hash marker, own = .deletion hash (some marker) →
      marker.fileId = candidate.fileId ∧ marker.generation = candidate.generation := by
  have hmem := ((mem_fileCandidates hcandidate).1 own).1 hown
  rcases mem_allEvidence hmem with hfound | ⟨file, -, hprojects, -⟩
  · obtain ⟨replica, -, hdecoded⟩ := ht.found _ hfound
    unfold decoded at hdecoded
    split at hdecoded
    · cases hdecoded
    · split at hdecoded
      · cases hdecoded
      · obtain ⟨manifest, -, heq⟩ := Option.map_eq_some_iff.1 hdecoded
        simp only [Option.some.injEq, Prod.mk.injEq] at heq
        obtain ⟨hid, hgen, rfl⟩ := heq
        refine ⟨fun hash other h => ?_, fun hash other h => by cases h⟩
        cases h
        exact ⟨hid, hgen⟩
      · obtain ⟨marker, -, heq⟩ := Option.map_eq_some_iff.1 hdecoded
        simp only [Option.some.injEq, Prod.mk.injEq] at heq
        obtain ⟨hid, hgen, rfl⟩ := heq
        refine ⟨fun hash other h => by (cases h), fun hash other h => ?_⟩
        cases h
        exact ⟨hid, hgen⟩
  · -- What the projection names was not decoded.
    have hnone (hash : ObjectHash) : (∀ manifest, own ≠ .manifest hash (some manifest)) ∧
        ∀ marker, own ≠ .deletion hash (some marker) := by
      unfold projectedEvidence at hprojects
      split at hprojects
      · obtain ⟨other, -, heq⟩ := Option.map_eq_some_iff.1 hprojects
        exact ⟨fun manifest h => by (rw [h] at heq; cases heq),
          fun marker h => by (rw [h] at heq; cases heq)⟩
      · obtain ⟨other, -, heq⟩ := Option.map_eq_some_iff.1 hprojects
        exact ⟨fun manifest h => by (rw [h] at heq; cases heq),
          fun marker h => by (rw [h] at heq; cases heq)⟩
    exact ⟨fun hash manifest h => absurd h ((hnone hash).1 manifest),
      fun hash marker h => absurd h ((hnone hash).2 marker)⟩

omit [Sealing] in
/-- A manifest that wins without a conflict is above the marker of its file. -/
theorem above_marker (hcandidate : candidate ∈ picture.candidates)
    (hconflict : conflicted candidate.evidence = false) {own : Evidence}
    (hown : own ∈ candidate.evidence) (hkind : own.object.kind = .manifest) {file : FileRow}
    (hfile : file ∈ picture.database.files) (hid : file.fileId = candidate.fileId)
    (hstate : file.state = .deleted) (hmarker : file.deletionHash.isSome) :
    file.generation < candidate.generation := by
  obtain ⟨hash, hhash⟩ := Option.isSome_iff_exists.1 hmarker
  have hprojected : projectedEvidence file = some (.deletion hash none) := by
    simp [projectedEvidence, hstate, hhash]
  have hsorted : file ∈ picture.database.files.insertionSort fun a b => a.fileId ≤ b.fileId :=
    (List.perm_insertionSort _ _).mem_iff.2 hfile
  obtain ⟨other, hobject, hother⟩ :
      ∃ other, other.object = _ ∧ (file.fileId, file.generation, other) ∈ picture.evidence :=
    projected_mem_allEvidence hsorted hprojected
  obtain ⟨hevidence, hmax⟩ := mem_fileCandidates hcandidate
  rw [hid] at hother
  refine lt_of_le_of_ne (hmax _ _ hother) fun heq => ?_
  -- At the generation of the candidate the marker is evidence against the manifest.
  rw [heq] at hother
  have hobjects : own.object ≠ other.object := by
    intro h
    rw [h, hobject] at hkind
    cases hkind
  have hyes := conflicted_of_manifest hown ((hevidence other).2 hother) hobjects hkind
  rw [hconflict] at hyes
  cases hyes

/-! ### Decisions -/

omit [Sealing] in
/-- A write that leaves the files alone decides nothing. -/
theorem decides_of_files {w : Write} {s : Database} (h : x.store.Marked)
    (hok : w.perform x.store = .ok s) (hfiles : s.files = x.store.files)
    (hmanifest : ∀ manifest hash bytes now, w ≠ .applyRecoveredManifest manifest hash bytes now) :
    Decides picture x (x.wrote w s) where
  moves := moves_wrote h hok fun manifest hash bytes now hw =>
    absurd hw (hmanifest manifest hash bytes now)
  conflicts candidate hcandidate hconflict file hfile hid hstate := by
    rw [Scene.wrote_store, hfiles] at hfile
    exact ⟨file, hfile, hid, hstate⟩

omit [Sealing] in
/-- A write about the file of one candidate decides that candidate. -/
theorem decides_candidate {w : Write} {s : Database} (hmoves : Moves x (x.wrote w s))
    (hcandidate : candidate ∈ picture.candidates) (htouches : Touches x.store s candidate.fileId)
    (hreadable : conflicted candidate.evidence = true → ∀ file ∈ s.files,
      file.fileId = candidate.fileId → file.state ≠ .committed) :
    Decides picture x (x.wrote w s) where
  moves := hmoves
  conflicts other hother hconflict file hfile hid hstate := by
    by_cases hsame : other.fileId = candidate.fileId
    · obtain rfl := List.inj_on_of_nodup_map (fileCandidates_nodup _) hother hcandidate hsame
      exact absurd hstate (hreadable hconflict file hfile hid)
    · exact ⟨file, htouches.files file hfile (hid ▸ hsame), hid, hstate⟩

omit [Sealing] in
theorem files_of_locates {w : Write} (h : w.Locates) {db db₁ : Database}
    (hok : w.perform db = .ok db₁) : db₁.files = db.files := by
  refine (Write.sameHistory hok ?_).files
  cases w <;> first | exact h.elim | exact trivial

omit [Sealing] in
/-- A program that only locates objects decides nothing. -/
theorem locating_safe {α : Type} {p : Action α} (hp : p.Only Write.Locates Query.Keeps)
    (hx : Undecided picture rest x) :
    p.Safe (fun _ => True) Eq (Decides picture) (fun _ => Undecided picture rest) x := by
  refine hp.safe hx (by rintro x y h rfl; exact h) (fun w hw x s h hok _ => ?_)
    fun q _ x a e h _ _ => ⟨⟨moves_asked x q a e, (Decides.refl picture x).conflicts⟩, h.of_files rfl⟩
  have hfiles := files_of_locates hw hok
  refine ⟨decides_of_files h.marked hok hfiles ?_, h.of_files hfiles⟩
  rintro manifest hash bytes now rfl
  exact hw.elim

/-- The decision about one file. -/
theorem applyDecision_safe {db : Database} (ht : picture.Taken db)
    (hx : Undecided picture (candidate :: rest) x) {own : Evidence} (hown : own ∈ candidate.evidence)
    (replicas : List ReplicaSet) {issues : List String}
    (hissues : conflicted candidate.evidence = true → issues ≠ []) :
    (applyDecision candidate own replicas issues).Safe (fun _ => True) Eq (Decides picture)
      (fun _ => Undecided picture rest) x := by
  have hcandidate := hx.candidates candidate List.mem_cons_self
  obtain ⟨hmanifest, hdeletion⟩ := decoded_of_candidate ht hcandidate hown
  refine safe_bind.2 (safe_query.2 ?_)
  rintro x rfl time e - -
  refine ⟨⟨moves_asked x .now time e, (Decides.refl picture x).conflicts⟩, ?_⟩
  replace hx : Undecided picture (candidate :: rest) (x.asked .now time e) := hx.of_files rfl
  generalize x.asked .now time e = x at hx
  by_cases hnone : issues = []
  · rw [if_neg (not_not_intro hnone)]
    have hconflict : conflicted candidate.evidence = false := by
      cases h : conflicted candidate.evidence with
      | false => rfl
      | true => exact absurd hnone (hissues h)
    have hunconflicted : conflicted candidate.evidence = true → False := by
      rw [hconflict]
      decide
    cases own with
    | manifest hash found =>
      cases found with
      | none => trivial
      | some manifest =>
        obtain ⟨hid, hgen⟩ := hmanifest hash manifest rfl
        refine safe_bind.2 (safe_require fun replica _ => safe_bind.2 (safe_require fun bytes _ => ?_))
        refine safe_write.2 ?_
        rintro x rfl s hok -
        have htouches := hid ▸ (applyRecoveredManifest_commits hok).touches
        refine ⟨decides_candidate ?_ hcandidate htouches fun h => (hunconflicted h).elim,
          hx.decided hok htouches⟩
        refine moves_wrote hx.marked hok fun other _ _ _ hw file hfile hother hstate => ?_
        cases hw
        have hfileId := hother.trans hid
        have hold := hx.files candidate List.mem_cons_self file hfile hfileId
        rw [hgen]
        exact above_marker hcandidate hconflict hown rfl hold hfileId hstate
          (hx.marked.markers file hfile hstate)
    | deletion hash found =>
      cases found with
      | none => trivial
      | some marker =>
        obtain ⟨hid, -⟩ := hdeletion hash marker rfl
        refine safe_write.2 ?_
        rintro x rfl s hok -
        have htouches := hid ▸ (applyRecoveredDeletion_deletes hok).touches
        refine ⟨decides_candidate ?_ hcandidate htouches fun h => (hunconflicted h).elim,
          hx.decided hok htouches⟩
        exact moves_wrote hx.marked hok fun _ _ _ _ hw => nomatch hw
  · rw [if_pos hnone]
    refine safe_write.2 ?_
    rintro x rfl s hok -
    have hmoves := moves_wrote hx.marked hok fun _ _ _ _ hw => nomatch hw
    rcases markRecoveryBlocked_spec hok with rfl | ⟨htouches, -, hrows⟩
    · exact ⟨decides_of_files hx.marked hok rfl (fun _ _ _ _ hw => nomatch hw),
        hx.skip.of_files rfl⟩
    · refine ⟨decides_candidate hmoves hcandidate htouches fun _ file hfile hid hstate => ?_,
        hx.decided hok htouches⟩
      have hblocked := hrows file hfile hid
      rw [hstate] at hblocked
      split at hblocked
      · exact absurd hblocked.1 (by decide)
      · exact absurd hblocked (by decide)

/-- One file is decided, at most once. -/
theorem recoverFile_safe {db : Database} (ht : picture.Taken db) (mode : RecoveryMode)
    (agents : List AgentTarget) (replicas : List ReplicaSet)
    (hx : Undecided picture (candidate :: rest) x) :
    (recoverFile ⟨agents, picture.incarnations, mode⟩ (committedDeletions picture.database) replicas
      candidate).Safe (fun _ => True) Eq (Decides picture) (fun _ => Undecided picture rest) x := by
  refine safe_bind.2 (safe_require fun own hwinner => safe_bind.2 ?_)
  have hown := winner_mem hwinner
  refine Safe.mono (Q := fun progress x => Undecided picture (candidate :: rest) x ∧
    (conflicted candidate.evidence = true → progress.issues ≠ [])) ?_ fun progress y hy => ?_
  · unfold settle
    split
    · exact ⟨hx, fun _ => List.cons_ne_nil _ _⟩
    · next hconflict =>
      exact (locating_safe (only_ensureWinner (fun _ h => h) _ _ own) hx).mono
        fun progress y hy => ⟨hy, fun h => absurd h hconflict⟩
  · refine safe_bind.2 (Safe.mono (Q := fun _ => Undecided picture rest) ?_ fun _ _ h => h)
    exact safe_onlyIf (fun _ => applyDecision_safe ht hy.1 hown progress.replicas hy.2)
      fun _ => hy.1.skip

/-- The decisions of one recovery. -/
theorem settleAll_safe {db : Database} (ht : picture.Taken db) (mode : RecoveryMode)
    (agents : List AgentTarget) (hx : x.store = db) (hmarked : db.Marked) :
    (settleAll mode agents picture).Safe (fun _ => True) Eq (Decides picture)
      (fun _ y => y.store.Marked) x := by
  have hstart : Undecided picture picture.candidates x := {
    marked := hx ▸ hmarked
    candidates := fun candidate hcandidate => hcandidate
    distinct := fileCandidates_nodup _
    files := fun candidate _ file hfile _ => by rw [ht.database, ← hx]; exact hfile }
  refine safe_bind.2 ((safe_foldlM_rest (J := fun rest _ => Undecided picture rest)
    (fun candidate rest replicas y hy => recoverFile_safe ht mode agents replicas hy) hstart).mono
    fun _ y hy => ?_)
  refine safe_onlyIf (fun _ => safe_write.2 ?_) fun _ => hy.marked
  rintro y rfl s hok -
  cases hok
  exact ⟨decides_of_files hy.marked rfl rfl (fun _ _ _ _ hw => nomatch hw), hy.marked.of_files rfl⟩

/-! ### What a recovery writes and asks -/

section

variable {P : Write → Prop} {A : Query → Prop}

theorem only_survey (mode : RecoveryMode) (hP : mode = .apply → ∀ w, Write.Locates w → P w)
    (hA : ∀ q, Query.Reads q → A q) (agents : List AgentTarget) : (survey mode agents).Only P A :=
  only_bind (only_mapM fun agent _ => only_scanAgent mode hP hA agent) fun _ =>
    only_bind only_get fun _ =>
    only_bind (only_mapM fun object _ => only_verifyReplicas hA _ _ object) fun _ =>
    only_bind (only_mapM fun replica _ => only_decodeEvidence replica) fun _ => trivial

/-- The planned repair of an object asks nothing. -/
theorem plan_ensureRf2 (context : RepairContext) (hplan : context.mode = .plan)
    (progress : Progress) (object : ObjectId) : (ensureRf2 context progress object).Only P A := by
  unfold ensureRf2
  split
  · trivial
  · split
    · trivial
    · refine only_bind (only_foldlM fun target _ repair => ?_) fun repair =>
        only_bind ?_ fun _ => trivial
      · unfold repairTo
        rw [hplan]
        split <;> trivial
      · rw [hplan]
        trivial

theorem plan_recoverFile (context : RepairContext) (hplan : context.mode = .plan)
    (committed : List (FileId × ObjectHash)) (replicas : List ReplicaSet)
    (candidate : FileCandidate) : (recoverFile context committed replicas candidate).Only P A := by
  refine only_bind (only_require _) fun own => only_bind ?_ fun progress => only_bind ?_ fun _ => trivial
  · unfold settle
    split
    · trivial
    · unfold ensureWinner
      split
      · exact only_foldlM fun object _ progress => plan_ensureRf2 context hplan progress object
      · trivial
      · exact plan_ensureRf2 context hplan _ _
      · trivial
  · rw [hplan]
    trivial

/-- Planning writes nothing, and asks only what changes nothing. -/
theorem only_recover_plan (agents : List AgentTarget) :
    (recover .plan agents).Only (fun _ => False) Query.Reads := by
  rw [recover_eq]
  refine only_bind (only_survey .plan (fun h => nomatch h) (fun _ h => h) agents) fun picture => ?_
  exact only_bind (only_foldlM fun candidate _ replicas =>
    plan_recoverFile _ rfl _ replicas candidate) fun _ => trivial

end

/-! ### Runs of a recovery -/

omit [Sealing] in
/-- Whatever a program does leaves one row for each file. -/
theorem Database.Marked.steps {α : Type} {p p' : Action α} (hx : x.store.Marked)
    (h : Steps p x p' y) : y.store.Marked := by
  induction h with
  | stop => exact hx
  | step first rest ih =>
    refine ih ?_
    cases first with
    | read next => exact hx
    | write ok => exact (hx.step ok).2
    | refused no => exact hx
    | ask a answers => exact hx

/-- A survey leaves the files as they are. -/
theorem survey_run {mode : RecoveryMode} {agents : List AgentTarget} {p : Action Picture}
    (h : Steps (survey mode agents) x p y) (hmarked : x.store.Marked) :
    Moves x y ∧ y.store.files = x.store.files := by
  have hsafe : (survey mode agents).Safe (O := O) (fun _ => True) Eq
      (fun x y => x.store.Marked → Moves x y ∧ y.store.files = x.store.files)
      (fun _ _ => True) x := by
    refine ((only_survey (A := Query.Reads) mode (fun _ _ h => h) (fun _ h => h) agents).safe
      (J := fun _ => True) trivial (fun _ _ _ _ => trivial) (fun w hw x s _ hok _ => ?_)
      fun q _ x a e _ _ _ => ?_)
    · refine ⟨fun hx => ⟨moves_wrote hx hok ?_, files_of_locates hw hok⟩, trivial⟩
      rintro manifest hash bytes now rfl
      exact hw.elim
    · exact ⟨fun _ => ⟨moves_asked x q a e, rfl⟩, trivial⟩
  refine (hsafe.steps (J := fun y => Moves x y ∧ y.store.files = x.store.files) h
    (fun _ _ h => h) trivial (fun z w hstep hz => ?_) ⟨.refl x, rfl⟩).1
  obtain ⟨hmoves, hfiles⟩ := hstep (hmarked.of_files hz.2)
  exact ⟨hz.1.trans hmoves, hfiles.trans hz.2⟩

/-- A recovery stops before it decides anything, or decides by a picture of the database. -/
theorem recover_run {mode : RecoveryMode} {agents : List AgentTarget} {p : Action Unit}
    (h : Steps (recover mode agents) x p y) (hmarked : x.store.Marked) :
    Moves x y ∧ (y.store.files = x.store.files ∨ ∃ picture z,
      Steps (survey mode agents) x (.done picture) z ∧ Steps (settleAll mode agents picture) z p y ∧
        z.store.files = x.store.files ∧ picture.Taken z.store ∧ Decides picture z y) := by
  rw [recover_eq] at h
  rcases h.bind with ⟨p', hsurvey, -⟩ | ⟨picture, z, hsurvey, hsettle⟩
  · obtain ⟨hmoves, hfiles⟩ := survey_run hsurvey hmarked
    exact ⟨hmoves, .inl hfiles⟩
  · obtain ⟨hmoves, hfiles⟩ := survey_run hsurvey hmarked
    have htaken : picture.Taken z.store :=
      ((survey_taken mode agents).steps hsurvey (fun _ _ h => h) trivial
        (fun _ _ _ _ => trivial) trivial).2
    have hdecides := ((settleAll_safe htaken mode agents rfl (hmarked.of_files hfiles)).steps
      (J := Decides picture z) hsettle (fun _ _ h => h) trivial
      (fun _ _ hstep hz => hz.trans hstep) (.refl picture z)).1
    exact ⟨hmoves.trans hdecides.moves,
      .inr ⟨picture, z, hsurvey, hsettle, hfiles, htaken, hdecides⟩⟩

end

/-! ## Whole runs -/

/-- The write makes a decision of recovery. -/
def Write.Recovers : Write → Prop
  | .applyRecoveredManifest _ _ _ _ => True
  | .applyRecoveredDeletion _ _ _ => True
  | .markRecoveryBlocked _ _ _ _ _ => True
  | _ => False

section

variable [Sealing]

/-- What happens one after the other: writes and questions of other operations, and recoveries,
which may stop anywhere. -/
inductive Goes : Scene O → Scene O → Prop
  | stop (x : Scene O) : Goes x x
  | wrote {x y : Scene O} {w : Write} {s : Database} (before : Goes x y) (other : ¬ w.Recovers)
      (ok : w.perform y.store = .ok s) : Goes x (y.wrote w s)
  | asked {x y : Scene O} {q : Query} {a : q.Answer} {e : O.State} (before : Goes x y)
      (answers : O.answers y.outside q a e) : Goes x (y.asked q a e)
  | recovered {x y z : Scene O} {mode : RecoveryMode} {agents : List AgentTarget} {p : Action Unit}
      (before : Goes x y) (run : Steps (recover mode agents) y p z) : Goes x z

theorem Goes.moves (h : Goes x y) (hx : x.store.Marked) : Moves x y ∧ y.store.Marked := by
  induction h with
  | stop => exact ⟨.refl x, hx⟩
  | wrote before other ok ih =>
    obtain ⟨hmoves, hy⟩ := ih
    refine ⟨hmoves.trans (moves_wrote hy ok ?_), (hy.step ok).2⟩
    rintro manifest hash bytes now rfl
    exact absurd trivial other
  | asked before answers ih => exact ⟨ih.1.trans (moves_asked _ _ _ _), ih.2⟩
  | recovered before run ih => exact ⟨ih.1.trans (recover_run run ih.2).1, ih.2.steps run⟩

/-- From a new database on, files only move forward, each recovery decides by the evidence of the
highest generation, one with conflicting evidence is not made readable, and planning changes
nothing. -/
theorem recovery_moves_forward {e : O.State} (hx : Goes ⟨.new, e, []⟩ x) (h : Goes x y) :
    Moves x y ∧ ∀ mode agents p z, Steps (recover mode agents) y p z →
    (z.store.files = y.store.files ∨ ∃ picture v, Steps (survey mode agents) y (.done picture) v ∧
      Steps (settleAll mode agents picture) v p z ∧ v.store.files = y.store.files ∧
      ∀ candidate ∈ picture.candidates,
        (∀ own, picture.winner candidate = some own →
          ((candidate.fileId, candidate.generation, own) ∈ picture.found ∨
            ∃ file ∈ y.store.files, Projects file (candidate.fileId, candidate.generation, own)) ∧
          (∀ generation other, (candidate.fileId, generation, other) ∈ picture.found →
            generation ≤ candidate.generation) ∧
          ∀ file ∈ y.store.files, file.fileId = candidate.fileId →
            (projectedEvidence file).isSome → file.generation ≤ candidate.generation) ∧
        ∀ a ∈ candidate.evidence, ∀ b ∈ candidate.evidence, a.object ≠ b.object →
          a.object.kind = .manifest → ∀ file ∈ z.store.files, file.fileId = candidate.fileId →
            file.state = .committed →
            ∃ old ∈ y.store.files, old.fileId = candidate.fileId ∧ old.state = .committed) ∧
    (mode = .plan → z.store = y.store ∧ ∃ later, z.past = y.past ++ later ∧
      ∀ event ∈ later, event.Of (fun _ => False) Query.Reads) := by
  have hmarked := (h.moves (hx.moves .new).2).2
  refine ⟨(h.moves (hx.moves .new).2).1, fun mode agents p z hrun => ?_⟩
  obtain ⟨-, hcases⟩ := recover_run hrun hmarked
  refine ⟨hcases.imp id ?_, ?_⟩
  · rintro ⟨picture, v, hsurvey, hsettle, hfiles, htaken, hdecides⟩
    refine ⟨picture, v, hsurvey, hsettle, hfiles, fun candidate hcandidate => ⟨fun own hwinner => ?_, ?_⟩⟩
    · obtain ⟨hevidence, hmax⟩ := mem_fileCandidates hcandidate
      have hsorted (file : FileRow) :
          file ∈ (picture.database.files.insertionSort fun a b => a.fileId ≤ b.fileId) ↔
            file ∈ y.store.files := by
        rw [(List.perm_insertionSort _ _).mem_iff, htaken.database, hfiles]
      refine ⟨?_, fun generation other hother => hmax _ _ (subset_allEvidence hother),
        fun file hfile hid hprojected => ?_⟩
      · rcases mem_allEvidence ((hevidence own).1 (winner_mem hwinner)) with hfound | ⟨file, hfile, hown⟩
        · exact .inl hfound
        · exact .inr ⟨file, (hsorted file).1 hfile, hown⟩
      · obtain ⟨own, hown⟩ := Option.isSome_iff_exists.1 hprojected
        obtain ⟨other, -, hother⟩ := projected_mem_allEvidence
          ((hsorted file).2 hfile) hown
        exact hmax _ _ (hid ▸ hother)
    · intro a ha b hb hne hkind file hfile hid hstate
      rw [← hfiles]
      exact hdecides.conflicts candidate hcandidate (conflicted_of_manifest ha hb hne hkind) file
        hfile hid hstate
  · rintro rfl
    exact ⟨(only_recover_plan agents).steps_store hrun, (only_recover_plan agents).steps hrun⟩

end

/-! ## A blocked file without evidence -/

/-- Manifests of one byte, their generation, of a file with one chunk. -/
abbrev generationsOnly : Sealing where
  digest := namingOnly.digest
  decodeManifest
    | [generation] => some ⟨5, generation.toNat, ⟨[], 0, 3⟩, [⟨0, 3, [], 9, 19⟩]⟩
    | _ => none
  decodeDeletionMarker _ := none

/-- Both agents hold the manifest of one generation, and nothing else. -/
def holdingManifest (generation : UInt8) : ∀ q : Query, q.Answer
  | .inventory _ .manifest => some [(generationsOnly.digest [generation], 1)]
  | .get _ _ => .body [generation]
  | q => answersAt 1000 q

/-- A recovery that finds the manifest of the second generation, but not its chunk. -/
def blockedAtTwo : Scene (.any portalWorld) :=
  letI := generationsOnly
  (advance (saying (W := portalWorld) (holdingManifest 2)) 1000 (recover .apply twoAgents)
    ⟨.new, (), []⟩).2

/-- The survey of the next recovery, that finds the manifest of the first generation only. -/
def surveyAtOne : Action Picture × Scene (.any portalWorld) :=
  letI := generationsOnly
  advance (saying (W := portalWorld) (holdingManifest 1)) 1000 (survey .apply twoAgents) blockedAtTwo

theorem goes_blockedAtTwo :
    @Goes _ generationsOnly ⟨.new, (), []⟩ blockedAtTwo :=
  let _ := generationsOnly
  .recovered (.stop _) (steps_advance (faithful_saying _) 1000 _ _)

theorem recovery_moves_forward_two :
    let planned := @recover generationsOnly .plan twoAgents
    (advance (saying (W := portalWorld) (holdingManifest 1)) 1000 planned blockedAtTwo).2.store =
      blockedAtTwo.store := by
  let _ := generationsOnly
  obtain ⟨-, hruns⟩ := recovery_moves_forward (.stop _) goes_blockedAtTwo
  exact ((hruns .plan twoAgents _ _ (steps_advance (faithful_saying _) 1000 _ _)).2 rfl).1

/-- What wins can be below the generation the projection has. -/
theorem winner_below_projection :
    ¬ ∀ (_ : Sealing) (x z : Scene (.any portalWorld)) (mode : RecoveryMode)
      (agents : List AgentTarget) (picture : Picture), Goes ⟨.new, (), []⟩ x →
      Steps (survey mode agents) x (.done picture) z → ∀ candidate ∈ picture.candidates,
        (picture.winner candidate).isSome → ∀ file ∈ z.store.files,
          file.fileId = candidate.fileId → file.generation ≤ candidate.generation := by
  intro h
  let _ := generationsOnly
  have hsteps : Steps (survey .apply twoAgents) blockedAtTwo surveyAtOne.1 surveyAtOne.2 :=
    steps_advance (faithful_saying _) 1000 _ _
  have hbelow : ∃ picture, surveyAtOne.1.result = some picture ∧
      ∃ candidate ∈ picture.candidates, (picture.winner candidate).isSome ∧
        ∃ file ∈ surveyAtOne.2.store.files, file.fileId = candidate.fileId ∧
          candidate.generation < file.generation := by
    decide +kernel
  obtain ⟨picture, hdone, candidate, hcandidate, hwinner, file, hfile, hid, hlt⟩ := hbelow
  rw [eq_done hdone] at hsteps
  exact absurd (h generationsOnly _ _ _ _ picture goes_blockedAtTwo hsteps candidate hcandidate
    hwinner file hfile hid) (not_le.2 hlt)

end Metadata

end DistrHnsw
