import DistrHnsw.Lib.Rows
import DistrHnsw.Metadata.Generations
import DistrHnsw.Metadata.PortalRuns
import Mathlib.Data.List.Dedup

/-!
# What recovery goes by

A recovery first surveys the agents and the projection, writing nothing about files, and then
decides file by file.  `Picture` is what the survey found; the evidence of a candidate is that of
the file's highest generation in the picture.
-/

namespace DistrHnsw

namespace Metadata

namespace Recovery

open Program Portal Database

/-! ## Survey and decisions -/

/-- The verified replicas, the control objects decoded from them, and the projection. -/
structure Picture where
  database : Database
  incarnations : List (AgentId × IncarnationId)
  replicas : List ReplicaSet
  found : List (FileId × ℕ × Evidence)

namespace Picture

/-- All evidence of all files. -/
def evidence (picture : Picture) : List (FileId × ℕ × Evidence) :=
  allEvidence picture.found (picture.database.files.insertionSort fun a b => a.fileId ≤ b.fileId)

def candidates (picture : Picture) : List FileCandidate := fileCandidates picture.evidence

/-- The evidence that decides the candidate. -/
def winner (picture : Picture) (candidate : FileCandidate) : Option Evidence :=
  Recovery.winner ((committedDeletions picture.database).lookup candidate.fileId) candidate.evidence

end Picture

section

variable [Sealing]

def survey (mode : RecoveryMode) (agents : List AgentTarget) : Action Picture := do
  let scans ← agents.mapM (scanAgent mode)
  let listed := (scans.map (·.2)).flatten
  let objects := (listed.map (·.object)).dedup.insertionSort Database.ObjectOrder
  let db ← database
  let replicas ← objects.mapM (verifyReplicas (projectedControlObjects db) listed)
  let replicas := replicas.filterMap id
  let found ← replicas.mapM decodeEvidence
  return ⟨db, scans.map (·.1), replicas, found.filterMap id⟩

def settleAll (mode : RecoveryMode) (agents : List AgentTarget) (picture : Picture) :
    Action Unit := do
  let _ ← picture.candidates.foldlM (recoverFile ⟨agents, picture.incarnations, mode⟩
    (committedDeletions picture.database)) picture.replicas
  onlyIf (mode = .apply) (write .clearRecoveryPending)

/-- A recovery is a survey and then its decisions. -/
theorem recover_eq (mode : RecoveryMode) (agents : List AgentTarget) :
    recover mode agents = survey mode agents >>= settleAll mode agents := by
  simp only [recover, survey, settleAll, bind_assoc, pure_bind]
  rfl

/-- The file, generation and evidence of a verified control object; `none` is refused. -/
def decoded (replica : ReplicaSet) : Option (Option (FileId × ℕ × Evidence)) :=
  match replica.bytes with
  | none => some none
  | some bytes =>
    match replica.object.kind with
    | .chunk => some none
    | .manifest => (Sealing.decodeManifest bytes).map fun manifest =>
        some (manifest.fileId, manifest.generation, .manifest replica.object.hash (some manifest))
    | .deletionMarker => (Sealing.decodeDeletionMarker bytes).map fun marker =>
        some (marker.fileId, marker.generation, .deletion replica.object.hash (some marker))

theorem decodeEvidence_eq (replica : ReplicaSet) : decodeEvidence replica = require (decoded replica) := by
  unfold decodeEvidence decoded
  cases replica.bytes with
  | none => rfl
  | some bytes =>
    cases replica.object.kind with
    | chunk => rfl
    | manifest =>
      dsimp only
      cases Sealing.decodeManifest bytes <;> rfl
    | deletionMarker =>
      dsimp only
      cases Sealing.decodeDeletionMarker bytes <;> rfl

end

/-! ## The evidence of a picture -/

/-- The projection names the object at the generation of the file. -/
def Projects (file : FileRow) (entry : FileId × ℕ × Evidence) : Prop :=
  projectedEvidence file = some entry.2.2 ∧ entry.1 = file.fileId ∧ entry.2.1 = file.generation

theorem mem_allEvidence {found : List (FileId × ℕ × Evidence)} {files : List FileRow}
    {entry : FileId × ℕ × Evidence} (h : entry ∈ allEvidence found files) :
    entry ∈ found ∨ ∃ file ∈ files, Projects file entry := by
  induction files generalizing found with
  | nil => exact .inl h
  | cons file files ih =>
    unfold allEvidence at h ih
    rw [List.foldl_cons] at h
    rcases ih h with hnow | ⟨other, hother, hprojects⟩
    · split at hnow
      · exact .inl hnow
      · next own hown =>
        split at hnow
        · exact .inl hnow
        · rcases List.mem_append.1 hnow with hnow | hnow
          · exact .inl hnow
          · obtain rfl := List.mem_singleton.1 hnow
            exact .inr ⟨file, List.mem_cons_self, hown, rfl, rfl⟩
    · exact .inr ⟨other, List.mem_cons_of_mem _ hother, hprojects⟩

/-- The step of one file in `allEvidence`. -/
theorem subset_allEvidence {found : List (FileId × ℕ × Evidence)} {files : List FileRow}
    {entry : FileId × ℕ × Evidence} (h : entry ∈ found) : entry ∈ allEvidence found files := by
  induction files generalizing found with
  | nil => exact h
  | cons file files ih =>
    unfold allEvidence at ih ⊢
    rw [List.foldl_cons]
    refine ih ?_
    split
    · exact h
    · split
      · exact h
      · exact List.mem_append_left _ h

/-- What the projection names is evidence. -/
theorem projected_mem_allEvidence {found : List (FileId × ℕ × Evidence)} {files : List FileRow}
    {file : FileRow} (hfile : file ∈ files) {own : Evidence} (hown : projectedEvidence file = some own) :
    ∃ other, other.object = own.object ∧
      (file.fileId, file.generation, other) ∈ allEvidence found files := by
  induction files generalizing found with
  | nil => exact absurd hfile List.not_mem_nil
  | cons first files ih =>
    rcases List.mem_cons.1 hfile with rfl | hmem
    · rw [allEvidence, List.foldl_cons, hown]
      dsimp only
      split
      · next hany =>
        obtain ⟨⟨id, generation, other⟩, hother, hsame⟩ := List.any_eq_true.1 hany
        simp only [Bool.and_eq_true, beq_iff_eq] at hsame
        obtain ⟨⟨rfl, rfl⟩, hobject⟩ := hsame
        exact ⟨other, hobject, subset_allEvidence hother⟩
      · have hadded : (file.fileId, file.generation, own) ∈
            found ++ [(file.fileId, file.generation, own)] :=
          List.mem_append_right _ (List.mem_singleton_self _)
        exact ⟨own, rfl, subset_allEvidence hadded⟩
    · unfold allEvidence at ih ⊢
      rw [List.foldl_cons]
      exact ih hmem

theorem le_foldl_max (l : List ℕ) (m : ℕ) : m ≤ l.foldl max m ∧ ∀ n ∈ l, n ≤ l.foldl max m := by
  induction l generalizing m with
  | nil => exact ⟨le_rfl, fun _ h => absurd h List.not_mem_nil⟩
  | cons a l ih =>
    rw [List.foldl_cons]
    obtain ⟨hm, hl⟩ := ih (max m a)
    refine ⟨le_trans (le_max_left m a) hm, fun n hn => ?_⟩
    rcases List.mem_cons.1 hn with rfl | hn
    · exact le_trans (le_max_right m n) hm
    · exact hl n hn

/-- The evidence of a candidate is all that is known of the file at its highest generation. -/
theorem mem_fileCandidates {evidence : List (FileId × ℕ × Evidence)} {candidate : FileCandidate}
    (h : candidate ∈ fileCandidates evidence) :
    (∀ own, own ∈ candidate.evidence ↔ (candidate.fileId, candidate.generation, own) ∈ evidence) ∧
      ∀ generation own, (candidate.fileId, generation, own) ∈ evidence →
        generation ≤ candidate.generation := by
  obtain ⟨file, -, rfl⟩ := List.mem_map.1 h
  dsimp only
  have hown (generation : ℕ) (own : Evidence) :
      (generation, own) ∈ (evidence.filter (·.1 == file)).map Prod.snd ↔
        (file, generation, own) ∈ evidence := by
    simp [List.mem_map, List.mem_filter, Prod.exists]
  refine ⟨fun own => ?_, fun generation own hmem => ?_⟩
  · rw [← hown]
    simp [List.mem_map, List.mem_filter, Prod.exists]
  · have hmem := (hown generation own).2 hmem
    exact (le_foldl_max _ 0).2 generation (List.mem_map.2 ⟨_, hmem, rfl⟩)

/-- Each file is one candidate. -/
theorem fileCandidates_nodup (evidence : List (FileId × ℕ × Evidence)) :
    ((fileCandidates evidence).map (·.fileId)).Nodup := by
  unfold fileCandidates
  rw [List.map_map]
  show (List.map (fun file => file) _).Nodup
  rw [List.map_id']
  exact (List.perm_insertionSort _ _).nodup_iff.2 (List.nodup_dedup _)

theorem chooseMarker_mem {committed : Option ObjectHash}
    {markers : List (ObjectHash × DeletionMarker)} {chosen : ObjectHash × DeletionMarker}
    (h : chooseMarker committed markers = some chosen) : chosen ∈ markers := by
  induction markers generalizing chosen with
  | nil => cases h
  | cons marker rest ih =>
    unfold chooseMarker at h
    cases hrest : chooseMarker committed rest with
    | none =>
      rw [hrest] at h
      cases h
      exact List.mem_cons_self
    | some best =>
      simp only [hrest] at h
      split at h
      · cases h
        exact List.mem_cons_self
      · cases h
        exact List.mem_cons_of_mem _ (ih hrest)

/-- The winner is evidence of the candidate. -/
theorem winner_mem {committed : Option ObjectHash} {evidence : List Evidence} {own : Evidence}
    (h : winner committed evidence = some own) : own ∈ evidence := by
  unfold winner at h
  split at h
  · split at h
    · next hash marker hchosen =>
      cases h
      obtain ⟨item, hitem, heq⟩ := List.mem_filterMap.1 (chooseMarker_mem hchosen)
      cases item with
      | manifest hash decoded => cases heq
      | deletion hash decoded =>
        cases decoded with
        | none => cases heq
        | some marker =>
          cases heq
          exact hitem
    · exact List.mem_of_mem_head? h
  · exact List.mem_of_mem_head? h

/-- Different objects, one of them a manifest, are a conflict. -/
theorem conflicted_of_manifest {evidence : List Evidence} {a b : Evidence} (ha : a ∈ evidence)
    (hb : b ∈ evidence) (hne : a.object ≠ b.object) (hkind : a.object.kind = .manifest) :
    conflicted evidence = true := by
  have hmany : 1 < (evidence.map (·.object)).dedup.length :=
    two_le_dedup_of_ne (List.mem_map.2 ⟨a, ha, rfl⟩) (List.mem_map.2 ⟨b, hb, rfl⟩) hne
  have hnot : evidence.all (·.object.kind == .deletionMarker) = false := by
    rw [Bool.eq_false_iff, Ne, List.all_eq_true]
    intro hall
    have hkind' := hall a ha
    rw [beq_iff_eq, hkind] at hkind'
    cases hkind'
  simp [conflicted, redundantMarkers, hmany, hnot]

/-! ## What a survey takes -/

theorem mapM_some_mem {α β : Type} {f : α → Option β} {l : List α} {l' : List β}
    (h : l.mapM f = some l') : ∀ b ∈ l', ∃ a ∈ l, f a = some b := by
  induction l generalizing l' with
  | nil =>
    cases h
    exact fun _ hb => absurd hb List.not_mem_nil
  | cons a l ih =>
    rw [List.mapM_cons] at h
    obtain ⟨first, hfirst, h⟩ := Option.bind_eq_some_iff.1 h
    obtain ⟨rest, hrest, h⟩ := Option.bind_eq_some_iff.1 h
    cases h
    intro b hb
    rcases List.mem_cons.1 hb with rfl | hb
    · exact ⟨a, List.mem_cons_self, hfirst⟩
    · obtain ⟨own, hown, heq⟩ := ih hrest b hb
      exact ⟨own, List.mem_cons_of_mem _ hown, heq⟩

section

variable [Sealing] {O : Outside portalWorld} {x : Scene O}

/-- The picture shows the projection, and what verified control objects speak for. -/
structure Picture.Taken (picture : Picture) (db : Database) : Prop where
  database : picture.database = db
  found : ∀ entry ∈ picture.found, ∃ replica ∈ picture.replicas, decoded replica = some (some entry)

/-- A survey ends with a picture of the database as it is. -/
theorem survey_taken (mode : RecoveryMode) (agents : List AgentTarget) :
    (survey mode agents).Safe (fun _ => True) Eq (fun _ _ => True)
      (fun picture x => picture.Taken x.store) x := by
  have hany {α : Type} {P : Write → Prop} {p : Action α} (hp : p.Only P Query.Reads) (x : Scene O) :
      p.Safe (fun _ => True) Eq (fun _ _ => True) (fun _ _ => True) x :=
    hp.safe (J := fun _ => True) trivial (fun _ _ h _ => h) (fun _ _ _ _ _ _ _ => ⟨trivial, trivial⟩)
      fun _ _ _ _ _ _ _ _ => ⟨trivial, trivial⟩
  unfold survey
  refine safe_bind.2 ((hany (only_mapM fun agent _ =>
    only_scanAgent (P := Write.Locates) mode (fun _ _ h => h) (fun _ h => h) agent) x).mono fun scans x _ => ?_)
  refine safe_bind.2 (safe_database.2 ?_)
  rintro y rfl
  refine safe_bind.2 (Safe.mono (Q := fun _ y => y.store = x.store) ?_ fun replicas y hy => ?_)
  · refine (only_mapM fun object _ => only_verifyReplicas (P := fun _ => False)
      (A := Query.Reads) (fun _ h => h) _ _ object).safe
      (J := fun y => y.store = x.store) rfl ?_ (fun _ h => h.elim) ?_
    · rintro y z h rfl
      exact h
    · exact fun _ _ y _ _ h _ _ => ⟨trivial, h⟩
  · have hdecode : decodeEvidence = fun replica => require (decoded replica) :=
      funext decodeEvidence_eq
    rw [hdecode]
    dsimp only
    rw [mapM_require]
    refine safe_bind.2 (safe_require fun found hfound => ?_)
    refine ⟨hy.symm, fun entry hentry => ?_⟩
    obtain ⟨item, hitem, rfl⟩ := List.mem_filterMap.1 hentry
    exact mapM_some_mem hfound _ hitem

end

end Recovery

end Metadata

end DistrHnsw
