import DistrHnsw.Metadata.Credentials
import DistrHnsw.Metadata.Manifests
import DistrHnsw.Metadata.Recoveries

/-!
# One manifest of each file

Uploads, retries, backup jobs, recoveries and restores of shipped snapshots, one after the other.
As long as no retry goes on from a plan that is behind what agents accepted, agents never accept two
manifests of one file; a restored database that lost its plan is where they do.
-/

namespace DistrHnsw

namespace Metadata

open Program Portal Database Recovery

/-! ## The invariant -/

/-- The snapshot an event sends to a backup target. -/
def sentSnapshot : Event portalWorld → Option Database
  | .asked _ (.putSnapshot _ _ snapshot) _ => some snapshot
  | _ => none

section

variable [Sealing] {S T : FileId → Prop} {x y : Scene fleetWorld} {upload : UploadRow}
  {hash : ObjectHash} {bytes : Bytes}

/-- Tables, snapshots and agents know one manifest of each file; uncommitted uploads of the files in
`S` have planned the one that agents hold. -/
structure Sole (S : FileId → Prop) (x : Scene fleetWorld) : Prop where
  tables : Vouched x.past x.outside x.store
  agents : Stocked x.past x.outside
  snapshots : ∀ event ∈ x.past, ∀ snapshot, sentSnapshot event = some snapshot →
    Vouched x.past x.outside snapshot
  agreed : ∀ row ∈ x.store.uploads, S row.fileId → row.state ≠ .committed → Agrees x.outside row

theorem Sole.mono (h : Sole T x) (hST : ∀ file, S file → T file) : Sole S x :=
  ⟨h.tables, h.agents, h.snapshots, fun row hrow hfile => h.agreed row hrow (hST _ hfile)⟩

/-- Every step keeps the invariant. -/
abbrev KeepsSole (S : FileId → Prop) : Scene fleetWorld → Scene fleetWorld → Prop :=
  fun _ y => Sole S y

omit [Sealing] in
theorem drawn_snoc (past : List (Event portalWorld)) (event : Event portalWorld) :
    ∀ file ∈ drawn past, file ∈ drawn (past ++ [event]) := fun _ h => mem_drawn_append [event] h

/-- An answer after which agents hold the same manifests. -/
theorem Sole.asked (h : Sole S x) {q : portalWorld.Query} {a : portalWorld.Answer q} {e : Fleet}
    (hsame : SameControls x.outside e)
    (hsent : ∀ snapshot, sentSnapshot (.asked (W := portalWorld) x.store q a) = some snapshot →
      Vouched x.past x.outside snapshot) : Sole S (x.asked q a e) := by
  have hmono {db : Database} (hdb : Vouched x.past x.outside db) :
      Vouched (x.past ++ [.asked (W := portalWorld) x.store q a]) e db :=
    hdb.mono (drawn_snoc _ _) fun hash => hsame.manifest.2
  refine ⟨hmono h.tables, h.agents.same hsame (drawn_snoc _ _), fun event hevent snapshot hship => ?_,
    fun row hrow hfile hstate => (h.agreed row hrow hfile hstate).same hsame⟩
  rcases List.mem_append.1 hevent with hevent | hevent
  · exact hmono (h.snapshots event hevent snapshot hship)
  · rw [List.mem_singleton.1 hevent] at hship
    exact hmono (hsent snapshot hship)

/-- A write that leaves the tables vouched for. -/
theorem Sole.wrote (h : Sole S x) {w : Write} {s : Database}
    (htables : Vouched x.past x.outside s)
    (hagreed : ∀ row ∈ s.uploads, S row.fileId → row.state ≠ .committed → Agrees x.outside row) :
    Sole S (x.wrote w s) := by
  have hmono {db : Database} (hdb : Vouched x.past x.outside db) :
      Vouched (x.past ++ [.wrote (W := portalWorld) x.store w]) x.outside db :=
    hdb.mono (drawn_snoc _ _) fun hash hheld => hheld
  refine ⟨hmono htables, h.agents.same (fun _ _ => Iff.rfl) (drawn_snoc _ _),
    fun event hevent snapshot hship => ?_, hagreed⟩
  rcases List.mem_append.1 hevent with hevent | hevent
  · exact hmono (h.snapshots event hevent snapshot hship)
  · rw [List.mem_singleton.1 hevent] at hship
    cases hship

/-! ## Steps aside -/

/-- The write leaves uploads and files alone. -/
def Write.Aside (w : Write) : Prop :=
  ∀ db s, w.perform db = .ok s → s.uploads = db.uploads ∧ s.files = db.files

/-- The question leaves manifests and markers on the agents alone, and ships no snapshot. -/
def Query.Aside : Query → Prop
  | .put _ object _ => object.kind = .chunk
  | .delete _ _ _ => False
  | .putSnapshot _ _ _ => False
  | _ => True

omit [Sealing] in
theorem aside_of_holdings {w : Write} (hw : w.AboutHoldings) : w.Aside := by
  intro db s hok
  have htables := (hw.frame hok).1
  exact ⟨congrArg Tables.uploads htables, congrArg Tables.files htables⟩

omit [Sealing] in
theorem aside_of_locates (w : Write) (hw : w.Locates) : w.Aside := by
  cases w with
  | observeAgentIncarnation agent incarnation => exact aside_of_holdings (.inl trivial)
  | ensurePendingPlacement object agent incarnation => exact aside_of_holdings (.inl trivial)
  | confirmPlacement object agent => exact aside_of_holdings (.inl trivial)
  | _ => exact hw.elim

omit [Sealing] in
theorem aside_of_job (w : Write) (hw : w.ByJob) : w.Aside := by
  cases w with
  | createBackupJob id target => exact aside_of_holdings (.inr trivial)
  | finishBackupJob id status report => exact aside_of_holdings (.inr trivial)
  | recordBackupObject target object => exact aside_of_holdings (.inr trivial)
  | _ => exact hw.elim

omit [Sealing] in
theorem aside_setChunkObject (upload : UploadId) (ordinal : ℕ) (hash : ObjectHash) (len : ℕ) :
    (Write.setChunkObject upload ordinal hash len).Aside := by
  intro db s hok
  have hchunk : db.setChunkObject upload ordinal hash len = .ok s := hok
  unfold setChunkObject at hchunk
  obtain ⟨row, -, hchunk⟩ := bind_eq_ok.1 hchunk
  split at hchunk
  · obtain ⟨_, -, hchunk⟩ := bind_eq_ok.1 hchunk
    cases hchunk
    exact ⟨rfl, rfl⟩
  · cases hchunk
    exact ⟨rfl, rfl⟩

omit [Sealing] in
theorem asideQuery_of_reads (q : Query) (h : q.Reads) : q.Aside := by
  cases q <;> first | exact h.elim | exact trivial

omit [Sealing] in
theorem asideQuery_of_job (q : Query) (h : q.OfJob) : q.Aside := by
  cases q <;> first | exact h.elim | exact trivial

omit [Sealing] in
theorem sameControls_setHolds {fleet : Fleet} {agent : AgentId} {object : ObjectId}
    (h : object.kind = .chunk ∨ fleet.Holds object) :
    SameControls fleet (fleet.setHolds agent object true) := by
  intro thing hthing
  rw [Fleet.holds_setHolds]
  refine ⟨fun hor => hor.elim (fun heq => ?_) id, .inr⟩
  rcases h with hchunk | hheld
  · exact absurd (heq ▸ hchunk) hthing
  · exact heq ▸ hheld

/-- What a PUT leaves of the manifests. -/
theorem sameControls_puts {fleet e : Fleet} {agent : AgentTarget} {object : ObjectId} {answer : Stored}
    (h : object.kind = .chunk ∨ fleet.Holds object) (hputs : fleet.puts agent object bytes e answer) :
    SameControls fleet e := by
  cases answer with
  | stored =>
    obtain ⟨-, -, rfl⟩ := hputs
    exact sameControls_setHolds h
  | _ =>
    rcases hputs with rfl | ⟨-, rfl⟩
    · exact fun _ _ => Iff.rfl
    · exact sameControls_setHolds h

theorem sameControls_of_aside {fleet e : Fleet} {q : Query} {a : q.Answer} (hq : q.Aside)
    (hanswers : fleet.answers q a e) : SameControls fleet e := by
  cases q with
  | put agent object bytes => exact sameControls_puts (.inl hq) hanswers
  | delete agent object proof => exact hq.elim
  | health agent =>
    obtain ⟨rfl, -⟩ := hanswers
    exact fun _ _ => Iff.rfl
  | get agent object =>
    obtain ⟨rfl, -⟩ := hanswers
    exact fun _ _ => Iff.rfl
  | _ =>
    obtain rfl : e = fleet := hanswers
    exact fun _ _ => Iff.rfl

/-- The tables of uploads and files, and the manifests on the agents, are the same. -/
structure Still (x y : Scene fleetWorld) : Prop where
  uploads : y.store.uploads = x.store.uploads
  files : y.store.files = x.store.files
  controls : SameControls x.outside y.outside
  drawn : ∀ file ∈ drawn x.past, file ∈ drawn y.past

theorem Still.refl (x : Scene fleetWorld) : Still x x := ⟨rfl, rfl, fun _ _ => Iff.rfl, fun _ h => h⟩

theorem Still.trans {z : Scene fleetWorld} (h₁ : Still x y) (h₂ : Still y z) : Still x z :=
  ⟨h₂.uploads.trans h₁.uploads, h₂.files.trans h₁.files,
    fun object hkind => (h₂.controls object hkind).trans (h₁.controls object hkind),
    fun file hfile => h₂.drawn file (h₁.drawn file hfile)⟩

theorem Sole.aside_wrote (h : Sole S x) {w : Write} {s : Database} (hw : w.Aside)
    (hok : w.perform x.store = .ok s) : Sole S (x.wrote w s) ∧ Still x (x.wrote w s) := by
  obtain ⟨huploads, hfiles⟩ := hw x.store s hok
  exact ⟨h.wrote (h.tables.of_eq huploads hfiles) (huploads ▸ h.agreed),
    huploads, hfiles, fun _ _ => Iff.rfl, drawn_snoc _ _⟩

theorem Sole.same_asked (h : Sole S x) {q : portalWorld.Query} {a : portalWorld.Answer q} {e : Fleet}
    (hsame : SameControls x.outside e)
    (hnot : sentSnapshot (.asked (W := portalWorld) x.store q a) = none) :
    Sole S (x.asked q a e) ∧ Still x (x.asked q a e) :=
  ⟨h.asked hsame fun _ hship => absurd (hnot.symm.trans hship) (Option.some_ne_none _).symm,
    rfl, rfl, hsame, drawn_snoc _ _⟩

theorem Sole.aside_asked (h : Sole S x) {q : Query} {a : q.Answer} {e : Fleet} (hq : q.Aside)
    (hanswers : x.outside.answers q a e) :
    Sole S (x.asked (O := fleetWorld) q a e) ∧ Still x (x.asked (O := fleetWorld) q a e) := by
  refine h.same_asked (sameControls_of_aside hq hanswers) ?_
  cases q <;> first | exact hq.elim | rfl

/-- A program that stays aside. -/
theorem Sole.aside {α : Type} {p : Action α} {Fine : List (Event portalWorld) → Prop}
    (h : Sole T x) (hST : ∀ file, S file → T file) (hp : p.Only Write.Aside Query.Aside) :
    p.Safe Fine Eq (KeepsSole S) (fun _ y => Sole T y ∧ Still x y) x := by
  refine hp.safe (J := fun y => Sole T y ∧ Still x y) ⟨h, .refl x⟩ (fun y z hy heq => heq ▸ hy)
    (fun w hw y s hy hok _ => ?_) fun q hq y a e hy hanswers _ => ?_
  · obtain ⟨hsole, hstill⟩ := hy.1.aside_wrote hw hok
    exact ⟨hsole.mono hST, hsole, hy.2.trans hstill⟩
  · obtain ⟨hsole, hstill⟩ := hy.1.aside_asked hq hanswers
    exact ⟨hsole.mono hST, hsole, hy.2.trans hstill⟩

/-! ## An upload -/

/-- The upload goes on from its row. -/
structure Resumes (T : FileId → Prop) (upload : UploadRow) (x : Scene fleetWorld) : Prop where
  sole : Sole T x
  row : ∃ row ∈ x.store.uploads, row.uploadId = upload.uploadId ∧ row.fileId = upload.fileId ∧
    row.state ≠ .committed ∧ row.manifest = upload.manifest

/-- The upload planned the manifest. -/
structure Planned (T : FileId → Prop) (upload : UploadRow) (hash : ObjectHash) (bytes : Bytes)
    (x : Scene fleetWorld) : Prop where
  sole : Sole T x
  row : ∃ row ∈ x.store.uploads, row.uploadId = upload.uploadId ∧ row.fileId = upload.fileId ∧
    row.state ≠ .committed ∧ row.manifest = some (hash, bytes)

theorem Resumes.still (h : Resumes T upload x) (hsole : Sole T y) (hstill : Still x y) :
    Resumes T upload y := ⟨hsole, hstill.uploads ▸ h.row⟩

theorem Planned.still (h : Planned T upload hash bytes x) (hsole : Sole T y) (hstill : Still x y) :
    Planned T upload hash bytes y := ⟨hsole, hstill.uploads ▸ h.row⟩

/-- A change of the upload's row that keeps its plan. -/
theorem Resumes.advance (h : Resumes T upload x) {s : Database}
    (hok : x.store.advanceUpload upload.uploadId .replicatingChunks = .ok s) :
    Resumes T upload (x.wrote (.advanceUpload upload.uploadId .replicatingChunks) s) := by
  have htables := h.sole.tables.advanceUpload hok
  obtain ⟨old, hold, hid, hpending, rfl⟩ := advanceUpload_spec hok
  obtain ⟨row, hrow, hrowId, hfile, hstate, hplan⟩ := h.row
  refine ⟨h.sole.wrote htables fun own hown hfile' hnot => ?_,
    ⟨_, List.mem_map.2 ⟨row, hrow, if_pos hrowId⟩, hrowId, hfile, (fun h => nomatch h), hplan⟩⟩
  obtain ⟨before, hbefore, rfl⟩ := List.mem_map.1 hown
  by_cases hthis : before.uploadId = upload.uploadId
  · rw [if_pos hthis] at hfile' hnot ⊢
    obtain rfl := h.sole.tables.upload_unique hbefore hold (hthis.trans hid.symm)
    exact h.sole.agreed before hbefore hfile' hpending
  · rw [if_neg hthis] at hfile' hnot ⊢
    exact h.sole.agreed before hbefore hfile' hnot

/-- A newly sealed manifest is planned. -/
theorem Resumes.plan (h : Resumes T upload x) (hnone : upload.manifest = none)
    (hspeaks : Speaks (Sealing.digest bytes) upload.fileId 1) {s : Database}
    (hok : x.store.setManifestPlan upload.uploadId (Sealing.digest bytes) bytes = .ok s) :
    Planned T upload (Sealing.digest bytes) bytes
      (x.wrote (.setManifestPlan upload.uploadId (Sealing.digest bytes) bytes) s) := by
  obtain ⟨row, hrow, hid, hfile, hpending, hplan⟩ := h.row
  have hunique {own : UploadRow} (hown : own ∈ x.store.uploads)
      (hownId : own.uploadId = upload.uploadId) : own = row :=
    h.sole.tables.upload_unique hown hrow (hownId.trans hid.symm)
  have htables := h.sole.tables.setManifestPlan rfl (fun own hown hownId => by
    rw [hunique hown hownId, hfile]
    exact hspeaks) hok
  obtain ⟨own, hown, hownId, ⟨-, hplanned⟩ | ⟨-, rfl⟩⟩ := setManifestPlan_spec hok
  · rw [hunique hown hownId, hplan, hnone] at hplanned
    cases hplanned
  refine ⟨h.sole.wrote htables fun own hown hfile' hnot => ?_,
    ⟨_, List.mem_map.2 ⟨row, hrow, if_pos hid⟩, hid, hfile, (fun h => nomatch h), rfl⟩⟩
  obtain ⟨before, hbefore, rfl⟩ := List.mem_map.1 hown
  by_cases hthis : before.uploadId = upload.uploadId
  · -- Agents hold no manifest of a file that has no plan.
    rw [if_pos hthis] at hfile' ⊢
    obtain rfl := hunique hbefore hthis
    intro held hheld hheldSpeaks
    obtain ⟨content, hcontent⟩ := h.sole.agreed before hbefore hfile' hpending held hheld hheldSpeaks
    rw [hplan, hnone] at hcontent
    cases hcontent
  · rw [if_neg hthis] at hfile' hnot ⊢
    exact h.sole.agreed before hbefore hfile' hnot

/-- The planned manifest is put to an agent. -/
theorem Planned.put (h : Planned T upload hash bytes x) (hT : T upload.fileId)
    (hdigest : Function.Injective Sealing.digest) {agent : AgentTarget} {answer : Stored} {e : Fleet}
    (hputs : x.outside.puts agent ⟨.manifest, hash⟩ bytes e answer) :
    Planned T upload hash bytes (x.asked (O := fleetWorld) (.put agent ⟨.manifest, hash⟩ bytes)
      answer e) := by
  obtain ⟨row, hrow, hid, hfile, hpending, hplan⟩ := h.row
  have hspeaks : Speaks hash row.fileId 1 := ((h.sole.tables.uploads row hrow).plan _ _ hplan).2
  have hagrees := h.sole.agreed row hrow (hfile ▸ hT) hpending
  have hkept (hsame : e = x.outside) : Sole T
      (x.asked (O := fleetWorld) (.put agent ⟨.manifest, hash⟩ bytes) answer e) :=
    (h.sole.same_asked (hsame ▸ fun _ _ => Iff.rfl) rfl).1
  have hstored (hset : e = x.outside.setHolds agent.id ⟨.manifest, hash⟩ true) : Sole T
      (x.asked (O := fleetWorld) (.put agent ⟨.manifest, hash⟩ bytes) answer e) := by
    have hholds : ∀ other, x.outside.HoldsManifest other → e.HoldsManifest other := by
      rw [hset]
      exact fun other hheld => Fleet.holds_setHolds.2 (.inr hheld)
    have hstocked : Stocked x.past e := by
      rw [hset]
      refine h.sole.agents.stored hdigest (h.sole.tables.uploads row hrow).known hspeaks
        fun other hheld hother => ?_
      obtain ⟨content, hcontent⟩ := hagrees other hheld hother
      rw [hplan] at hcontent
      cases hcontent
      rfl
    refine ⟨h.sole.tables.mono (drawn_snoc _ _) hholds,
      hstocked.same (fun _ _ => Iff.rfl) (drawn_snoc _ _), fun event hevent snapshot hship => ?_,
      fun own hown hfile' hnot held hheld hheldSpeaks => ?_⟩
    · rcases List.mem_append.1 hevent with hevent | hevent
      · exact (h.sole.snapshots event hevent snapshot hship).mono (drawn_snoc _ _) hholds
      · rw [List.mem_singleton.1 hevent] at hship
        cases hship
    · have hheld : e.HoldsManifest held := hheld
      rw [hset] at hheld
      rcases Fleet.holds_setHolds.1 hheld with heq | hbefore
      · cases heq
        have hsame := (hheldSpeaks.unique hdigest hspeaks).1
        rw [h.sole.tables.upload_unique_file hown hrow hsame]
        exact ⟨bytes, hplan⟩
      · exact h.sole.agreed own hown hfile' hnot held hbefore hheldSpeaks
  refine ⟨?_, row, hrow, hid, hfile, hpending, hplan⟩
  cases answer with
  | stored => exact hstored hputs.2.2
  | _ =>
    rcases hputs with hsame | ⟨-, hset⟩
    · exact hkept hsame
    · exact hstored hset

/-- The planned manifest is committed once an agent holds it. -/
theorem Planned.commit (h : Planned T upload hash bytes x) (hheld : x.outside.HoldsManifest hash)
    {time : Time} {s : Database}
    (hok : x.store.commitFile upload.uploadId minimumReplicas time = .ok s) :
    Sole T (x.wrote (.commitFile upload.uploadId minimumReplicas time) s) := by
  obtain ⟨row, hrow, hid, hfile, hpending, hplan⟩ := h.row
  have htables := h.sole.tables.commitFile (fun own hown hownId other content hother => by
    rw [h.sole.tables.upload_unique hown hrow (hownId.trans hid.symm), hplan] at hother
    cases hother
    exact hheld) hok
  refine h.sole.wrote htables fun own hown hfile' hnot => ?_
  obtain ⟨committed, -, ⟨-, rfl⟩ | ⟨-, _, _, _, -, -, -, -, -, rfl⟩⟩ := commitFile_spec hok
  · exact h.sole.agreed own hown hfile' hnot
  · obtain ⟨before, hbefore, rfl⟩ := List.mem_map.1 hown
    by_cases hthis : before.uploadId = upload.uploadId
    · rw [if_pos hthis] at hnot
      exact absurd rfl hnot
    · rw [if_neg hthis] at hfile' hnot ⊢
      exact h.sole.agreed before hbefore hfile' hnot

/-- The live domains are those of agents that return the object. -/
theorem requireLiveDomains_safe (hST : ∀ file, S file → T file) (agents : List AgentTarget)
    (object : ObjectId) (hx : Sole T x) :
    (requireLiveDomains agents object).Safe Regular Eq (KeepsSole S)
      (fun _ y => Sole T y ∧ Still x y ∧ x.outside.Holds object) x := by
  refine safe_bind.2 (safe_database.2 ?_)
  rintro x rfl
  refine safe_bind.2 ((safe_mapM (J := fun (valid : List (Domain × Bool)) y =>
    (Sole T y ∧ y.store = x.store ∧ y.outside = x.outside ∧ Still x y) ∧
      ∀ entry ∈ valid, entry.2 = true → x.outside.Holds object)
    (R := fun (valid : List (Domain × Bool)) y => (Sole T y ∧ y.store = x.store ∧
      y.outside = x.outside ∧ Still x y) ∧ ∀ entry ∈ valid, entry.2 = true → x.outside.Holds object)
    (fun before agent after _ valid y _ hy => ?_) ⟨⟨hx, rfl, rfl, .refl x⟩, fun _ h =>
      absurd h List.not_mem_nil⟩ fun _ _ _ h => h).mono fun valid y hy => safe_failIf fun hlive =>
        ⟨hy.1.1, hy.1.2.2.2, ?_⟩)
  · obtain ⟨⟨hsole, hstore, houtside, hstill⟩, hvalid⟩ := hy
    refine safe_bind.2 (safe_bind.2 (safe_query.2 ?_))
    rintro y rfl answer e hanswers -
    obtain ⟨hsole', hstill'⟩ := hsole.aside_asked (q := .get agent object) trivial hanswers
    obtain ⟨rfl, hgets⟩ : e = y.outside ∧ y.outside.gets agent object answer := hanswers
    refine ⟨hsole'.mono hST, ?_⟩
    have hnext : Sole T _ ∧ y.store = x.store ∧ y.outside = x.outside ∧ Still x _ :=
      ⟨hsole', hstore, houtside, hstill.trans hstill'⟩
    have hadd (found : Bool) (hfound : found = true → x.outside.Holds object) :
        ∀ entry ∈ valid ++ [(agent.failureDomain, found)], entry.2 = true → x.outside.Holds object := by
      intro entry hentry
      rcases List.mem_append.1 hentry with hentry | hentry
      · exact hvalid entry hentry
      · rw [List.mem_singleton.1 hentry]
        exact hfound
    cases answer with
    | failed => exact ⟨hnext, hadd false fun h => nomatch h⟩
    | refused => exact ⟨hnext, hadd false fun h => nomatch h⟩
    | body content =>
      refine ⟨hnext, hadd _ fun hdigest => ⟨agent.id, ?_⟩⟩
      rw [← houtside]
      exact (hgets (eq_of_beq hdigest)).2
  · -- Two live domains are at least one copy that was read.
    have hsome : (valid.filter (·.2)) ≠ [] := by
      intro hnone
      rw [hnone] at hlive
      exact absurd hlive (by decide)
    obtain ⟨entry, hentry⟩ := List.exists_mem_of_ne_nil _ hsome
    rw [List.mem_filter] at hentry
    exact hy.2 entry hentry.1 hentry.2

/-- Everything an upload does once it is planned. -/
theorem transfer_safe (hdigest : Function.Injective Sealing.digest) (hST : ∀ file, S file → T file)
    {agents : List AgentTarget} {memory : Memory} {source : Source} (hT : T upload.fileId)
    (hfirst : upload.generation = 1) (hx : Resumes T upload x) :
    (transfer agents memory source upload).Safe Regular Eq (KeepsSole S) (fun _ => Sole T) x := by
  have haside {α : Type} {p : Action α} {y : Scene fleetWorld} (hp : p.Only Write.Aside Query.Aside)
      (hy : Sole T y) : p.Safe Regular Eq (KeepsSole S) (fun _ z => Sole T z ∧ Still y z) y :=
    hy.aside hST hp
  refine safe_bind.2 ((haside (only_requireAdmissibleCapacity agents memory _) hx.sole).mono
    fun _ x' h => ?_)
  replace hx := hx.still h.1 h.2
  clear h
  refine safe_bind.2 (Safe.mono (Q := fun _ => Resumes T upload) ?_ fun _ y hy => ?_)
  · refine safe_onlyIf (fun _ => safe_write.2 ?_) fun _ => hx
    rintro y rfl s hok -
    have hadvanced := hx.advance hok
    exact ⟨hadvanced.sole.mono hST, hadvanced⟩
  refine safe_bind.2 (safe_database.2 ?_)
  rintro y rfl
  refine safe_bind.2 ((haside (only_mapM fun plan _ => only_sendChunk aside_of_locates
    asideQuery_of_reads agents memory source upload plan (fun _ _ => aside_setChunkObject _ _ _ _)
    fun _ _ _ => rfl) hy.sole).mono fun records z h => ?_)
  replace hy := hy.still h.1 h.2
  clear h
  refine safe_bind.2 ((haside (only_query (W := portalWorld) (q := .trailingBytes source) trivial) hy.sole).mono
    fun _ w h => ?_)
  replace hy := hy.still h.1 h.2
  clear h
  refine safe_bind.2 (safe_failIf fun _ => ?_)
  refine safe_bind.2 (Safe.mono (Q := fun plan => Planned T upload plan.1 plan.2) ?_
    fun plan z hz => ?_)
  · unfold planManifest
    cases hplan : upload.manifest with
    | some planned => exact ⟨hy.sole, hplan ▸ hy.row⟩
    | none =>
      refine safe_bind.2 (safe_bind.2 (safe_query.2 ?_))
      rintro w rfl answer e hanswers hregular
      obtain ⟨hsole, hstill⟩ := hy.sole.aside_asked (q := .encodeManifest upload records) trivial
        hanswers
      replace hy := hy.still hsole hstill
      refine ⟨hsole.mono hST, safe_require fun bytes hbytes => ?_⟩
      subst hbytes
      obtain ⟨manifest, hdecode, hfile, hgeneration⟩ :=
        hregular.2 _ (List.mem_append_right _ (List.mem_singleton_self _))
      refine safe_bind.2 (safe_write.2 ?_)
      rintro z rfl s hok -
      have hplanned := hy.plan hplan ⟨bytes, manifest, rfl, hdecode, hfile,
        hgeneration.trans hfirst⟩ hok
      exact ⟨hplanned.sole.mono hST, hplanned⟩
  obtain ⟨hash, bytes⟩ := plan
  have hput : (replicate agents memory ⟨.manifest, hash⟩ bytes).Safe Regular Eq (KeepsSole S)
      (fun _ => Planned T upload hash bytes) z := by
    refine (only_replicate (A := fun q => ∃ agent, q = .put agent ⟨.manifest, hash⟩ bytes)
      aside_of_locates agents memory fun agent => ⟨agent, rfl⟩).safe hz
      (fun _ _ h heq => heq ▸ h) (fun w hw y s hy hok _ => ?_) ?_
    · obtain ⟨hsole, hstill⟩ := hy.sole.aside_wrote hw hok
      exact ⟨hsole.mono hST, hy.still hsole hstill⟩
    · rintro q ⟨agent, rfl⟩ y answer e hy hanswers -
      have hnext := hy.put hT hdigest hanswers
      exact ⟨hnext.sole.mono hST, hnext⟩
  refine safe_bind.2 (hput.mono fun _ z hz => ?_)
  refine safe_bind.2 (Safe.mono (Q := fun _ z => Planned T upload hash bytes z ∧
    z.outside.HoldsManifest hash) ?_ fun _ z hz => ?_)
  · refine safe_bind.2 ((requireLiveDomains_safe hST agents _ hz.sole).mono fun _ w hw => ?_)
    obtain ⟨hsole, hstill, hheld⟩ := hw
    have hlive : w.outside.HoldsManifest hash := hstill.controls.manifest.2 hheld
    replace hz := hz.still hsole hstill
    refine safe_bind.2 (safe_database.2 ?_)
    rintro w rfl
    refine (haside (only_forM fun chunk _ => only_bind (only_require _) fun _ =>
      only_requireLiveDomains asideQuery_of_reads agents _) hz.sole).mono fun _ v hv => ?_
    exact ⟨hz.still hv.1 hv.2, hv.2.controls.manifest.2 hlive⟩
  refine safe_bind.2 ((haside (only_query (W := portalWorld) (q := .now) trivial) hz.1.sole).mono fun time w h => ?_)
  have hplanned := hz.1.still h.1 h.2
  have hheld : w.outside.HoldsManifest hash := h.2.controls.manifest.2 hz.2
  refine safe_bind.2 (safe_write.2 ?_)
  rintro w rfl s hok -
  have hcommitted := hplanned.commit hheld hok
  refine ⟨hcommitted.mono hST, safe_bind.2 (safe_database.2 ?_)⟩
  rintro v rfl
  exact safe_bind.2 (safe_require fun _ _ => hcommitted)

/-- A new upload is planned under a file of its own. -/
theorem Sole.create (h : Sole S x) {planned : NewUpload} {time : Time} {s : Database}
    (hdrawn : planned.fileId ∈ drawn x.past)
    (hown : ∀ hash, x.outside.HoldsManifest hash → ¬ Speaks hash planned.fileId 1)
    (hok : x.store.createUpload planned time = .ok s) :
    Sole (fun file => S file ∨ file = planned.fileId) (x.wrote (.createUpload planned time) s) ∧
      ∀ row, s.uploadByIdempotency planned.idempotencyKey = some row → row ∈ s.uploads ∧
        row.fileId = planned.fileId ∧ row.state ≠ .committed ∧ row.generation = 1 := by
  obtain ⟨hfresh, -, huploads⟩ := createUpload_rows hok
  have hbefore : Sole (fun file => S file ∨ file = planned.fileId) x :=
    ⟨h.tables, h.agents, h.snapshots, fun row hrow hfile hstate => hfile.elim
      (fun hfile => h.agreed row hrow hfile hstate) fun hfile => absurd hfile (hfresh row hrow).2.2⟩
  refine ⟨hbefore.wrote (h.tables.createUpload hdrawn hok) fun row hrow hfile hstate => ?_,
    fun row hrow => ?_⟩
  · rw [huploads] at hrow
    rcases List.mem_append.1 hrow with hrow | hrow
    · exact hbefore.agreed row hrow hfile hstate
    · rw [List.mem_singleton.1 hrow]
      exact fun hash hheld hspeaks => absurd hspeaks (hown hash hheld)
  · obtain ⟨hmem, hkey⟩ := uploadByIdempotency_some hrow
    refine ⟨hmem, ?_⟩
    rw [huploads] at hmem
    rcases List.mem_append.1 hmem with hold | hnew
    · exact absurd hkey (hfresh row hold).2.1
    · rw [List.mem_singleton.1 hnew]
      exact ⟨rfl, (fun h => nomatch h), rfl⟩

theorem newUpload_safe (hdigest : Function.Injective Sealing.digest) {key : IdempotencyKey}
    {inspection : SourceInspection} (hx : Sole S x) :
    (newUpload key inspection).Safe Regular Eq (KeepsSole S)
      (fun planned y => Sole S y ∧ Still x y ∧ planned.idempotencyKey = key ∧
        planned.fileId ∈ drawn y.past ∧
        ∀ hash, y.outside.HoldsManifest hash → ¬ Speaks hash planned.fileId 1) x := by
  refine safe_bind.2 (safe_query.2 ?_)
  rintro x rfl fresh e hanswers hregular
  obtain ⟨hsole, hstill⟩ := hx.aside_asked (q := .freshUpload) trivial hanswers
  have hnew : fresh.fileId ∉ drawn x.past := by
    have hnodup := hregular.1
    unfold drawn at hnodup ⊢
    rw [Scene.asked_past, List.filterMap_append] at hnodup
    exact fun hold => (List.nodup_append.1 hnodup).2.2 _ hold _ (List.mem_singleton_self _) rfl
  have hown : ∀ hash, e.HoldsManifest hash → ¬ Speaks hash fresh.fileId 1 := by
    intro hash hheld hspeaks
    obtain ⟨file, hfile, hother⟩ := hx.agents.manifests hash (hstill.controls.manifest.1 hheld)
    exact hnew ((hspeaks.unique hdigest hother).1 ▸ hfile)
  have hdrawn : fresh.fileId ∈ drawn (x.past ++ [.asked (W := portalWorld) x.store .freshUpload fresh]) := by
    unfold drawn
    rw [List.filterMap_append]
    exact List.mem_append_right _ (List.mem_singleton_self _)
  refine ⟨hsole, safe_bind.2 (((hsole.aside (S := S) (fun _ h => h) (only_query (W := portalWorld)
    (q := .manifestFits inspection) trivial)).mono fun fits y hy => safe_bind.2 (safe_failIf
      fun _ => ?_)))⟩
  exact ⟨hy.1, hstill.trans hy.2, rfl, hy.2.drawn _ hdrawn, fun hash hheld =>
    hown hash (hy.2.controls.manifest.1 hheld)⟩

/-- An upload whose row, if there is one, agrees with the agents. -/
theorem upload_safe (hdigest : Function.Injective Sealing.digest) {agents : List AgentTarget}
    {memory : Memory} {source : Source} {key : IdempotencyKey} (hx : Sole S x)
    (hresumes : ∀ row, x.store.uploadByIdempotency key = some row → row.state ≠ .committed →
      Agrees x.outside row) :
    (Portal.upload agents memory source key).Safe Regular Eq (KeepsSole S) (fun _ => Sole S) x := by
  have haside {α : Type} {p : Action α} {y : Scene fleetWorld} (hp : p.Only Write.Aside Query.Aside)
      (hy : Sole S y) : p.Safe Regular Eq (KeepsSole S) (fun _ z => Sole S z ∧ Still y z) y :=
    hy.aside (fun _ h => h) hp
  unfold Portal.upload
  refine safe_bind.2 (safe_database.2 ?_)
  rintro x rfl
  split
  · next existing hexisting =>
    split
    · refine safe_bind.2 ((haside (only_query (W := portalWorld) (q := .sourceExists source) trivial)
        hx).mono fun (present : Bool) y hy => ?_)
      refine safe_bind.2 ((haside (only_onlyIf (only_inspectAgain asideQuery_of_reads source existing))
        hy.1).mono fun _ z hz => ?_)
      exact hz.1
    · next hpending =>
      obtain ⟨hmem, -⟩ := uploadByIdempotency_some hexisting
      let T (file : FileId) : Prop := S file ∨ file = existing.fileId
      have hT : Sole T x := ⟨hx.tables, hx.agents, hx.snapshots, fun row hrow hfile hstate =>
        hfile.elim (fun hfile => hx.agreed row hrow hfile hstate) fun hfile => by
          rw [hx.tables.upload_unique_file hrow hmem hfile] at hstate ⊢
          exact hresumes existing hexisting hstate⟩
      have hrow : Resumes T existing x := ⟨hT, existing, hmem, rfl, rfl, hpending, rfl⟩
      have hasideT {α : Type} {p : Action α} {y : Scene fleetWorld}
          (hp : p.Only Write.Aside Query.Aside) (hy : Sole T y) :
          p.Safe Regular Eq (KeepsSole S) (fun _ z => Sole T z ∧ Still y z) y :=
        hy.aside (fun _ => .inl) hp
      refine safe_bind.2 ((hasideT (only_verifyRemoteAgents aside_of_locates asideQuery_of_reads
        agents memory) hT).mono fun memory y hy => ?_)
      refine safe_bind.2 ((hasideT (only_inspectAgain asideQuery_of_reads source existing)
        hy.1).mono fun _ z hz => ?_)
      exact (transfer_safe hdigest (fun _ => .inl) (.inr rfl) (hx.tables.uploads existing hmem).first
        (hrow.still hz.1 (hy.2.trans hz.2))).mono fun _ _ h => h.mono fun _ => .inl
  · refine safe_bind.2 ((haside (only_verifyRemoteAgents aside_of_locates asideQuery_of_reads
      agents memory) hx).mono fun memory y hy => ?_)
    refine safe_bind.2 ((haside (only_bind (only_query (W := portalWorld)
      (q := .inspectSource source) trivial) fun _ => only_require _) hy.1).mono fun inspection z hz => ?_)
    refine safe_bind.2 ((newUpload_safe hdigest hz.1).mono fun planned w hw => ?_)
    obtain ⟨hsole, -, hkey, hdrawn, hown⟩ := hw
    refine safe_bind.2 ((haside (only_query (W := portalWorld) (q := .now) trivial) hsole).mono
      fun time v hv => ?_)
    refine safe_bind.2 (safe_write.2 ?_)
    rintro v rfl s hok -
    obtain ⟨hcreated, hrow⟩ := hv.1.create (hv.2.drawn _ hdrawn)
      (fun hash hheld => hown hash (hv.2.controls.manifest.1 hheld)) hok
    refine ⟨hcreated.mono fun _ => .inl, safe_bind.2 (safe_database.2 ?_)⟩
    rintro u rfl
    refine safe_bind.2 (safe_require fun created hcreatedRow => ?_)
    obtain ⟨hmem, hfile, hpending, hfirst⟩ := hrow created (hkey ▸ hcreatedRow)
    exact (transfer_safe hdigest (fun _ => .inl) (.inr hfile) hfirst
      ⟨hcreated, created, hmem, rfl, rfl, hpending, rfl⟩).mono fun _ _ h => h.mono fun _ => .inl

/-! ## A recovery -/

/-- Agents hold the control object, and its bytes were read intact. -/
structure Genuine (fleet : Fleet) (replica : ReplicaSet) : Prop where
  held : replica.object.kind ≠ .chunk → fleet.Holds replica.object
  bytes : ∀ bytes, replica.bytes = some bytes → Sealing.digest bytes = replica.object.hash

theorem Genuine.same {fleet fleet' : Fleet} {replica : ReplicaSet} (h : Genuine fleet replica)
    (hsame : SameControls fleet fleet') : Genuine fleet' replica :=
  ⟨fun hkind => (hsame _ hkind).2 (h.held hkind), h.bytes⟩

theorem verifyReplicas_safe (known : List ObjectId) (listed : List Recovery.Listed) (object : ObjectId)
    (hx : Sole S x) : (verifyReplicas known listed object).Safe Regular Eq (KeepsSole S)
      (fun found y => (Sole S y ∧ Still x y) ∧
        ∀ replica, found = some replica → Genuine x.outside replica) x := by
  unfold verifyReplicas
  refine safe_bind.2 ((safe_foldlM (J := fun (replica : ReplicaSet) y => (Sole S y ∧ Still x y) ∧
    replica.object = object ∧ (replica.validAgents ≠ [] → object.kind ≠ .chunk →
      x.outside.Holds object) ∧
    ∀ bytes, replica.bytes = some bytes → Sealing.digest bytes = object.hash)
    (fun entry hentry replica y hy => ?_)
    ⟨⟨hx, .refl x⟩, rfl, fun h => absurd rfl h, fun _ h => by cases h⟩).mono fun replica y hy => ?_)
  · obtain ⟨⟨hsole, hstill⟩, hobject, hheld, hbytes⟩ := hy
    rw [List.mem_insertionSort, List.mem_filter, beq_iff_eq] at hentry
    refine safe_bind.2 (safe_query.2 ?_)
    rintro y rfl answer e hanswers -
    obtain ⟨hsole', hstill'⟩ := hsole.aside_asked (q := .get entry.agent entry.object) trivial hanswers
    obtain ⟨rfl, hgets⟩ : e = y.outside ∧ y.outside.gets entry.agent entry.object answer := hanswers
    refine ⟨hsole', ?_⟩
    have hnext : Sole S _ ∧ Still x _ := ⟨hsole', hstill.trans hstill'⟩
    cases answer with
    | failed => exact safe_stop
    | refused => exact ⟨hnext, hobject, hheld, hbytes⟩
    | body content =>
      dsimp only
      split
      · next hintact =>
        rw [hentry.2] at hintact hgets
        refine ⟨hnext, hobject, fun _ hkind => ?_, fun own hown => ?_⟩
        · exact (hstill.controls _ hkind).1 ⟨_, (hgets hintact.1).2⟩
        · dsimp only at hown
          split at hown
          · cases hown
          · cases hbefore : replica.bytes with
            | none =>
              rw [hbefore] at hown
              cases hown
              exact hintact.1
            | some before =>
              rw [hbefore] at hown
              cases hown
              exact hbytes before hbefore
      · exact ⟨hnext, hobject, hheld, hbytes⟩
  · split
    · exact safe_bind.2 (safe_failIf fun _ => ⟨hy.1, fun _ h => nomatch h⟩)
    · next hvalid =>
      refine ⟨hy.1, fun own hown => ?_⟩
      cases hown
      obtain ⟨-, rfl, hheld, hbytes⟩ := hy
      exact ⟨hheld hvalid, hbytes⟩

/-- A survey finds what agents hold. -/
theorem survey_safe (mode : RecoveryMode) (agents : List AgentTarget) (hx : Sole S x) :
    (survey mode agents).Safe Regular Eq (KeepsSole S) (fun picture y => (Sole S y ∧
      ∀ replica ∈ picture.replicas, Genuine y.outside replica) ∧ picture.Taken y.store) x := by
  refine Safe.and ?_ (survey_taken mode agents)
  unfold survey
  refine safe_bind.2 ((hx.aside (fun _ h => h) (only_mapM fun agent _ => only_scanAgent mode
    (fun _ => aside_of_locates) asideQuery_of_reads agent)).mono fun scans y hy => ?_)
  refine safe_bind.2 (safe_database.2 ?_)
  rintro y rfl
  refine safe_bind.2 ((safe_mapM (J := fun (found : List (Option ReplicaSet)) z =>
    (Sole S z ∧ Still y z) ∧ ∀ item ∈ found, ∀ replica, item = some replica →
      Genuine y.outside replica) (R := fun found z => (Sole S z ∧ Still y z) ∧
        ∀ item ∈ found, ∀ replica, item = some replica → Genuine y.outside replica)
    (fun before object after _ found z _ hz => ?_) ⟨⟨hy.1, .refl y⟩, fun _ h =>
      absurd h List.not_mem_nil⟩ fun _ _ _ h => h).mono fun found z hz => ?_)
  · refine (verifyReplicas_safe _ _ object hz.1.1).mono fun item w hw => ?_
    refine ⟨⟨hw.1.1, hz.1.2.trans hw.1.2⟩, fun other hother replica hreplica => ?_⟩
    rcases List.mem_append.1 hother with hother | hother
    · exact hz.2 other hother replica hreplica
    · rw [List.mem_singleton.1 hother] at hreplica
      exact (hw.2 replica hreplica).same fun object hkind => (hz.1.2.controls object hkind).symm
  · refine safe_bind.2 ((hz.1.1.aside (fun _ h => h) (only_mapM fun replica _ =>
      only_decodeEvidence replica)).mono fun decoded w hw => ⟨hw.1, fun replica hreplica => ?_⟩)
    obtain ⟨item, hitem, rfl⟩ := List.mem_filterMap.1 hreplica
    exact ((hz.2 _ hitem replica rfl).same hz.1.2.controls).same hw.2.controls

variable {picture : Picture} {candidate : FileCandidate}

/-- All evidence of a file is the one manifest that agents hold. -/
theorem Sole.evidence (h : Sole S x) (hdigest : Function.Injective Sealing.digest)
    (ht : picture.Taken x.store) (hgenuine : ∀ replica ∈ picture.replicas, Genuine x.outside replica)
    {file : FileId} {generation : ℕ} {own : Evidence} (hown : (file, generation, own) ∈ picture.evidence) :
    generation = 1 ∧ ∃ hash decoded, own = .manifest hash decoded ∧ x.outside.HoldsManifest hash ∧
      Speaks hash file 1 ∧ ∀ manifest, decoded = some manifest → manifest.fileId = file ∧
        manifest.generation = 1 ∧ ∃ bytes, Sealing.digest bytes = hash ∧
          Sealing.decodeManifest bytes = some manifest := by
  rcases mem_allEvidence hown with hfound | ⟨row, hrow, hprojects, rfl, rfl⟩
  · obtain ⟨replica, hreplica, hdecoded⟩ := ht.found _ hfound
    obtain ⟨hheld, hbytes⟩ := hgenuine replica hreplica
    unfold decoded at hdecoded
    split at hdecoded
    · cases hdecoded
    · next bytes hcontent =>
      split at hdecoded
      · cases hdecoded
      · next hkind =>
        obtain ⟨manifest, hmanifest, heq⟩ := Option.map_eq_some_iff.1 hdecoded
        simp only [Option.some.injEq, Prod.mk.injEq] at heq
        obtain ⟨rfl, rfl, rfl⟩ := heq
        have hobject : replica.object = ⟨.manifest, replica.object.hash⟩ := by rw [← hkind]
        have hholds : x.outside.HoldsManifest replica.object.hash := by
          have hheld := hheld (by rw [hkind]; decide)
          rwa [hobject] at hheld
        have hspeaks : Speaks replica.object.hash manifest.fileId manifest.generation :=
          ⟨bytes, manifest, hbytes bytes hcontent, hmanifest, rfl, rfl⟩
        obtain ⟨file, -, hfirst⟩ := h.agents.manifests _ hholds
        obtain ⟨rfl, hgen⟩ := hspeaks.unique hdigest hfirst
        refine ⟨hgen, _, _, rfl, hholds, hfirst, fun other hother => ?_⟩
        cases hother
        exact ⟨rfl, hgen, bytes, hbytes bytes hcontent, hmanifest⟩
      · next hkind =>
        have hobject : replica.object = ⟨.deletionMarker, replica.object.hash⟩ := by rw [← hkind]
        have hheld := hheld (by rw [hkind]; decide)
        rw [hobject] at hheld
        exact absurd hheld (h.agents.noMarkers _)
  · have hmem : row ∈ x.store.files := by
      rw [← ht.database]
      exact (List.perm_insertionSort _ _).mem_iff.1 hrow
    obtain ⟨hkept, hfirst, hmanifest⟩ := h.tables.files row hmem
    unfold projectedEvidence at hprojects
    split at hprojects
    · next hdeleted => exact absurd hdeleted hkept
    · obtain ⟨hash, hhash, rfl⟩ := Option.map_eq_some_iff.1 hprojects
      obtain ⟨hheld, hspeaks⟩ := hmanifest hash hhash
      exact ⟨hfirst, hash, none, rfl, hheld, hspeaks, fun _ h => nomatch h⟩

/-- One manifest is no conflict. -/
theorem Sole.unconflicted (h : Sole S x) (hdigest : Function.Injective Sealing.digest)
    (ht : picture.Taken x.store) (hgenuine : ∀ replica ∈ picture.replicas, Genuine x.outside replica)
    (hcandidate : candidate ∈ picture.candidates) : conflicted candidate.evidence = false := by
  have hmem := (mem_fileCandidates hcandidate).1
  have hshort : ¬ 1 < (candidate.evidence.map (·.object)).dedup.length := by
    intro hlong
    obtain ⟨a, ha, b, hb, hne⟩ := two_le_dedup_length hlong
    obtain ⟨ownA, hownA, rfl⟩ := List.mem_map.1 ha
    obtain ⟨ownB, hownB, rfl⟩ := List.mem_map.1 hb
    obtain ⟨-, hashA, _, rfl, hheldA, hspeaksA, -⟩ :=
      h.evidence hdigest ht hgenuine ((hmem ownA).1 hownA)
    obtain ⟨-, hashB, _, rfl, hheldB, hspeaksB, -⟩ :=
      h.evidence hdigest ht hgenuine ((hmem ownB).1 hownB)
    exact hne (congrArg (ObjectId.mk .manifest)
      (h.agents.one hashA hashB _ hheldA hheldB hspeaksA hspeaksB))
  unfold conflicted
  rw [decide_eq_false hshort, Bool.false_and]

/-- Repairs move no new manifest or marker. -/
structure Repairing (S : FileId → Prop) (fleet : Fleet) (replicas : List ReplicaSet)
    (x : Scene fleetWorld) : Prop where
  sole : Sole S x
  controls : SameControls fleet x.outside
  genuine : ∀ replica ∈ replicas, Genuine fleet replica

variable {fleet : Fleet} {replicas : List ReplicaSet} {object : ObjectId}

/-- A program that stays aside, except for copies of one object that agents hold. -/
theorem Repairing.only (h : Repairing S fleet replicas x)
    (hobject : object.kind ≠ .chunk → fleet.Holds object) {α : Type} {p : Action α}
    (hp : p.Only Write.Aside fun q : Query => q.Aside ∨ ∃ agent bytes, q = .put agent object bytes) :
    p.Safe Regular Eq (KeepsSole S) (fun _ => Repairing S fleet replicas) x := by
  refine hp.safe h (fun _ _ hy heq => heq ▸ hy) (fun w hw y s hy hok _ => ?_)
    fun q hq y a e hy hanswers _ => ?_
  · obtain ⟨hsole, -⟩ := hy.sole.aside_wrote hw hok
    exact ⟨hsole, hsole, hy.controls, hy.genuine⟩
  · have hnext : Sole S (y.asked q a e) ∧ Still y (y.asked q a e) := by
      rcases hq with hq | ⟨agent, bytes, rfl⟩
      · exact hy.sole.aside_asked hq hanswers
      · refine hy.sole.same_asked (sameControls_puts ?_ hanswers) rfl
        by_cases hkind : object.kind = .chunk
        · exact .inl hkind
        · exact .inr ((hy.controls _ hkind).2 (hobject hkind))
    exact ⟨hnext.1, hnext.1, fun thing hkind =>
      (hnext.2.controls thing hkind).trans (hy.controls thing hkind), hy.genuine⟩

theorem Repairing.ensureRf2 (context : RepairContext) (progress : Recovery.Progress)
    (object : ObjectId) (hx : Repairing S fleet progress.replicas x) :
    (Recovery.ensureRf2 context progress object).Safe Regular Eq (KeepsSole S)
      (fun progress => Repairing S fleet progress.replicas) x := by
  unfold Recovery.ensureRf2
  split
  · exact hx
  · next replica hreplica =>
    split
    · exact hx
    · have hmem := List.mem_of_find?_eq_some hreplica
      have hobject : replica.object = object := by simpa using List.find?_some hreplica
      have hheld := (hx.genuine replica hmem).held
      rw [hobject] at hheld
      have hrecord {y : Scene fleetWorld} (hy : Repairing S fleet progress.replicas y)
          (agent : AgentTarget) : (recordPlacement context object agent).Safe Regular Eq (KeepsSole S)
            (fun _ => Repairing S fleet progress.replicas) y :=
        hy.only hheld (only_recordPlacement aside_of_locates context object agent)
      refine safe_bind.2 ((hx.only hheld (only_foldlM fun target _ repair => only_repairTo
        aside_of_locates (fun q hq => .inl (asideQuery_of_reads q hq)) context
        (fun agent bytes => .inr ⟨agent, bytes, by rw [hobject]⟩) repair target)).mono
          fun repair y hy => ?_)
      refine safe_bind.2 (Safe.mono (Q := fun _ => Repairing S fleet progress.replicas) ?_
        fun _ z hz => ⟨hz.sole, hz.controls, fun other hother => ?_⟩)
      · refine safe_onlyIf (fun _ => safe_forM (fun id _ z hz => ?_) hy) fun _ => hy
        split
        · exact hrecord hz _
        · exact hz
      · obtain ⟨before, hbefore, rfl⟩ := List.mem_map.1 hother
        obtain ⟨hheld, hbytes⟩ := hz.genuine before hbefore
        split <;> exact ⟨hheld, hbytes⟩

/-- The winner is a manifest that agents hold. -/
structure Wins (fleet : Fleet) (candidate : FileCandidate) (winner : Evidence) : Prop where
  first : candidate.generation = 1
  manifest : ∃ hash decoded, winner = .manifest hash decoded ∧ fleet.HoldsManifest hash ∧
    ∀ manifest, decoded = some manifest → manifest.generation = 1 ∧ ∃ bytes,
      Sealing.digest bytes = hash ∧ Sealing.decodeManifest bytes = some manifest

theorem Repairing.applyDecision (hdigest : Function.Injective Sealing.digest) {own : Evidence}
    (hwins : Wins fleet candidate own) (issues : List String) (hx : Repairing S fleet replicas x) :
    (Recovery.applyDecision candidate own replicas issues).Safe Regular Eq (KeepsSole S)
      (fun _ => Repairing S fleet replicas) x := by
  obtain ⟨hfirst, hash, decoded, rfl, hheld, hdecoded⟩ := hwins
  unfold Recovery.applyDecision
  have hagreed {y : Scene fleetWorld} (hy : Sole S y) {s : Database}
      (huploads : s.uploads = y.store.uploads) : ∀ row ∈ s.uploads, S row.fileId →
        row.state ≠ .committed → Agrees y.outside row := huploads ▸ hy.agreed
  refine safe_bind.2 ((hx.only (show (⟨.chunk, 0⟩ : ObjectId).kind ≠ .chunk → fleet.Holds ⟨.chunk, 0⟩ from
    fun h => absurd rfl h) (only_query (W := portalWorld) (q := .now) (.inl trivial))).mono fun time y hy => ?_)
  split
  · refine safe_write.2 ?_
    rintro z rfl s hok -
    have hblocked : y.store.markRecoveryBlocked candidate.fileId 1 none
        ("; ".intercalate issues) time = .ok s := by
      rw [← hfirst]
      exact hok
    have hsole := hy.sole.wrote (w := .markRecoveryBlocked candidate.fileId candidate.generation
      (blockedHash (conflicted candidate.evidence) (.manifest hash decoded))
      ("; ".intercalate issues) time) (hy.sole.tables.markRecoveryBlocked hblocked)
      (hagreed hy.sole (markRecoveryBlocked_uploads hblocked))
    exact ⟨hsole, hsole, hy.controls, hy.genuine⟩
  · cases decoded with
    | none => exact safe_stop
    | some manifest =>
      refine safe_bind.2 (safe_require fun replica hreplica => ?_)
      refine safe_bind.2 (safe_require fun bytes hbytes => safe_write.2 ?_)
      rintro z rfl s hok -
      obtain ⟨hgen, content, hcontent, hopens⟩ := hdecoded manifest rfl
      have hobject : replica.object = ⟨.manifest, hash⟩ := by simpa using List.find?_some hreplica
      have hown : Sealing.digest bytes = hash := by
        rw [(hy.genuine replica (List.mem_of_find?_eq_some hreplica)).bytes bytes hbytes, hobject]
      rw [← hdigest (hown.trans hcontent.symm)] at hopens
      have hlive : y.outside.HoldsManifest hash := hy.controls.manifest.2 hheld
      have hrecovered : y.store.applyRecoveredManifest manifest hash bytes time = .ok s := hok
      have hsole := hy.sole.wrote (w := .applyRecoveredManifest manifest hash bytes time)
        (hy.sole.tables.applyRecoveredManifest hown hopens hgen hlive hrecovered)
        fun row hrow hfile hpending => by
          rcases applyRecoveredManifest_uploads hrecovered with heq | ⟨upload, -, -, heq⟩
          · exact hagreed hy.sole heq row hrow hfile hpending
          · -- The linked upload is committed.
            rw [heq] at hrow
            obtain ⟨before, hbefore, rfl⟩ := List.mem_map.1 hrow
            by_cases hthis : before.uploadId = upload.uploadId
            · rw [if_pos hthis] at hpending
              exact absurd rfl hpending
            · rw [if_neg hthis] at hfile hpending ⊢
              exact hy.sole.agreed before hbefore hfile hpending
      exact ⟨hsole, hsole, hy.controls, hy.genuine⟩

/-- One file is decided. -/
theorem Repairing.recoverFile (hdigest : Function.Injective Sealing.digest) (context : RepairContext)
    (committed : List (FileId × ObjectHash))
    (hwins : ∀ own ∈ candidate.evidence, Wins fleet candidate own)
    (hx : Repairing S fleet replicas x) :
    (Recovery.recoverFile context committed replicas candidate).Safe Regular Eq (KeepsSole S)
      (fun replicas => Repairing S fleet replicas) x := by
  refine safe_bind.2 (safe_require fun own hown => ?_)
  have hwin := hwins own (winner_mem hown)
  refine safe_bind.2 (Safe.mono (Q := fun progress => Repairing S fleet progress.replicas) ?_
    fun progress y hy => ?_)
  · unfold settle
    split
    · exact hx
    · unfold ensureWinner
      obtain ⟨-, hash, decoded, rfl, -⟩ := hwin
      cases decoded with
      | none => exact hx
      | some manifest =>
        exact safe_foldlM (J := fun (progress : Recovery.Progress) => Repairing S fleet progress.replicas)
          (fun object _ progress y hy => hy.ensureRf2 context progress object) hx
  · exact safe_bind.2 ((safe_onlyIf (fun _ => hy.applyDecision hdigest hwin _)
      fun _ => hy).mono fun _ z hz => hz)

/-- A recovery moves no new manifest. -/
theorem Sole.recover (hdigest : Function.Injective Sealing.digest) (mode : RecoveryMode)
    (agents : List AgentTarget) (hx : Sole S x) :
    (Recovery.recover mode agents).Safe Regular Eq (KeepsSole S) (fun _ => Sole S) x := by
  rw [recover_eq]
  refine safe_bind.2 ((survey_safe mode agents hx).mono fun picture y hy => ?_)
  obtain ⟨⟨hsole, hgenuine⟩, htaken⟩ := hy
  have hwins : ∀ candidate ∈ picture.candidates, ∀ own ∈ candidate.evidence,
      Wins y.outside candidate own := by
    intro candidate hcandidate own hown
    have hmem := ((mem_fileCandidates hcandidate).1 own).1 hown
    obtain ⟨hfirst, hash, decoded, hmanifest, hheld, -, hdecoded⟩ :=
      hsole.evidence hdigest htaken hgenuine hmem
    exact ⟨hfirst, hash, decoded, hmanifest, hheld, fun manifest h => (hdecoded manifest h).2⟩
  refine safe_bind.2 ((safe_foldlM (J := fun replicas => Repairing S y.outside replicas)
    (fun candidate hcandidate replicas z hz => hz.recoverFile hdigest _ _
      (hwins candidate hcandidate)) ⟨hsole, fun _ _ => Iff.rfl, hgenuine⟩).mono
        fun replicas z hz => ?_)
  refine safe_onlyIf (fun _ => safe_write.2 ?_) fun _ => hz.sole
  rintro w rfl s hok -
  cases hok
  have hcleared : Sole S (z.wrote .clearRecoveryPending { z.store with recoveryPending := none }) :=
    hz.sole.wrote (hz.sole.tables.of_eq rfl rfl) hz.sole.agreed
  exact ⟨hcleared, hcleared⟩

end

end Metadata

end DistrHnsw
