import DistrHnsw.Backup.Stamp
import DistrHnsw.Lib.Least
import DistrHnsw.Lib.Text
import DistrHnsw.Metadata.Credentials
import Mathlib.Data.Nat.Digits.Defs

/-!
# The newest snapshot

A job takes its snapshot when it starts and names it by the second in which it ships it.  The target
sorts by name, the database by the time of its rows, and neither by content generation.  After every
start and finish of the jobs, however they overlap, a restore takes the snapshot of the highest
content generation if and only if the jobs finish in the order of what they took, and of two that
ship within a second the later one has the greater hash prefix.
-/

namespace DistrHnsw

namespace Metadata

open Program Portal Metadata.Backup Database

/-! ## Names -/

/-- At least eight hexadecimal digits, the first of them first. -/
def hexDigits (n : ℕ) : List ℕ := ((Nat.digits 16 n).rightpad 8 0).reverse

def prefixText (hashPrefix : ℕ) : List Char := (hexDigits hashPrefix).map Hex.lower.digit

def SnapshotName.text (name : SnapshotName) : List Char :=
  DistrHnsw.Backup.utcStamp name.stamp ++ '-' :: (prefixText name.hashPrefix ++ ".db".toList)

def snapshotPath (name : SnapshotName) : List Char := "backup/v1/sqlite/".toList ++ name.text

theorem hexDigits_lt {n d : ℕ} (h : d ∈ hexDigits n) : d < 16 := by
  rcases List.mem_append.1 (List.mem_reverse.1 h) with hdigit | hzero
  · exact Nat.digits_lt_base (by decide) hdigit
  · rw [List.eq_of_mem_replicate hzero]
    decide

theorem ofDigits_hexDigits (n : ℕ) : Nat.ofDigits 16 (hexDigits n).reverse = n := by
  unfold hexDigits List.rightpad
  rw [List.reverse_reverse, Nat.ofDigits_append_replicate_zero, Nat.ofDigits_digits]

theorem prefixText_inj {a b : ℕ} (h : prefixText a = prefixText b) : a = b := by
  have hvalue (n : ℕ) : (prefixText n).map Hex.lower.value = (hexDigits n).map some := by
    unfold prefixText
    rw [List.map_map]
    exact List.map_congr_left fun d hd => Alphabet.value_digit (hexDigits_lt hd)
  have hsame := (hvalue a).symm.trans ((congrArg _ h).trans (hvalue b))
  rw [← ofDigits_hexDigits a, ← ofDigits_hexDigits b,
    List.map_injective_iff.2 (Option.some_injective ℕ) hsame]

theorem dash_notMem_prefixText (n : ℕ) : '-' ∉ prefixText n := by
  have hdigit : ∀ d < 16, Hex.lower.digit d ≠ '-' := by decide
  intro h
  obtain ⟨d, hd, heq⟩ := List.mem_map.1 h
  exact hdigit d (hexDigits_lt hd) heq

/-- Different names are different paths. -/
theorem snapshotPath_inj {a b : SnapshotName} (h : snapshotPath a = snapshotPath b) : a = b := by
  have htail (n : ℕ) : '-' ∉ prefixText n ++ ".db".toList := by
    rw [List.mem_append, not_or]
    exact ⟨dash_notMem_prefixText n, by decide⟩
  obtain ⟨hstamp, hrest⟩ := append_cons_inj (htail _) (htail _) (List.append_cancel_left h)
  have hprefix := prefixText_inj (List.append_cancel_right hrest)
  cases a
  cases b
  cases DistrHnsw.Backup.utcStamp_inj hstamp
  cases hprefix
  rfl

/-- Within the years of four digits, names sort by the second first. -/
theorem snapshotPath_lt {a b : SnapshotName} (ha : DistrHnsw.Backup.InRange a.stamp)
    (hb : DistrHnsw.Backup.InRange b.stamp) (h : a.stamp < b.stamp) :
    snapshotPath a < snapshotPath b := by
  apply Decimal.append_lt_append_left
  refine Decimal.append_lt_append ?_ (DistrHnsw.Backup.utcStamp_lt ha hb h) _ _
  rw [DistrHnsw.Backup.length_utcStamp ha, DistrHnsw.Backup.length_utcStamp hb]

/-! ## The target -/

/-- The clock and the snapshots on the target, each with its path. -/
structure Shelf where
  clock : Time
  stored : List (List Char × Database)

namespace Shelf

variable (e : Shelf)

def find (path : List Char) : Option Database := (e.stored.find? (·.1 == path)).map (·.2)

/-- A new path is stored; an existing one is never overwritten. -/
def Puts (path : List Char) (snapshot : Database) (outcome : PutOutcome) (e' : Shelf) : Prop :=
  match e.find path with
  | none => outcome = .created ∧ e' = { e with stored := e.stored ++ [(path, snapshot)] }
  | some other => e' = e ∧ if other = snapshot then outcome = .identical
      else ∃ error, outcome = .refused error

/-- The clock does not step back, and the target keeps what it was given. -/
def Answers (target : TargetId) : (q : Query) → q.Answer → Shelf → Prop
  | .now, (time : Time), e' => e.clock ≤ time ∧ e' = { e with clock := time }
  | .putSnapshot other name snapshot, outcome, e' =>
    if other = target then e.Puts (snapshotPath name) snapshot outcome e' else e' = e
  | .getSnapshot other name, got, e' =>
    e' = e ∧ (other = target → got = some (e.find (snapshotPath name)))
  | _, _, e' => e' = e

/-- The last one of the sorted listing. -/
def chooseSnapshot : Option (List Char × Database) := (sortBy Prod.fst e.stored).getLast?

end Shelf

/-- A world with a clock and a backup target. -/
abbrev shelfWorld (target : TargetId) : Outside portalWorld := ⟨Shelf, fun e => e.Answers target⟩

section

variable {e : Shelf} {path : List Char} {target : TargetId}

theorem find_eq_none : e.find path = none ↔ ∀ entry ∈ e.stored, entry.1 ≠ path := by
  simp [Shelf.find, List.find?_eq_none]

theorem find_append {snapshot : Database} (h : e.find path = none) :
    ({ e with stored := e.stored ++ [(path, snapshot)] } : Shelf).find path = some snapshot := by
  have hnone : e.stored.find? (·.1 == path) = none := Option.map_eq_none_iff.1 h
  simp [Shelf.find, List.find?_append, hnone]

end

/-! ## The job in two halves -/

/-- What a job has in its hands before it looks at any object. -/
structure Taken where
  generation : ℕ
  latest : Option BackupSnapshot
  pending : Option Database

/-- The start of a job: snapshot first, objects second. -/
def snapshotFirst (target : TargetId) : Action Taken := do
  let generation ← reading (·.contentGeneration)
  let latest ← reading (·.latestBackupSnapshot target)
  let pending ← takeSnapshot latest generation
  return ⟨generation, latest, pending⟩

section

variable [Sealing] [Snapshots]

/-- A job starts with its snapshot, copies the objects, and finishes the snapshot. -/
theorem runBackup_eq (agents : List AgentTarget) (target : TargetId) (job : JobId) (sample : ℕ) :
    runBackup agents target job sample = (do
      let taken ← snapshotFirst target
      let history ← reading (·.historyObjects)
      let progress ← history.foldlM (backUpObject agents target job) (.start history.length)
      let time ← now
      let (snapshot, skipped, issues) ←
        finishSnapshot target job taken.generation time taken.latest taken.pending progress
      let integrity ← sampleObjects target job time sample progress.catalog
      fileCatalog target job ⟨job, time, progress.catalog, snapshot⟩
        ⟨job, target, progress.totals, snapshot, skipped,
          (progress.oldestUnverified.map fun oldest => max (time - oldest) 0).getD 0, integrity,
          issues ++ sampleIssues integrity⟩) := by
  unfold runBackup snapshotFirst
  simp only [bind_assoc, pure_bind]

end

theorem only_snapshotFirst (target : TargetId) :
    (snapshotFirst target).Only (fun _ => False) fun _ => False := by
  refine only_bind (only_reading _) fun generation => only_bind (only_reading _) fun latest => ?_
  refine only_bind ?_ fun pending => trivial
  unfold takeSnapshot
  split
  · trivial
  · exact only_bind only_get fun _ => trivial

/-! ## What is shipped -/

/-- The snapshots shipped to a target, as the database remembers them. -/
def shipments (target : TargetId) (db : Database) : List BackupSnapshot :=
  db.backupSnapshots.filter (·.targetId == target)

section

variable {db db₁ : Database} {target : TargetId} {row : BackupSnapshot}

theorem shipments_eq {w : Write} (hok : w.perform db = .ok db₁)
    (hw : ∀ row, w = .recordBackupSnapshot row → row.targetId ≠ target) :
    shipments target db₁ = shipments target db := by
  by_cases hrecord : ∃ row, w = .recordBackupSnapshot row
  · obtain ⟨row, rfl⟩ := hrecord
    have hdb₁ : db₁ = _ := recordBackupSnapshot_spec hok
    rw [hdb₁]
    simp [shipments, hw row rfl]
  · unfold shipments
    rw [backupSnapshots_eq hok fun row hrow => hrecord ⟨row, hrow⟩]

theorem latestBackupSnapshot_congr (h : shipments target db₁ = shipments target db) :
    db₁.latestBackupSnapshot target = db.latestBackupSnapshot target :=
  congrArg (List.foldl laterSnapshot none) h

/-- A row that is not older than the others is the latest one. -/
theorem latestBackupSnapshot_snoc (h : shipments target db₁ = shipments target db ++ [row])
    (hlater : ∀ other ∈ shipments target db, other.createdAt ≤ row.createdAt) :
    db₁.latestBackupSnapshot target = some row := by
  have hfold : db₁.latestBackupSnapshot target =
      laterSnapshot (db.latestBackupSnapshot target) row := by
    unfold Database.latestBackupSnapshot
    rw [show db₁.backupSnapshots.filter (·.targetId == target) = _ from h, List.foldl_append]
    rfl
  rw [hfold]
  cases hlatest : db.latestBackupSnapshot target with
  | none => rfl
  | some other =>
    obtain ⟨hmem, htarget⟩ := latestBackupSnapshot_some hlatest
    exact if_pos (hlater other (List.mem_filter.2 ⟨hmem, by simp [htarget]⟩))

end

section

variable {target : TargetId} {x y : Scene (shelfWorld target)}

/-- Nothing was shipped between two scenes. -/
structure Unshipped (x y : Scene (shelfWorld target)) : Prop where
  stored : y.outside.stored = x.outside.stored
  rows : shipments target y.store = shipments target x.store
  clock : x.outside.clock ≤ y.outside.clock

theorem Unshipped.refl (x : Scene (shelfWorld target)) : Unshipped x x := ⟨rfl, rfl, le_rfl⟩

theorem Unshipped.trans {z : Scene (shelfWorld target)} (h : Unshipped x y) (h' : Unshipped y z) :
    Unshipped x z :=
  ⟨h'.stored.trans h.stored, h'.rows.trans h.rows, h.clock.trans h'.clock⟩

theorem Unshipped.wrote {w : Write} {s : Database} (hok : w.perform x.store = .ok s)
    (hw : ∀ row, w = .recordBackupSnapshot row → row.targetId ≠ target) :
    Unshipped x (x.wrote w s) := ⟨rfl, shipments_eq hok hw, le_rfl⟩

theorem Unshipped.abandon {α : Type} {job : JobId} {p : Action α}
    (h : Steps (abandon job) x p y) (hp : p.Ended) : Unshipped x y := by
  rcases h.performed hp with ⟨s, hok, hrest⟩ | ⟨-, rfl⟩
  · obtain ⟨-, rfl⟩ := hrest.ended trivial
    exact .wrote hok fun _ h => by cases h
  · exact .refl _

variable [Snapshots]

/-- The database and the target remember the same snapshots. -/
structure Matching (target : TargetId) (x : Scene (shelfWorld target)) : Prop where
  records : x.outside.stored.map (fun entry => (entry.1, Snapshots.hash entry.2)) =
    (shipments target x.store).map fun row => (snapshotPath row.name, row.snapshotHash)
  apart : (x.outside.stored.map Prod.fst).Nodup
  before : ∀ row ∈ shipments target x.store, row.createdAt ≤ x.outside.clock

/-- A restore picks the snapshot that the database calls the latest, and none shipped so far has a
higher content generation. -/
structure Newest (target : TargetId) (x : Scene (shelfWorld target)) : Prop where
  picked : x.outside.chooseSnapshot.map (fun entry => (entry.1, Snapshots.hash entry.2)) =
    (x.store.latestBackupSnapshot target).map fun row => (snapshotPath row.name, row.snapshotHash)
  highest : ∀ latest ∈ x.store.latestBackupSnapshot target, ∀ row ∈ shipments target x.store,
    row.contentGeneration ≤ latest.contentGeneration

theorem Matching.new (clock : Time) : Matching target ⟨.new, ⟨clock, []⟩, []⟩ :=
  ⟨rfl, List.nodup_nil, fun _ h => absurd h List.not_mem_nil⟩

theorem Newest.new (clock : Time) : Newest target ⟨.new, ⟨clock, []⟩, []⟩ :=
  ⟨by simp [Shelf.chooseSnapshot, sortBy, Database.latestBackupSnapshot, Database.new],
    fun _ h => by cases h⟩

/-- One snapshot was shipped and recorded between two scenes. -/
structure Shipped (path : List Char) (snapshot : Database) (row : BackupSnapshot)
    (x y : Scene (shelfWorld target)) : Prop where
  stored : y.outside.stored = x.outside.stored ++ [(path, snapshot)]
  absent : ∀ entry ∈ x.outside.stored, entry.1 ≠ path
  rows : shipments target y.store = shipments target x.store ++ [row]
  name : snapshotPath row.name = path
  hash : row.snapshotHash = Snapshots.hash snapshot
  since : x.outside.clock ≤ row.createdAt
  clock : row.createdAt ≤ y.outside.clock

theorem Unshipped.matching (h : Unshipped x y) (hx : Matching target x) : Matching target y := by
  obtain ⟨hstored, hrows, hclock⟩ := h
  refine ⟨by rw [hstored, hrows, hx.records], by rw [hstored]; exact hx.apart, ?_⟩
  rw [hrows]
  exact fun row hrow => (hx.before row hrow).trans hclock

theorem Unshipped.newest (h : Unshipped x y) (hx : Newest target x) : Newest target y := by
  have hlatest := latestBackupSnapshot_congr h.rows
  refine ⟨?_, ?_⟩
  · unfold Shelf.chooseSnapshot
    rw [h.stored, hlatest]
    exact hx.picked
  · rw [hlatest, h.rows]
    exact hx.highest

section Shipped

variable {path : List Char} {snapshot : Database} {row : BackupSnapshot}

theorem Shipped.matching (h : Shipped path snapshot row x y) (hx : Matching target x) :
    Matching target y := by
  refine ⟨?_, ?_, ?_⟩
  · rw [h.stored, h.rows, List.map_append, List.map_append, hx.records]
    simp [h.name, h.hash]
  · rw [h.stored, List.map_append, List.nodup_append]
    refine ⟨hx.apart, List.nodup_singleton _, ?_⟩
    rintro other hother _ (_ | ⟨_, ⟨⟩⟩)
    obtain ⟨entry, hentry, rfl⟩ := List.mem_map.1 hother
    exact h.absent entry hentry
  · rw [h.rows]
    intro other hother
    rcases List.mem_append.1 hother with hold | hnew
    · exact (hx.before other hold).trans (h.since.trans h.clock)
    · rw [List.mem_singleton.1 hnew]
      exact h.clock

/-- The snapshot shipped last is the one to restore exactly when it comes after the others by name,
and none of them has a higher content generation. -/
theorem Shipped.newest_iff (h : Shipped path snapshot row x y) (hx : Matching target x) :
    Newest target y ↔ (∀ entry ∈ x.outside.stored, entry.1 < path) ∧
      ∀ other ∈ shipments target x.store, other.contentGeneration ≤ row.contentGeneration := by
  have hlatest : y.store.latestBackupSnapshot target = some row :=
    latestBackupSnapshot_snoc h.rows fun other hother => (hx.before other hother).trans h.since
  have hinj : ∀ entry ∈ x.outside.stored ++ [(path, snapshot)],
      entry.1 = path → entry = (path, snapshot) := by
    intro entry hentry hpath
    rcases List.mem_append.1 hentry with hold | hnew
    · exact absurd hpath (h.absent entry hold)
    · exact List.mem_singleton.1 hnew
  have hchosen : y.outside.chooseSnapshot = some (path, snapshot) ↔
      ∀ entry ∈ x.outside.stored, entry.1 < path := by
    unfold Shelf.chooseSnapshot
    rw [h.stored]
    rw [getLast_sortBy hinj (by simp)]
    constructor
    · intro hle entry hentry
      exact lt_of_le_of_ne (hle entry (List.mem_append_left _ hentry)) (h.absent entry hentry)
    · intro hlt entry hentry
      rcases List.mem_append.1 hentry with hold | hnew
      · exact (hlt entry hold).le
      · rw [List.mem_singleton.1 hnew]
  constructor
  · intro hnewest
    refine ⟨hchosen.1 ?_, fun other hother => ?_⟩
    · have hpicked := hnewest.picked
      rw [hlatest, Option.map_some, Option.map_eq_some_iff] at hpicked
      obtain ⟨entry, hentry, heq⟩ := hpicked
      have hpath : entry.1 = path := (congrArg Prod.fst heq).trans h.name
      have hstored : entry ∈ x.outside.stored ++ [(path, snapshot)] := by
        rw [← h.stored]
        exact (perm_sortBy y.outside.stored).mem_iff.1 (List.mem_of_getLast? hentry)
      rw [hentry, hinj entry hstored hpath]
    · refine hnewest.highest row hlatest other ?_
      rw [h.rows]
      exact List.mem_append_left _ hother
  · rintro ⟨hlast, hhighest⟩
    refine ⟨?_, ?_⟩
    · rw [hchosen.2 hlast, hlatest]
      simp [h.name, h.hash]
    · rw [hlatest, h.rows]
      rintro _ ⟨⟩ other hother
      rcases List.mem_append.1 hother with hold | hnew
      · exact hhighest other hold
      · rw [List.mem_singleton.1 hnew]

end Shipped

/-! ## The end of a job -/

/-- The path under which a job ships at a time. -/
def pathAt (time : Time) (snapshot : Database) : List Char :=
  snapshotPath ⟨time, hashPrefix (Snapshots.hash snapshot)⟩

/-- The job ships: it took a snapshot, every object is verified, and the name is new. -/
def Ships (x : Scene (shelfWorld target)) (taken : Taken) (time : Time) (progress : Progress)
    (snapshot : Database) : Prop :=
  taken.pending = some snapshot ∧ progress.totals.failed = 0 ∧
    ∀ entry ∈ x.outside.stored, entry.1 ≠ pathAt time snapshot

/-- What the finish of a job does. -/
def Finishes (x : Scene (shelfWorld target)) (taken : Taken) (time : Time) (progress : Progress)
    (y : Scene (shelfWorld target)) : Prop :=
  (∃ snapshot row, Ships x taken time progress snapshot ∧
    row.contentGeneration = taken.generation ∧
    Shipped (pathAt time snapshot) snapshot row x y) ∨
  (∀ snapshot, ¬ Ships x taken time progress snapshot) ∧ Unshipped x y

/-- A name is on the target exactly when the database has a row for it. -/
theorem Matching.absent_iff (h : Matching target x) (name : SnapshotName) :
    (∀ entry ∈ x.outside.stored, entry.1 ≠ snapshotPath name) ↔
      x.store.backupSnapshots.any (fun other => other.targetId == target && other.name == name) =
        false := by
  have hpaths : x.outside.stored.map Prod.fst =
      (shipments target x.store).map fun row => snapshotPath row.name := by
    have hfirst := congrArg (List.map Prod.fst) h.records
    rwa [List.map_map, List.map_map] at hfirst
  have hstored : (∀ entry ∈ x.outside.stored, entry.1 ≠ snapshotPath name) ↔
      snapshotPath name ∉ x.outside.stored.map Prod.fst := by
    rw [List.mem_map, not_exists]
    exact forall_congr' fun entry => not_and.symm
  rw [hstored, hpaths]
  simp only [shipments, List.mem_map, List.mem_filter, List.any_eq_false, beq_iff_eq,
    Bool.and_eq_true, not_exists, not_and]
  exact ⟨fun hno row hrow htarget hname => hno row ⟨hrow, htarget⟩ (hname ▸ rfl),
    fun hno row hrow hpath => hno row hrow.1 hrow.2 (snapshotPath_inj hpath)⟩

/-- Reading a snapshot back and recording it. -/
theorem readBack_cases {job : JobId} {generation : ℕ} {name : SnapshotName} {snapshot : Database}
    {p : Action SnapshotRecord}
    (h : Steps (readBack target job generation name (Snapshots.hash snapshot)) x p y)
    (hp : p.Ended) (hfind : x.outside.find (snapshotPath name) = some snapshot) :
    ∃ clock, x.outside.clock ≤ clock ∧ y.outside = { x.outside with clock := clock } ∧
      ((∃ error, x.store.recordBackupSnapshot
          ⟨target, name, Snapshots.hash snapshot, generation, clock, job⟩ = .error error) ∧
        y.store = x.store ∨
        x.store.recordBackupSnapshot
          ⟨target, name, Snapshots.hash snapshot, generation, clock, job⟩ = .ok y.store) := by
  obtain ⟨got, e, hanswer, h⟩ := h.queried hp
  obtain ⟨rfl, hgot⟩ : e = x.outside ∧ (target = target → got = some (x.outside.find _)) := hanswer
  rw [hgot rfl, hfind] at h
  have hsame : (some snapshot).any (fun stored => Snapshots.hash stored == Snapshots.hash snapshot) =
      true := by simp
  dsimp only at h
  rw [if_pos hsame] at h
  obtain ⟨clock, e, hanswer, h⟩ := h.queried hp
  obtain ⟨hclock, rfl⟩ : x.outside.clock ≤ clock ∧ e = { x.outside with clock := clock } := hanswer
  refine ⟨clock, hclock, ?_⟩
  rcases h.performed hp with ⟨s, hok, h⟩ | ⟨⟨error, hno⟩, rfl⟩
  · obtain ⟨-, rfl⟩ := h.ended trivial
    exact ⟨rfl, .inr hok⟩
  · exact ⟨rfl, .inl ⟨⟨error, hno⟩, rfl⟩⟩

theorem ship_cases {job : JobId} {taken : Taken} {time : Time} {progress : Progress}
    {snapshot : Database} {p : Action SnapshotRecord} (hx : Matching target x)
    (hpending : taken.pending = some snapshot) (hverified : progress.totals.failed = 0)
    (h : Steps (shipSnapshot target job taken.generation time snapshot) x p y) (hp : p.Ended) :
    Finishes x taken time progress y := by
  obtain ⟨outcome, e, hanswer, h⟩ := h.queried hp
  have hputs : if target = target then x.outside.Puts (pathAt time snapshot) snapshot outcome e
      else e = x.outside := hanswer
  rw [if_pos rfl] at hputs
  unfold Shelf.Puts at hputs
  have habsent : (∀ entry ∈ x.outside.stored, entry.1 ≠ pathAt time snapshot) ↔ _ :=
    hx.absent_iff ⟨time, hashPrefix (Snapshots.hash snapshot)⟩
  cases hfind : x.outside.find (pathAt time snapshot) with
  | none =>
    rw [hfind] at hputs
    obtain ⟨rfl, rfl⟩ := hputs
    have hnew := find_eq_none.1 hfind
    obtain ⟨clock, hclock, hout, ⟨⟨error, hno⟩, -⟩ | hok⟩ := readBack_cases h hp (find_append hfind)
    · -- The name is new to the database as well.
      have hrecord : x.store.recordBackupSnapshot _ = .error error := hno
      unfold Database.recordBackupSnapshot at hrecord
      rw [if_neg (by rw [habsent.1 hnew]; exact Bool.false_ne_true)] at hrecord
      cases hrecord
    · let row : BackupSnapshot := ⟨target, ⟨time, hashPrefix (Snapshots.hash snapshot)⟩,
        Snapshots.hash snapshot, taken.generation, clock, job⟩
      have hstore : y.store =
          { x.store with backupSnapshots := x.store.backupSnapshots ++ [row] } :=
        recordBackupSnapshot_spec hok
      have hrows : shipments target y.store = shipments target x.store ++ [row] := by
        rw [hstore]
        simp [shipments, row]
      exact .inl ⟨snapshot, row, ⟨hpending, hverified, hnew⟩, rfl, by rw [hout]; rfl, hnew, hrows, rfl,
        rfl, hclock, by rw [hout]⟩
  | some other =>
    rw [hfind] at hputs
    obtain ⟨rfl, hputs⟩ := hputs
    have hold : ¬ ∀ entry ∈ x.outside.stored, entry.1 ≠ pathAt time snapshot := fun hno => by
      rw [find_eq_none.2 hno] at hfind
      cases hfind
    refine .inr ⟨fun _ hships => ?_, ?_⟩
    · obtain ⟨hother, -, hno⟩ := hships
      rw [hpending] at hother
      cases hother
      exact hold hno
    split at hputs
    · next heq =>
      subst heq
      subst hputs
      obtain ⟨clock, hclock, hout, ⟨-, hstore⟩ | hok⟩ := readBack_cases h hp hfind
      · refine ⟨by rw [hout]; rfl, by rw [hstore]; rfl, by rw [hout]; exact hclock⟩
      · have hrecord : x.store.recordBackupSnapshot _ = .ok y.store := hok
        unfold Database.recordBackupSnapshot at hrecord
        rw [habsent.not, Bool.not_eq_false] at hold
        rw [if_pos hold] at hrecord
        cases hrecord
    · obtain ⟨error, rfl⟩ := hputs
      have hsame : Unshipped x (x.asked (.putSnapshot target ⟨time, hashPrefix (Snapshots.hash snapshot)⟩
        snapshot) (.refused error) x.outside) := ⟨rfl, rfl, le_rfl⟩
      exact hsame.trans (.abandon h hp)

/-- The finish of a job ships its snapshot or leaves database and target alone. -/
theorem finishes {job : JobId} {taken : Taken} {time : Time} {progress : Progress}
    {p : Action (Option SnapshotRecord × Bool × List String)} (hx : Matching target x)
    (h : Steps (finishSnapshot target job taken.generation time taken.latest taken.pending progress)
      x p y) (hp : p.Ended) : Finishes x taken time progress y := by
  unfold finishSnapshot at h
  cases hpending : taken.pending with
  | none =>
    rw [hpending] at h
    obtain ⟨-, rfl⟩ := h.ended trivial
    refine .inr ⟨fun snapshot hships => ?_, .refl _⟩
    cases hpending.symm.trans hships.1
  | some snapshot =>
    rw [hpending] at h
    dsimp only at h
    split at h
    · next hfailed =>
      obtain ⟨-, rfl⟩ := h.ended trivial
      exact .inr ⟨fun _ hships => by have := hships.2.1; omega, .refl _⟩
    · next hverified =>
      rcases h.bind with ⟨p', hship, rfl⟩ | ⟨record, z, hship, hrest⟩
      · refine ship_cases hx hpending (by omega) hship ?_
        cases p' <;> trivial
      · obtain ⟨-, rfl⟩ := hrest.ended trivial
        exact ship_cases hx hpending (by omega) hship trivial

end

/-! ## Overlapping jobs -/

/-- A job that started, with what it took. -/
structure Started where
  job : JobId
  taken : Taken

/-- The scene and the jobs under way. -/
structure Site (target : TargetId) where
  scene : Scene (shelfWorld target)
  started : List Started

section

variable {target : TargetId}

def Site.new (clock : Time) : Site target := ⟨⟨.new, ⟨clock, []⟩, []⟩, []⟩

/-- What may happen next. -/
inductive Deed where
  /-- Any write of any process, such as a change of content. -/
  | write (w : Write)
  | start (job : JobId)
  /-- A job finishes at a time, after what it found out about the objects. -/
  | finish (job : Started) (time : Time) (progress : Progress)

variable [Snapshots]

/-- One step; the clock does not step back. -/
inductive Does : Site target → Deed → Site target → Prop
  | write {x : Scene (shelfWorld target)} {w : Write} {s : Database} {started : List Started} (ok : w.perform x.store = .ok s)
      (other : ∀ row, w = .recordBackupSnapshot row → row.targetId ≠ target) :
      Does ⟨x, started⟩ (.write w) ⟨x.wrote w s, started⟩
  | start {x y : Scene (shelfWorld target)} {job : JobId} {taken : Taken} {started : List Started}
      (steps : Steps (snapshotFirst target) x (.done taken) y) :
      Does ⟨x, started⟩ (.start job) ⟨y, started ++ [⟨job, taken⟩]⟩
  | finish {x y : Scene (shelfWorld target)} {job : Started} {time : Time} {progress : Progress}
      {before after : List Started}
      {p : Action (Option SnapshotRecord × Bool × List String)} (clock : x.outside.clock ≤ time)
      (steps : Steps (finishSnapshot target job.job job.taken.generation time job.taken.latest
        job.taken.pending progress) (x.asked .now time { x.outside with clock := time }) p y)
      (ended : p.Ended) :
      Does ⟨x, before ++ job :: after⟩ (.finish job time progress) ⟨y, before ++ after⟩

/-- A job that ships has the last name, and took its snapshot at a content generation that is not
below those shipped so far. -/
def Deed.InOrder (s : Site target) : Deed → Prop
  | .finish job time progress => ∀ snapshot, Ships s.scene job.taken time progress snapshot →
    (∀ entry ∈ s.scene.outside.stored, entry.1 < pathAt time snapshot) ∧
      ∀ row ∈ shipments target s.scene.store, row.contentGeneration ≤ job.taken.generation
  | _ => True

/-- What happens one after the other, with the site after each step. -/
def Path : Site target → List (Deed × Site target) → Prop
  | _, [] => True
  | s, (deed, s') :: run => Does s deed s' ∧ Path s' run

/-- Every step of the run is in order. -/
def Ordered : Site target → List (Deed × Site target) → Prop
  | _, [] => True
  | s, (deed, s') :: run => deed.InOrder s ∧ Ordered s' run

theorem inOrder_of_not_ships {s : Site target} {job : Started} {time : Time} {progress : Progress}
    (h : ∀ snapshot, ¬ Ships s.scene job.taken time progress snapshot) :
    (Deed.finish job time progress).InOrder s := fun snapshot hships => absurd hships (h snapshot)

/-- One step keeps database and target matched, and the newest snapshot the newest if and only if it
is in order. -/
theorem Does.newest {s s' : Site target} {deed : Deed} (h : Does s deed s')
    (hs : Matching target s.scene) (hnewest : Newest target s.scene) :
    Matching target s'.scene ∧ (Newest target s'.scene ↔ deed.InOrder s) := by
  cases h with
  | write ok other =>
    have hsame := Unshipped.wrote ok other
    exact ⟨hsame.matching hs, iff_of_true (hsame.newest hnewest) trivial⟩
  | start steps =>
    obtain rfl := (only_snapshotFirst target).steps_same steps
    exact ⟨hs, iff_of_true hnewest trivial⟩
  | @finish x y job time progress before after p clock steps ended =>
    have hnow : Unshipped x (x.asked .now time { x.outside with clock := time }) :=
      ⟨rfl, rfl, clock⟩
    rcases finishes (hnow.matching hs) steps ended with ⟨snapshot, row, hships, hgeneration, hshipped⟩ |
      ⟨hnot, hsame⟩
    · refine ⟨hshipped.matching (hnow.matching hs), ?_⟩
      rw [hshipped.newest_iff (hnow.matching hs), hgeneration]
      constructor
      · intro horder other hother
        cases hships.1.symm.trans hother.1
        exact horder
      · exact fun horder => horder snapshot hships
    · have hwhole := hnow.trans hsame
      exact ⟨hwhole.matching hs, iff_of_true (hwhole.newest hnewest) (inOrder_of_not_ships hnot)⟩

theorem newest_iff_ordered {s : Site target} {run : List (Deed × Site target)} (h : Path s run)
    (hs : Matching target s.scene) (hnewest : Newest target s.scene) :
    (∀ step ∈ run, Newest target step.2.scene) ↔ Ordered s run := by
  induction run generalizing s with
  | nil => exact iff_of_true (fun _ h => absurd h List.not_mem_nil) trivial
  | cons step run ih =>
    obtain ⟨deed, s'⟩ := step
    obtain ⟨hdoes, hrun⟩ := h
    obtain ⟨hmatching, hiff⟩ := hdoes.newest hs hnewest
    rw [List.forall_mem_cons]
    constructor
    · rintro ⟨hfirst, hrest⟩
      exact ⟨hiff.1 hfirst, (ih hrun hmatching hfirst).1 hrest⟩
    · rintro ⟨hfirst, hrest⟩
      exact ⟨hiff.2 hfirst, (ih hrun hmatching (hiff.2 hfirst)).2 hrest⟩

/-- However the jobs to a target overlap, a restore takes the newest snapshot after every step if
and only if every job that ships does so in order. -/
theorem restore_takes_newest_iff (clock : Time) (run : List (Deed × Site target))
    (h : Path (.new clock) run) :
    (∀ step ∈ run, Newest target step.2.scene) ↔ Ordered (.new clock) run :=
  newest_iff_ordered h (.new clock) (.new clock)

/-! ## Jobs that overlap -/

/-- The answers of a target that works. -/
def shelfReply (target : TargetId) : Responder (shelfWorld target) := fun e q =>
  match q with
  | .now => (e.clock, e)
  | .putSnapshot other name snapshot =>
    if other = target then
      match e.find (snapshotPath name) with
      | none => (.created, { e with stored := e.stored ++ [(snapshotPath name, snapshot)] })
      | some found => (if found = snapshot then .identical else .refused "conflict", e)
    else (.created, e)
  | .getSnapshot _ name => (some (e.find (snapshotPath name)), e)
  | q => (targetWith 0 .new q, e)

omit [Snapshots] in
theorem faithful_shelfReply (target : TargetId) : (shelfReply target).Faithful := by
  intro e q
  cases q with
  | now => exact ⟨le_rfl, rfl⟩
  | putSnapshot other name snapshot =>
    show if other = target then _ else _
    unfold shelfReply
    by_cases htarget : other = target
    · simp only [if_pos htarget]
      unfold Shelf.Puts
      cases e.find (snapshotPath name) with
      | none => exact ⟨rfl, rfl⟩
      | some found =>
        refine ⟨rfl, ?_⟩
        by_cases hsame : found = snapshot
        · simp [hsame]
        · simp [hsame]
    · simp only [if_neg htarget]
  | getSnapshot other name => exact ⟨rfl, fun _ => rfl⟩
  | _ => rfl

omit [Snapshots] in
theorem steps_snapshotFirst (x : Scene (shelfWorld target))
    (h : (x.store.latestBackupSnapshot target).any
      (·.contentGeneration == x.store.contentGeneration) = false) :
    Steps (snapshotFirst target) x
      (.done ⟨x.store.contentGeneration, x.store.latestBackupSnapshot target, some x.store⟩) x := by
  refine .step (.read _ x) (.step (.read _ x) ?_)
  show Steps (takeSnapshot (x.store.latestBackupSnapshot target) x.store.contentGeneration >>=
    fun pending => (pure (Taken.mk x.store.contentGeneration
      (x.store.latestBackupSnapshot target) pending) : Action Taken)) x _ x
  unfold takeSnapshot
  rw [if_neg (by rw [h]; exact Bool.false_ne_true)]
  exact .step (.read _ x) (.stop _ x)

/-- A job can finish at any time that the clock may show; if it may ship, it does. -/
theorem exists_finish {x : Scene (shelfWorld target)} (hx : Matching target x) {job : Started}
    {time : Time} (hclock : x.outside.clock ≤ time) {progress : Progress} {snapshot : Database}
    (hships : Ships x job.taken time progress snapshot) (before after : List Started) :
    ∃ y row, Does ⟨x, before ++ job :: after⟩ (.finish job time progress) ⟨y, before ++ after⟩ ∧
      row.contentGeneration = job.taken.generation ∧ time ≤ y.outside.clock ∧
      Shipped (pathAt time snapshot) snapshot row x y := by
  obtain ⟨p, y, hsteps, hended⟩ := exists_steps_ended (faithful_shelfReply target)
    (finishSnapshot target job.job job.taken.generation time job.taken.latest job.taken.pending
      progress) (x.asked .now time { x.outside with clock := time })
  have hnow : Unshipped x (x.asked .now time { x.outside with clock := time }) := ⟨rfl, rfl, hclock⟩
  rcases finishes (hnow.matching hx) hsteps hended with ⟨other, row, hother, hgeneration, hshipped⟩ |
    ⟨hnot, -⟩
  · cases hships.1.symm.trans hother.1
    exact ⟨y, row, .finish hclock hsteps hended, hgeneration, hshipped.since.trans hshipped.clock,
      hshipped.stored, hshipped.absent, hshipped.rows, hshipped.name, hshipped.hash,
      hclock.trans hshipped.since, hshipped.clock⟩
  · exact absurd hships (hnot snapshot)

end

/-- A change of content: a file of unknown contents is blocked. -/
def blocking : Write := .markRecoveryBlocked 5 1 none "manifest is missing" 0

theorem blocking_ok : ∃ db, blocking.perform .new = .ok db ∧ db.contentGeneration = 1 ∧
    shipments 0 db = [] ∧ db.latestBackupSnapshot 0 = none := ⟨_, rfl, rfl, rfl, rfl⟩

/-- A job alone restores what it took. -/
theorem restore_takes_newest_iff_alone : ∃ (_ : Snapshots) (run : List (Deed × Site 0)),
    Path (.new 0) run ∧ (∀ step ∈ run, Newest 0 step.2.scene) ∧
      ∃ step ∈ run, step.2.scene.outside.stored.map Prod.snd = [Database.new] := by
  let _ := countingHash
  let job : Started := ⟨1, ⟨0, none, some .new⟩⟩
  let x : Scene (shelfWorld 0) := ⟨.new, ⟨0, []⟩, []⟩
  have hstart : Does (.new 0) (.start 1) ⟨x, [job]⟩ := .start (steps_snapshotFirst x rfl)
  have hships : Ships x job.taken 1 (.start 0) .new := ⟨rfl, rfl, fun _ h => absurd h List.not_mem_nil⟩
  obtain ⟨y, row, hfinish, -, -, hshipped⟩ := exists_finish (.new 0) (by decide) hships [] []
  have hpath : Path (.new 0) [(.start 1, ⟨x, [job]⟩), (.finish job 1 (.start 0), ⟨y, []⟩)] :=
    ⟨hstart, hfinish, trivial⟩
  have hordered : Ordered (.new 0)
      [(.start 1, ⟨x, [job]⟩), (.finish job 1 (.start 0), (⟨y, []⟩ : Site 0))] :=
    ⟨trivial, fun _ _ => ⟨fun _ h => absurd h List.not_mem_nil, fun _ h => absurd h List.not_mem_nil⟩,
      trivial⟩
  refine ⟨_, _, hpath, (restore_takes_newest_iff 0 _ hpath).2 hordered, _,
    List.mem_cons_of_mem _ List.mem_cons_self, ?_⟩
  show y.outside.stored.map Prod.snd = _
  rw [hshipped.stored]
  rfl

/-- The job that started first finishes last, and its older snapshot is the one to restore. -/
theorem overlapping_jobs_restore_older :
    ¬ ∀ (_ : Snapshots) (target : TargetId) (clock : Time) (run : List (Deed × Site target)),
      Path (.new clock) run → ∀ step ∈ run, Newest target step.2.scene := by
  intro h
  let _ := countingHash
  obtain ⟨db, hok, hgeneration, hnone, hlatest⟩ := blocking_ok
  let older : Started := ⟨1, ⟨0, none, some .new⟩⟩
  let newer : Started := ⟨2, ⟨db.contentGeneration, db.latestBackupSnapshot 0, some db⟩⟩
  let x : Scene (shelfWorld 0) := ⟨.new, ⟨0, []⟩, []⟩
  let x₁ : Scene (shelfWorld 0) := x.wrote blocking db
  have hother : ∀ row, blocking = .recordBackupSnapshot row → row.targetId ≠ 0 :=
    fun _ heq => by cases heq
  have hfirst : Does (.new 0) (.start 1) ⟨x, [older]⟩ := .start (steps_snapshotFirst x rfl)
  have hwrite : Does ⟨x, [older]⟩ (.write blocking) ⟨x₁, [older]⟩ := .write hok hother
  have hsecond : Does ⟨x₁, [older]⟩ (.start 2) ⟨x₁, [older, newer]⟩ :=
    .start (steps_snapshotFirst x₁ (by show (db.latestBackupSnapshot 0).any _ = false; rw [hlatest]; rfl))
  -- The second job ships in the first second, the first one in the second.
  have hx₁ : Matching 0 x₁ := (Unshipped.wrote hok hother).matching (.new 0)
  have hships : Ships x₁ newer.taken 1 (.start 0) db :=
    ⟨rfl, rfl, fun _ h => absurd h List.not_mem_nil⟩
  obtain ⟨y, row, hdone, hrow, hclock, hshipped⟩ :=
    exists_finish hx₁ (Int.zero_le_ofNat 1) hships [older] []
  have hlater : Ships y older.taken (y.outside.clock + 1) (.start 0) .new := by
    refine ⟨rfl, rfl, fun entry hentry hpath => ?_⟩
    rw [hshipped.stored] at hentry
    cases List.mem_singleton.1 hentry
    have hstamp : (1 : ℤ) = y.outside.clock + 1 :=
      congrArg SnapshotName.stamp (snapshotPath_inj hpath)
    exact absurd hstamp (Int.ne_of_lt (Int.lt_add_one_of_le hclock))
  obtain ⟨z, row', hlast, hrow', -, hshipped'⟩ :=
    exists_finish (hshipped.matching hx₁) (Int.le_add_one le_rfl) hlater [] []
  let last : Deed × Site 0 := (.finish older (y.outside.clock + 1) (.start 0), ⟨z, []⟩)
  have hnewest : Newest 0 last.2.scene := h _ 0 0 [(.start 1, ⟨x, [older]⟩),
    (.write blocking, ⟨x₁, [older]⟩), (.start 2, ⟨x₁, [older, newer]⟩),
    (.finish newer 1 (.start 0), ⟨y, [older]⟩), last]
    ⟨hfirst, hwrite, hsecond, hdone, hlast, trivial⟩ last (by simp)
  have hhighest := ((hshipped'.newest_iff (hshipped.matching hx₁)).1 hnewest).2 row (by
    rw [hshipped.rows]
    exact List.mem_append_right _ List.mem_cons_self)
  rw [hrow, hrow'] at hhighest
  have hgenerations : db.contentGeneration ≤ 0 := hhighest
  omega

end Metadata

end DistrHnsw
