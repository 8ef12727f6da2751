import DistrHnsw.Partition.Runs

/-!
# History that opening forgets

The mark that an opened partition reaches is the largest of the mark of its snapshot and the numbers in
its log.  Files that name more than that are not looked at: a snapshot that was rejected, and a segment
without entries behind others that are gone.
-/

namespace DistrHnsw

namespace Index

open Wal (Entry SegmentRead Operation WalWriter)
open Device (orFail)

namespace Partition

section

variable [Digests] {p : Partition} {d d' : Disk} {report : RecoveryReport} {config : PartitionConfig}
  {log : List (ℕ × SegmentRead)}

/-- The mark covers every snapshot of the directory by its name, and all that lies before a segment. -/
structure Disk.KeptBy (d : Disk) (high : ℕ) : Prop where
  snapshots (n : ℕ) : n ∈ d.snap.files.names → n ≤ high
  segments (first : ℕ) : first ∈ d.wal.files.names → first - 1 ≤ high

/-- What is opened, or found by an inspection, covers the directory. -/
structure KeepsHistory (d : Disk) : Prop where
  opened {p : Partition} {report : RecoveryReport} {d' : Disk} :
    «open» d = (.ok (p, report), d') → Disk.KeptBy d p.highWater
  inspected {report : RecoveryReport} : inspect d = .ok report → Disk.KeptBy d report.highWater

/-- The mark of the newest snapshot that loads, or the number of some entry, is at least `n`. -/
def Recorded (config : PartitionConfig) (snap : Dir Bytes) (log : List (ℕ × SegmentRead)) (n : ℕ) :
    Prop :=
  n ≤ markOf config snap ∨ ∃ e ∈ entriesRead log, n ≤ e.seq

/-- Snapshots, also those that do not load, are recorded by name, and so is what lies before a segment
without entries. -/
def Covered (d : Disk) : Prop :=
  ∃ config log, d.manifest = some config ∧ readLog config.id d.wal.files = .ok log ∧
    (∀ n ∈ d.snap.files.names, Recorded config d.snap.files log n) ∧
    ∀ segment ∈ log, segment.2.entries = [] →
      Recorded config d.snap.files log (segment.1 - 1)

omit [Digests] in
theorem le_reach_iff {mark n : ℕ} {es : List Entry} :
    n ≤ reach mark es ↔ n ≤ mark ∨ ∃ e ∈ es, n ≤ e.seq := by
  constructor
  · intro h
    by_contra hnone
    rw [not_or] at hnone
    have hlt (e : Entry) (he : e ∈ es) : e.seq < n := not_le.1 fun hle => hnone.2 ⟨e, he, hle⟩
    have hbound : reach mark es ≤ n - 1 := reach_le (by omega) fun e he => by
      have := hlt e he
      omega
    omega
  · rintro (h | ⟨e, he, h⟩)
    · exact h.trans le_reach
    · exact h.trans (seq_le_reach he)

/-- The segments are named as they were read. -/
theorem names_of_readLog {id : Uuid} {wal : Dir Bytes} (h : readLog id wal = .ok log) :
    wal.names = log.map Prod.fst := by
  have hmatched := mapM_eq_ok.1 h
  have hnames : (enumerate wal.files).map (fun file => file.2.1) = log.map Prod.fst :=
    Matched.map_eq hmatched fun file segment hread => by
      obtain ⟨read, -, heq⟩ := map_eq_ok.1 hread
      rw [← heq]
  rw [← hnames, enumerate, List.map_map, Dir.names]
  conv_lhs => rw [← List.zipIdx_map_fst 0 wal.files, List.map_map]
  rfl

/-- A recovery covers the directory exactly when all that its files name is recorded. -/
theorem kept_iff_covered (hmanifest : d.manifest = some config)
    (hok : recover (some config) d.wal.files d.snap.files = .ok (p, report)) :
    Disk.KeptBy d p.highWater ↔ Covered d := by
  obtain ⟨log, hlog, -, hhigh, -⟩ := log_of_recover hok
  have hrecorded (n : ℕ) : n ≤ p.highWater ↔ Recorded config d.snap.files log n := by
    rw [hhigh, le_reach_iff]
    rfl
  constructor
  · intro h
    refine ⟨config, log, hmanifest, hlog, fun n hn => (hrecorded n).1 (h.snapshots n hn),
      fun segment hsegment _ => (hrecorded _).1 (h.segments _ ?_)⟩
    rw [names_of_readLog hlog]
    exact List.mem_map_of_mem hsegment
  · rintro ⟨config', log', hmanifest', hlog', hsnapshots, hsegments⟩
    cases hmanifest.symm.trans hmanifest'
    cases hlog.symm.trans hlog'
    refine ⟨fun n hn => (hrecorded n).2 (hsnapshots n hn), fun first hfirst => (hrecorded _).2 ?_⟩
    rw [names_of_readLog hlog] at hfirst
    obtain ⟨segment, hsegment, rfl⟩ := List.mem_map.1 hfirst
    cases hentries : segment.2.entries with
    | nil => exact hsegments segment hsegment hentries
    | cons e es =>
      have hnumbered := (numbered_of_readLog hlog hsegment).1
      rw [hentries] at hnumbered
      refine .inr ⟨e, List.mem_flatMap.2 ⟨segment, hsegment, hentries ▸ List.mem_cons_self⟩, ?_⟩
      rw [hnumbered.1]
      exact Nat.sub_le _ _

theorem inspect_eq_ok : inspect d = .ok report ↔
    ∃ p, recover d.manifest d.wal.files d.snap.files = .ok (p, report) := by
  constructor
  · intro h
    obtain ⟨⟨p, report'⟩, hok, rfl⟩ := map_eq_ok.1 h
    exact ⟨p, hok⟩
  · rintro ⟨p, hok⟩
    exact map_eq_ok.2 ⟨_, hok, rfl⟩

/-- A directory that is accepted keeps its history exactly when all that its files name is recorded. -/
theorem keeps_history_iff (hok : inspect d = .ok report) : KeepsHistory d ↔ Covered d := by
  obtain ⟨p, hrecover⟩ := inspect_eq_ok.1 hok
  cases hmanifest : d.manifest with
  | none =>
    rw [hmanifest] at hrecover
    cases hrecover
  | some config =>
    rw [hmanifest] at hrecover
    have hiff := kept_iff_covered hmanifest hrecover
    obtain ⟨-, -, -, -, -, hmark⟩ := log_of_recover hrecover
    constructor
    · intro h
      rw [← hiff, ← hmark]
      exact h.inspected hok
    · intro h
      refine ⟨fun hopen => ?_, fun hinspect => ?_⟩
      · obtain ⟨config', state, found, w, hmanifest', hrecover', heq, -⟩ := open_eq_ok hopen
        cases hmanifest.symm.trans hmanifest'
        rw [heq]
        exact (kept_iff_covered hmanifest hrecover').2 h
      · cases hok.symm.trans hinspect
        rw [hmark]
        exact hiff.2 h

/-! ## Directories that runs leave -/

/-- What an action of a process leaves of the directory it is performed on. -/
def Action.Leaves (s : Option Running) (d d' : Disk) : Action → Prop
  | .create e config => e = d ∧ d' = (Partition.create d config).2
  | .bulkLoad e config vectors keys index => e = d ∧
      (∀ metric, config.metricOf = .ok metric → BuildsParallel vectors metric config.params index) ∧
      d' = (Partition.bulkLoad d config vectors keys index).2
  | .open e => e = d ∧ d' = (Partition.open d).2
  | .upsert wal opId key vector payload => ∃ running, s = some running ∧ wal = d.wal ∧
      d' = { d with wal := (running.partition.upsert wal opId key vector payload).2.2 }
  | .delete wal opId key => ∃ running, s = some running ∧ wal = d.wal ∧
      d' = { d with wal := (running.partition.delete wal opId key).2.2 }
  | .snapshot snap => ∃ running, s = some running ∧ snap = d.snap ∧
      d' = { d with snap := (running.partition.snapshot snap).2.2 }
  | .truncateWal wal => ∃ running, s = some running ∧ wal = d.wal ∧
      d' = { d with wal := (running.partition.truncateWalBelowSnapshot wal).2 }
  | .finishCompaction e input index => ∃ running, s = some running ∧ e = d ∧
      input ∈ running.captured ∧ BuildsParallel input.vectors input.metric input.params index ∧
      d' = (running.partition.finishCompaction d (build input index)).2.2
  | .captureCompaction | .setRamBudget _ | .setFailpoint _ => d' = d

/-- A directory and the process that has it open, after a run: any call may be the last of its process,
and the device decides anew what fails. -/
inductive Produced : Disk → Option Running → Prop
  | new {wal snap : Device} (empty : wal.files = Dir.empty ∧ snap.files = Dir.empty) :
      Produced ⟨none, wal, snap⟩ none
  | step {d d' : Disk} {s : Option Running} {a : Action} {s' : Running} (before : Produced d s)
      (step : Step s a s') (leaves : a.Leaves s d d') : Produced d' (some s')
  | last {d d' : Disk} {s : Option Running} {a : Action} (before : Produced d s)
      (leaves : a.Leaves s d d') : Produced d' none
  | stop {d : Disk} {s : Option Running} (before : Produced d s) : Produced d none
  | outcomes {d : Disk} {s : Option Running} (wal snap : List (Option ℕ)) (before : Produced d s) :
      Produced { d with
        wal := { d.wal with faults := wal }, snap := { d.snap with faults := snap } } s

omit [Digests] in
/-- Snapshots were changed and segments removed. -/
structure Damaged (d d' : Disk) : Prop where
  manifest : d'.manifest = d.manifest
  snapshots : d'.snap.files.names = d.snap.files.names
  segments : d'.wal.files.files.Sublist d.wal.files.files

/-! ## A rejected snapshot without a log -/

/-- On a reliable device a snapshot puts its file under the name of its mark. -/
theorem snapshot_of_reliable {bytes : Bytes} {snap : Device} (hreliable : snap.faults = [])
    (hfailpoint : p.failpoint = none) (hencode : encode p.snapshotInput = .ok bytes) :
    ∃ snap', (p.snapshot snap).2.2 = snap' ∧ snap'.files = snap.files.put p.highWater bytes := by
  have hwrite : ∃ snap', writeWithHook snap p.snapshotInput true = (.ok p.highWater, snap') ∧
      snap'.files = snap.files.put p.highWater bytes := by
    let snap' : Device := { snap with
      files := snap.files.put p.highWater bytes
      moments := snap.moments ++ [snap.files.put p.highWater bytes] }
    have hrename : snap.rename p.snapshotInput.highWater bytes = (true, snap') :=
      Device.rename_of_reliable hreliable
    have htouch : snap'.touch = (true, snap') := Device.touch_of_reliable hreliable
    refine ⟨snap', ?_, rfl⟩
    simp only [writeWithHook, orFail, Device.touch_of_reliable hreliable, hencode, if_true, Bool.not_true,
      Bool.false_eq_true, if_false, hrename, htouch]
    rfl
  obtain ⟨snap', hwrite, hfiles⟩ := hwrite
  refine ⟨snap', ?_, hfiles⟩
  simp only [snapshot, hfailpoint, ne_eq, reduceCtorEq, not_false_eq_true, decide_true, hwrite]
  split
  · rfl
  · split
    · rfl
    · split <;> rfl

omit [Digests] in
/-- The configuration of a partition whose first delete leaves what `deletes 1` holds. -/
def deletesConfig : PartitionConfig :=
  { smallConfig with id := sampleId, dims := 1, m := 2, m0 := 2, efConstruction := 8 }

/-- The directory of one snapshot that does not load. -/
def rejectedDisk : Disk where
  manifest := some deletesConfig
  wal := .reliable Dir.empty
  snap := .reliable ⟨[(1, [])], List.pairwise_singleton _ _⟩

omit [Digests] in
/-- It is opened as an empty partition. -/
theorem open_rejectedDisk : letI := Digests.standard
    ∃ w report d', «open» rejectedDisk =
      (.ok ({ empty deletesConfig .l2 with wal := some w }, report), d') := by
  let _ := Digests.standard
  have hrecover : ∃ report, recover rejectedDisk.manifest rejectedDisk.wal.files rejectedDisk.snap.files =
      .ok (empty deletesConfig .l2, report) ∧ report.tornTailFound = none := ⟨_, rfl, rfl⟩
  obtain ⟨report, hrecover, htorn⟩ := hrecover
  have hext : WalWriter.extendNewest (Device.reliable Dir.empty).files deletesConfig.id 0 = .ok none :=
    rfl
  obtain ⟨w, wal, hopen, -⟩ := WalWriter.open_of_reliable rfl hext (fun _ _ h => by cases h)
    (fun _ file hfile => absurd hfile List.not_mem_nil)
  have hopen' : WalWriter.open rejectedDisk.wal (empty deletesConfig .l2).config.id
    (empty deletesConfig .l2).highWater = (.ok w, wal) := hopen
  unfold «open»
  rw [hrecover]
  dsimp only
  rw [htorn]
  dsimp only
  rw [hopen']
  exact ⟨_, _, _, rfl⟩

omit [Digests] in
theorem keeps_history_iff_rejected : letI := Digests.standard
    ∃ report, inspect rejectedDisk = .ok report ∧
      (KeepsHistory rejectedDisk ↔ Covered rejectedDisk) := by
  let _ := Digests.standard
  exact ⟨_, rfl, keeps_history_iff rfl⟩

omit [Digests] in
/-- A delete is logged and captured by a snapshot; when the snapshot is damaged and the log removed, the
directory opens as an empty partition. -/
theorem rejected_snapshot_forgotten : letI := Digests.standard
    ¬ ∀ d s d', Produced d s → Damaged d d' → KeepsHistory d' := by
  let _ := Digests.standard
  intro hall
  obtain ⟨w, wal, hcreate, hreliable, hnext, hclean, hshort⟩ :=
    @create_newDisk _ deletesConfig .l2 rfl rfl
  -- the delete, on a reliable device
  let p : Partition := { empty deletesConfig .l2 with wal := some w }
  let q : Partition :=
    { p with idempotency := p.idempotency.record (opIdOf 0) 1, highWater := 1 }
  have happlies : p.apply ⟨p.highWater + 1, opIdOf 0, .delete [0x6B]⟩ = .ok q := rfl
  obtain ⟨w', wal', hmutate⟩ := mutate_of_reliable (by decide) happlies hreliable rfl hnext hclean
    hshort rfl
  have hdelete : p.delete wal (opIdOf 0) [0x6B] = (.ok ⟨1, false⟩, { q with wal := some w' }, wal') :=
    hmutate
  -- the snapshot
  obtain ⟨graph, -, hencode⟩ := encode_eq (@encodable_deletes 1 (by decide))
  have hinput : ({ q with wal := some w' } : Partition).snapshotInput = deletes 1 := rfl
  obtain ⟨snap, hsnapshot, hfiles⟩ := @snapshot_of_reliable _ { q with wal := some w' } _
    (.reliable Dir.empty) rfl rfl (hinput ▸ hencode)
  have hnew : Produced newDisk none := .new ⟨rfl, rfl⟩
  have hcreated : Produced ⟨some deletesConfig, wal, .reliable Dir.empty⟩ (some ⟨p, []⟩) :=
    .step hnew (.create hcreate) ⟨rfl, by rw [hcreate]⟩
  have hdeleted : Produced ⟨some deletesConfig, wal', .reliable Dir.empty⟩
      (some ⟨{ q with wal := some w' }, []⟩) := by
    have hstep := @Step.delete _ ⟨p, []⟩ wal (opIdOf 0) [0x6B]
    dsimp only at hstep
    rw [hdelete] at hstep
    exact .step hcreated hstep ⟨⟨p, []⟩, rfl, rfl, by dsimp only; rw [hdelete]⟩
  have hproduced : Produced ⟨some deletesConfig, wal', snap⟩ none :=
    @Produced.last _ _ _ _ (.snapshot (.reliable Dir.empty)) hdeleted
      ⟨_, rfl, rfl, by dsimp only; rw [hsnapshot]⟩
  have hdamaged : Damaged ⟨some deletesConfig, wal', snap⟩ rejectedDisk := by
    refine ⟨rfl, ?_, List.nil_sublist _⟩
    show _ = snap.files.names
    rw [hfiles]
    rfl
  obtain ⟨w₂, report, d', hopen⟩ := open_rejectedDisk
  have hkept := (hall _ _ _ hproduced hdamaged).opened hopen
  exact absurd (hkept.snapshots 1 List.mem_cons_self) (show ¬1 ≤ 0 by decide)

end

end Partition

end Index

end DistrHnsw
