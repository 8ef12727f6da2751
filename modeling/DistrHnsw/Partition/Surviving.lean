import DistrHnsw.Partition.Ledger
import DistrHnsw.Partition.Reopened
import DistrHnsw.Wal.Remains

/-!
# Opening what survived

The log that remains after a stop is read to its last whole entry, the tail behind it is cut, and the
partition that opens follows the ledger up to that entry.
-/

namespace DistrHnsw

namespace Index

open Wal (Entry SegmentRead WalError WalWriter WellFormed Chain Remains Standing entriesOf filesOf
  segmentBytes readSegment)

section

variable [Digests] {id : Uuid} {start first : ℕ} {log : List Entry} {files : Dir Bytes}
  {segs : List (ℕ × List Entry)}

/-! ## Reading -/

/-- What intact segments are read as. -/
def readsOf (segs : List (ℕ × List Entry)) : List (ℕ × SegmentRead) :=
  segs.map fun seg => (seg.1, ⟨seg.2, none⟩)

omit [Digests] in
theorem entriesRead_readsOf : entriesRead (readsOf segs) = entriesOf segs := by
  rw [entriesRead, readsOf, List.flatMap_map]
  rfl

omit [Digests] in
theorem tornTail_readsOf : ∀ segment ∈ readsOf segs, segment.2.tornTail = none := by
  intro segment hsegment
  obtain ⟨seg, -, rfl⟩ := List.mem_map.1 hsegment
  rfl

omit [Digests] in
theorem named_readsOf (h : Chain start segs) : Partition.Named start (readsOf segs) := by
  induction segs generalizing start with
  | nil => trivial
  | cons seg segs ih =>
    obtain ⟨hfirst, -, hrest⟩ := h
    exact ⟨hfirst, ih hrest⟩

/-- Intact segments and a newest one behind them. -/
theorem readLog_concat {content : Bytes} {read : SegmentRead} (hchain : Chain start segs)
    (hfiles : files.files = filesOf id segs ++ [(first, content)])
    (hread : readSegment first content id true = .ok read) :
    readLog id files = .ok (readsOf segs ++ [(first, read)]) := by
  have hlen : (filesOf id segs ++ [(first, content)]).length - 1 = (filesOf id segs).length := by simp
  rw [readLog, hfiles, hlen, enumerate, List.zipIdx_append, List.map_append, List.mapM_append,
    mapM_readAt_filesOf hchain.wellFormed, ok_bind]
  simp only [List.zipIdx_singleton, List.map_cons, List.map_nil, List.mapM_cons, List.mapM_nil, readAt,
    zero_add, beq_self_eq_true, hread]
  rfl

theorem readSegment_blank {piece : Bytes} (h : Wal.Blank piece) :
    readSegment first piece id true = .ok ⟨[], some (0, piece.length)⟩ := by
  unfold readSegment
  rw [if_pos ⟨rfl, h⟩]

/-! ## Cutting the tail -/

/-- The outcomes of a repair: the log remains at every moment, without a tail when it is done. -/
structure Mended (id : Uuid) (start : ℕ) (log : List Entry) (wal : Device)
    (out : Except WalError Unit × Device) : Prop where
  through : wal.Through (Remains id start log) out.2
  holds : out.1 = .ok () → Wal.Holds id start log out.2.files
  grounded : out.1 = .ok () → out.2.files.files = [] → start = 1

omit [Digests] in
/-- A computation that changes the directory to `files`, if at all. -/
def Changes (P : Dir Bytes → Prop) (wal : Device) (files : Dir Bytes)
    (out : Except WalError Unit × Device) : Prop :=
  wal.Through P out.2 ∧ (out.1 = .ok () → out.2.files = files)

section Changes

variable {P : Dir Bytes → Prop} {wal : Device} {path offset : ℕ}

omit [Digests] in
theorem changes_swap {step : Bool × Device} (hstep : wal.Swaps files step) (hold : P wal.files)
    (hnew : P files) : Changes P wal files
      (Device.orFail step .io fun wal => Device.orFail wal.touch .io fun wal => (.ok (), wal)) := by
  have hswapped : wal.Through P step.2 := .swap hstep hold hnew
  refine Device.orFail_rule (Q := Changes P wal files) (fun _ => ⟨hswapped, fun hok => by cases hok⟩)
    fun hdone => ?_
  have hfiles : step.2.files = files := by
    rcases hstep with ⟨hno, -⟩ | ⟨-, hfiles, -⟩
    · rw [hdone] at hno
      cases hno
    · exact hfiles
  have hsynced := hswapped.trans (.touch hswapped.files)
  exact Device.orFail_rule (Q := Changes P wal files) (fun _ => ⟨hsynced, fun hok => by cases hok⟩)
    fun _ => ⟨hsynced, fun _ => (Device.touch_files _).trans hfiles⟩

omit [Digests] in
/-- A segment without a header is removed. -/
theorem changes_remove (hshort : offset < Wal.headerLen) (hold : P wal.files)
    (hnew : P (wal.files.erase path)) :
    Changes P wal (wal.files.erase path) (Partition.truncateTornTail wal path offset) := by
  unfold Partition.truncateTornTail
  rw [if_pos hshort]
  exact changes_swap (wal.swaps_remove path) hold hnew

omit [Digests] in
/-- A tail behind a header is cut off. -/
theorem changes_truncate (hlong : Wal.headerLen ≤ offset) (hold : P wal.files)
    (hnew : P (wal.files.modify path (·.take offset))) :
    Changes P wal (wal.files.modify path (·.take offset))
      (Partition.truncateTornTail wal path offset) := by
  unfold Partition.truncateTornTail
  rw [if_neg (Nat.not_lt.2 hlong)]
  have hopened : wal.Through P wal.touch.2 := .touch hold
  refine Device.orFail_rule (Q := Changes P wal _) (fun _ => ⟨hopened, fun hok => by cases hok⟩)
    fun _ => ?_
  have hswap := wal.touch.2.swaps_truncate path offset
  rw [wal.touch_files] at hswap
  obtain ⟨hthrough, hfiles⟩ := changes_swap hswap hopened.files hnew
  exact ⟨hopened.trans hthrough, hfiles⟩

end Changes

/-- A directory that is read as a log, and mended. -/
structure Readable (id : Uuid) (start : ℕ) (log : List Entry) (files : Dir Bytes)
    (reads : List (ℕ × SegmentRead)) : Prop where
  readLog : readLog id files = .ok reads
  named : Partition.Named start reads
  entries : entriesRead reads = log
  empty : reads = [] → start = 1 ∧ files.files = []
  mended (wal : Device) : wal.files = files → Mended id start log wal (repair wal (tornOf none reads))

theorem Mended.of_changes {wal : Device} {out : Except WalError Unit × Device}
    (hout : Changes (Remains id start log) wal files out) (hholds : Wal.Holds id start log files)
    (hground : files.files = [] → start = 1) : Mended id start log wal out where
  through := hout.1
  holds hok := by
    rw [hout.2 hok]
    exact hholds
  grounded hok hempty := by
    rw [hout.2 hok] at hempty
    exact hground hempty

theorem Mended.of_holds {wal : Device} (hholds : Wal.Holds id start log wal.files)
    (hground : wal.files.files = [] → start = 1) : Mended id start log wal (repair wal none) :=
  .of_changes ⟨.unchanged (hholds.remains hground) rfl rfl, fun _ => rfl⟩ hholds hground

/-- What remains is read as the log, and mended. -/
theorem Remains.readable (h : Remains id start log files) :
    ∃ reads, Readable id start log files reads := by
  cases h with
  | none hstart hlog hfiles =>
    subst hstart hlog
    refine ⟨[], ?_, trivial, rfl, fun _ => ⟨rfl, hfiles⟩, fun wal hwal => ?_⟩
    · rw [readLog, hfiles]
      rfl
    · exact .of_holds ⟨[], trivial, rfl, hwal ▸ hfiles⟩ fun _ => rfl
  | @torn init first es tail hchain hentries hunreadable hfiles =>
    have hread := (Wal.readSegment_torn_iff hchain.last_wellFormed id tail).2 hunreadable
    refine ⟨_, readLog_concat (Wal.chain_append.1 hchain).1 hfiles hread, ?_, ?_, ?_, fun wal hwal => ?_⟩
    · refine Partition.named_append.2 ⟨named_readsOf (Wal.chain_append.1 hchain).1, ?_, trivial⟩
      rw [entriesRead_readsOf]
      exact hchain.eq_of_last
    · rw [entriesRead_append, entriesRead_readsOf, ← hentries, Wal.entriesOf_append]
      rfl
    · intro hnil
      simp at hnil
    · subst hwal
      rw [tornOf_append tornTail_readsOf, Wal.tornTailOf]
      split
      · rename_i hnil
        rw [hnil, List.append_nil] at hfiles
        refine .of_holds ⟨_, hchain, hentries, ?_⟩ fun hempty => by simp [hfiles] at hempty
        rw [hfiles, Wal.filesOf_append, Wal.filesOf_singleton]
      · have hcut := Dir.files_modify_last (f := (·.take (segmentBytes id first es).length)) hfiles
        rw [List.take_left] at hcut
        have hholds : Wal.Holds id start log (wal.files.modify first
            (·.take (segmentBytes id first es).length)) := by
          refine ⟨_, hchain, hentries, ?_⟩
          rw [hcut, Wal.filesOf_append, Wal.filesOf_singleton]
        have hground (hempty : (wal.files.modify first
            (·.take (segmentBytes id first es).length)).files = []) : start = 1 := by
          simp [hcut] at hempty
        have hlong : Wal.headerLen ≤ (segmentBytes id first es).length := by simp [segmentBytes]
        have hstay : Remains id start log wal.files := .torn hchain hentries hunreadable hfiles
        exact .of_changes (changes_truncate hlong hstay (hholds.remains hground)) hholds hground
  | @blank segs piece hchain hentries hblank hground hfiles =>
    refine ⟨_, readLog_concat hchain hfiles (readSegment_blank hblank), ?_, ?_, ?_, fun wal hwal => ?_⟩
    · refine Partition.named_append.2 ⟨named_readsOf hchain, ?_, trivial⟩
      rw [entriesRead_readsOf, hentries]
    · rw [entriesRead_append, entriesRead_readsOf, hentries]
      exact List.append_nil log
    · intro hnil
      simp at hnil
    · subst hwal
      rw [tornOf_append tornTail_readsOf]
      have hcut := Dir.files_erase_last hfiles
      have hholds : Wal.Holds id start log (wal.files.erase (start + log.length)) :=
        ⟨_, hchain, hentries, hcut⟩
      have hnone (hempty : (wal.files.erase (start + log.length)).files = []) : start = 1 := by
        rw [hcut] at hempty
        exact hground (List.map_eq_nil_iff.1 hempty)
      have hstay : Remains id start log wal.files := .blank hchain hentries hblank hground hfiles
      have hshort : 0 < Wal.headerLen := by decide
      exact .of_changes (changes_remove hshort hstay (hholds.remains hnone)) hholds hnone

/-! ## Recovering -/

namespace Partition

variable {config : PartitionConfig} {metric : Metric} {o : Origin} {ledger es : List Entry}
  {base p p' : Partition} {snap wal : Dir Bytes} {reads : List (ℕ × SegmentRead)}

omit [Digests] in
/-- Nothing that follows a log depends on the writer, the budget or the failpoint. -/
theorem Follows.frame (h : p.Follows o es) (hsame : p.SameState p')
    (hids : p'.idempotency = p.idempotency) : p'.Follows o es where
  highWater := hsame.highWater.trans h.highWater
  contents := by
    rw [hsame.config.metric, ← h.contents]
    refine contents_congr hsame.slots hsame.keyTable ?_
    rw [hsame.index]
  window := by
    rw [hids, hsame.config.config]
    exact h.window
  capacity := by
    rw [hids, hsame.config.config]
    exact h.capacity
  rep := hsame.rep h.rep
  versioned := hsame.versioned h.versioned
  topped := by
    rw [hsame.index]
    exact h.topped
  sized := h.sized.congr hsame.slots hsame.keyTable

/-- The snapshots of a partition: each holds the state behind some entry of the ledger, and the first
segment that is left continues one of them. -/
structure Rooted (config : PartitionConfig) (o : Origin) (ledger : List Entry) (start : ℕ)
    (snap : Dir Bytes) : Prop where
  image (n : ℕ) (bytes : Bytes) : (n, bytes) ∈ snap.files →
    n ≤ ledger.length ∧ Image config o (ledger.take n) bytes
  covered : start = 1 ∨ ∃ n ∈ snap.names, start ≤ n + 1
  origin : snap.files = [] → o = ⟨[], 0⟩ ∧ config.baseSnapshot = false

/-- Where recovery starts. -/
structure Starting (config : PartitionConfig) (metric : Metric) (o : Origin) (ledger : List Entry)
    (start : ℕ) (snap : Dir Bytes) (base : Partition) : Prop where
  found : Base config metric snap base
  follows : base.Follows o (ledger.take base.highWater)
  reached : base.highWater ≤ ledger.length
  continued : start ≤ base.highWater + 1
  sameConfig : base.config = config
  mark : base.snapshotHighWater = base.highWater
  named : base.highWater = 0 ∨ base.highWater ∈ snap.names

theorem Rooted.starting (h : Rooted config o ledger start snap) (hvalid : config.validate = .ok ())
    (hmetric : config.metricOf = .ok metric) (hroom : o.count + ledger.length < 2 ^ 32)
    (hseq : ∀ e ∈ ledger, e.seq < 2 ^ 64) :
    ∃ base, Starting config metric o ledger start snap base := by
  rcases List.eq_nil_or_concat snap.files with hnil | ⟨init, ⟨n, bytes⟩, hfiles⟩
  · obtain ⟨rfl, hbase⟩ := h.origin hnil
    refine ⟨empty config metric, .empty (by rw [hnil]; rfl) hbase, ?_, Nat.zero_le _, ?_, rfl, rfl,
      .inl rfl⟩
    · exact follows_empty hvalid hmetric
    · rcases h.covered with rfl | ⟨n, hn, -⟩
      · exact le_rfl
      · rw [Dir.names, hnil] at hn
        cases hn
  · rw [List.concat_eq_append] at hfiles
    have hmem : (n, bytes) ∈ snap.files := by
      rw [hfiles]
      exact List.mem_append_right _ List.mem_cons_self
    obtain ⟨hn, himage⟩ := h.image n bytes hmem
    have hlen : (ledger.take n).length = n := by rw [List.length_take, Nat.min_eq_left hn]
    obtain ⟨s, p, hload, -, hof, hfollows, hconfig, hmark⟩ := himage.loads hmetric (by omega)
      fun e he => hseq e (List.mem_of_mem_take he)
    have hhigh := hfollows.highWater
    rw [hlen] at hhigh hmark
    refine ⟨p, ?_, ?_, ?_, ?_, hconfig, hmark.trans hhigh.symm,
      .inr (hhigh ▸ Dir.mem_names.2 ⟨bytes, hmem⟩)⟩
    · have hnewest : (newestSnapshot config.id snap.files.reverse).1 = some (n, s) := by
        rw [hfiles, List.reverse_append, List.reverse_singleton, List.singleton_append, newestSnapshot,
          hload]
      exact .snapshot hnewest hof
    · rwa [hhigh]
    · rwa [hhigh]
    · rw [hhigh]
      rcases h.covered with rfl | ⟨m, hm, hle⟩
      · exact Nat.succ_le_succ (Nat.zero_le n)
      · obtain ⟨content, hm⟩ := Dir.mem_names.1 hm
        rw [hfiles] at hm
        rcases List.mem_append.1 hm with hm | hm
        · have := Dir.lt_of_files_eq hfiles hm
          omega
        · rw [List.mem_singleton] at hm
          cases hm
          exact hle

/-- Recovery from where it starts. -/
theorem recover_eq (wal : Dir Bytes) (hvalid : config.validate = .ok ())
    (hmetric : config.metricOf = .ok metric) (hbase : Base config metric snap base) :
    ∃ found, found.snapshotHighWater = markOf config snap ∧ found.tornTailFound = none ∧
      recover (some config) wal snap = (do
        let replay ← (enumerate wal.files).foldlM (replaySegment config.id (wal.files.length - 1))
          ⟨base, found, decide (base.highWater = 0 ∧ wal.files = []), none⟩
        if !replay.sawHistory || replay.walEnd.any (· < replay.report.snapshotHighWater) then
          .error (.missingHistory replay.report.snapshotHighWater (wal.files.head?.map Prod.fst))
        else return (replay.partition,
          { replay.report with highWater := replay.partition.highWater })) := by
  unfold recover markOf
  simp only [hvalid, hmetric, ok_bind]
  cases hbase with
  | snapshot hnewest hof =>
    generalize newestSnapshot config.id snap.files.reverse = newest at hnewest
    obtain ⟨loaded, rejected⟩ := newest
    obtain rfl : loaded = _ := hnewest
    simp only [hof, ok_bind]
    exact ⟨_, rfl, rfl, rfl⟩
  | empty hnewest hbase =>
    generalize newestSnapshot config.id snap.files.reverse = newest at hnewest
    obtain ⟨loaded, rejected⟩ := newest
    obtain rfl : loaded = _ := hnewest
    simp only [hbase, Bool.false_eq_true, if_false]
    exact ⟨_, rfl, rfl, rfl⟩

/-- What recovery makes of a directory that survived: the state behind the whole ledger. -/
structure Recovers (config : PartitionConfig) (o : Origin) (ledger : List Entry) (wal snap : Dir Bytes)
    (reads : List (ℕ × SegmentRead)) (p : Partition) : Prop where
  recovers : ∃ report, recover (some config) wal snap = .ok (p, report) ∧
    report.tornTailFound = tornOf none reads
  follows : p.Follows o ledger
  bounded : p.snapshotHighWater = 0 ∨ p.snapshotHighWater ∈ snap.names

theorem Starting.recovers (h : Starting config metric o ledger start snap base)
    (hvalid : config.validate = .ok ()) (hmetric : config.metricOf = .ok metric)
    (hl : Ledger config ledger) (hroom : o.count + ledger.length < 2 ^ 32) (hpos : 0 < start)
    (hreads : Readable config.id start (ledger.drop (start - 1)) wal reads) :
    ∃ p, Recovers config o ledger wal snap reads p := by
  obtain ⟨found, hmark, htorn, hrecover⟩ := recover_eq wal hvalid hmetric h.found
  have hconfig : base.Configured config := by
    unfold Configured
    rw [h.sameConfig]
  have hend : start - 1 + (entriesRead reads).length = ledger.length := by
    have := h.continued
    have := h.reached
    rw [hreads.entries, List.length_drop]
    omega
  have hpiece : entriesRead reads <+: ledger.drop (start - 1) := by rw [hreads.entries]
  have hfollows :
      (Replay.mk base found (decide (base.highWater = 0 ∧ wal.files = [])) none).partition.Follows o
        (ledger.take base.highWater) := h.follows
  obtain ⟨out, hfold, hto, hseen, hnil⟩ :=
    hfollows.replay_reads hl hconfig hroom h.reached hpos h.continued hreads.named hpiece
  have hreached := reached_of_replayReads hfold
  have hsegments := replaySegments_eq_ok.2 ⟨reads, hreads.readLog, hfold⟩
  rw [hend, Nat.max_eq_right h.reached] at hto
  have hfollows := hto.follows
  rw [List.take_length] at hfollows
  have hout : out.report.snapshotHighWater = base.highWater := by
    rw [hreached.mark, hmark, h.found.highWater]
  have hchecked : out.sawHistory = true ∧
      out.walEnd.any (· < out.report.snapshotHighWater) = false := by
    by_cases hne : reads = []
    · obtain ⟨rfl, hempty⟩ := hreads.empty hne
      obtain rfl := hnil hne
      have hzero : base.highWater = 0 := by
        have := h.reached
        have hlen : (entriesRead reads).length = 0 := by
          rw [hne]
          rfl
        omega
      exact ⟨decide_eq_true ⟨hzero, hempty⟩, rfl⟩
    · obtain ⟨hsaw, seen, hwalEnd, hle⟩ := hseen hne
      refine ⟨hsaw, ?_⟩
      have := h.reached
      rw [hwalEnd, hout, Option.any_some, decide_eq_false_iff_not]
      omega
  refine ⟨out.partition, ⟨{ out.report with highWater := out.partition.highWater }, ?_, ?_⟩, hfollows,
    ?_⟩
  · rw [hrecover, hsegments, ok_bind, hchecked.1, hchecked.2]
    rfl
  · show out.report.tornTailFound = _
    rw [hreached.torn, htorn]
  · rw [hto.steady.snapshotHighWater, h.mark]
    exact h.named

/-! ## Opening -/

/-- The outcomes of opening a directory that survived: the log remains at every moment, a partition that
opens serves what the ledger leaves and writes behind it, and a reliable device opens. -/
structure Opened (config : PartitionConfig) (o : Origin) (ledger : List Entry) (start : ℕ) (d : Disk)
    (out : Except PartitionError (Partition × RecoveryReport) × Disk) : Prop where
  snap : out.2.snap = d.snap
  manifest : out.2.manifest = d.manifest
  through : d.wal.Through (Remains config.id start (ledger.drop (start - 1))) out.2.wal
  ok (p : Partition) (report : RecoveryReport) : out.1 = .ok (p, report) → p.Follows o ledger ∧
    p.config = config ∧ (p.snapshotHighWater = 0 ∨ p.snapshotHighWater ∈ d.snap.files.names) ∧
    ∃ w, p.wal = some w ∧ Standing config.id start (ledger.drop (start - 1)) w out.2.wal.files
  exists_ok : d.wal.faults = [] → ∃ p report, out.1 = .ok (p, report)

theorem open_of_not_repaired {d : Disk} {report : RecoveryReport} {wal' : Device} {e : WalError}
    (hmanifest : d.manifest = some config)
    (hok : recover (some config) d.wal.files d.snap.files = .ok (p, report))
    (hrepair : repair d.wal report.tornTailFound = (.error e, wal')) :
    «open» d = (.error (.wal e), { d with wal := wal' }) := by
  unfold «open»
  rw [hmanifest, hok]
  dsimp only
  cases htorn : report.tornTailFound with
  | none =>
    rw [htorn] at hrepair
    cases hrepair
  | some found =>
    rw [htorn] at hrepair
    simp only [repair] at hrepair
    dsimp only
    rw [hrepair]

theorem Rooted.opened {d : Disk} (h : Rooted config o ledger start d.snap.files)
    (hvalid : config.validate = .ok ()) (hmetric : config.metricOf = .ok metric)
    (hmanifest : d.manifest = some config) (hl : Ledger config ledger)
    (hroom : o.count + ledger.length < 2 ^ 32) (hpos : 0 < start)
    (hremains : Remains config.id start (ledger.drop (start - 1)) d.wal.files) :
    Opened config o ledger start d («open» d) := by
  obtain ⟨base, hbase⟩ := h.starting hvalid hmetric hroom hl.seq_lt
  obtain ⟨reads, hreads⟩ := Remains.readable hremains
  obtain ⟨p, ⟨report, hrecover, htorn⟩, hfollows, hbounded⟩ :=
    hbase.recovers hvalid hmetric hl hroom hpos hreads
  have hlast : start + (ledger.drop (start - 1)).length = p.highWater + 1 := by
    have := hbase.continued
    have := hbase.reached
    rw [hfollows.highWater, List.length_drop]
    omega
  have hhigh : p.highWater + 1 < 2 ^ 64 := by
    rw [hfollows.highWater]
    omega
  have hmended := hreads.mended d.wal rfl
  rw [← htorn] at hmended
  have hreliable (hfaults : d.wal.faults = []) :
      ∃ wal', repair d.wal report.tornTailFound = (.ok (), wal') ∧ wal'.faults = [] := by
    obtain ⟨wal', hrepair, hfaults', -⟩ := repaired_of_readLog hfaults hreads.readLog
    exact ⟨wal', by rw [htorn]; exact hrepair, hfaults'⟩
  cases hrepair : repair d.wal report.tornTailFound with
  | mk result wal' =>
    rw [hrepair] at hmended hreliable
    cases result with
    | error e =>
      rw [open_of_not_repaired hmanifest hrecover hrepair]
      refine ⟨rfl, rfl, hmended.through, (fun p report hok => by cases hok), fun hfaults => ?_⟩
      obtain ⟨wal', hok, -⟩ := hreliable hfaults
      cases hok
    | ok _ =>
      rw [open_eq hmanifest hrecover hrepair]
      obtain ⟨hthrough, hstanding⟩ :=
        Wal.open_remains (hmended.holds rfl) (hmended.grounded rfl) hlast hhigh
      have hexists (hfaults : d.wal.faults = []) :
          ∃ w d', WalWriter.open wal' config.id p.highWater = (.ok w, d') := by
        obtain ⟨_, hok, hfaults'⟩ := hreliable hfaults
        cases hok
        exact Wal.exists_open hfaults' (hmended.holds rfl) hlast hhigh
      have hthrough := hmended.through.trans hthrough
      dsimp only at hthrough hstanding hexists ⊢
      generalize WalWriter.open wal' config.id p.highWater = opened at hthrough hstanding hexists
      obtain ⟨result, wal''⟩ := opened
      cases result with
      | error e =>
        refine ⟨rfl, rfl, hthrough, (fun p report hok => by cases hok), fun hfaults => ?_⟩
        obtain ⟨w, wal', hopen⟩ := hexists hfaults
        cases hopen
      | ok w =>
        refine ⟨rfl, rfl, hthrough, fun p' report' hok => ?_, fun _ => ⟨_, _, rfl⟩⟩
        cases hok
        refine ⟨hfollows.frame (sameState_of_eq rfl) rfl, (same_of_recover hrecover).1, hbounded,
          w, rfl, hstanding w rfl⟩

end Partition

end

end Index

end DistrHnsw
