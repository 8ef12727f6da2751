import DistrHnsw.Partition.Rebuilt
import DistrHnsw.Wal.Chain

/-!
# The history that recovery accepts

Replay compares the number of an entry with the mark it has reached, and the mark only moves to a
number that was seen.  So the log of an accepted directory is `Gapless` above the snapshot, and the
recovered mark is the highest number there is (`reach`); what is at or below the mark is skipped
without a look at its neighbours.
-/

namespace DistrHnsw

namespace Index

open Wal (Entry SegmentRead WalError readSegment)

/-! ## Marks -/

/-- The highest of a mark and the numbers of some entries. -/
def reach (mark : ℕ) (es : List Entry) : ℕ := es.foldl (fun high e => max high e.seq) mark

/-- No entry is more than one above everything before it. -/
def Gapless : ℕ → List Entry → Prop
  | _, [] => True
  | mark, e :: es => e.seq ≤ mark + 1 ∧ Gapless (max mark e.seq) es

/-- Each entry is numbered one above the one before. -/
def Consecutive (es : List Entry) : Prop := es.IsChain fun e e' => e'.seq = e.seq + 1

section Marks

variable {mark : ℕ} {e : Entry} {es fs : List Entry}

@[simp] theorem reach_nil : reach mark [] = mark := rfl

@[simp] theorem reach_cons : reach mark (e :: es) = reach (max mark e.seq) es := rfl

@[simp] theorem reach_append : reach mark (es ++ fs) = reach (reach mark es) fs :=
  List.foldl_append

theorem reach_eq_max : reach mark es = max mark (reach 0 es) := by
  induction es generalizing mark with
  | nil => simp
  | cons e es ih =>
    rw [reach_cons, ih, reach_cons, @ih (max 0 e.seq)]
    omega

theorem le_reach : mark ≤ reach mark es := by
  rw [reach_eq_max]
  exact le_max_left _ _

theorem seq_le_reach (h : e ∈ es) : e.seq ≤ reach mark es := by
  obtain ⟨front, back, rfl⟩ := List.append_of_mem h
  rw [reach_append, reach_cons]
  exact (le_max_right _ _).trans le_reach

theorem reach_le {bound : ℕ} (hmark : mark ≤ bound) (h : ∀ e ∈ es, e.seq ≤ bound) :
    reach mark es ≤ bound := by
  induction es generalizing mark with
  | nil => exact hmark
  | cons e es ih =>
    apply ih
    · exact max_le hmark (h e List.mem_cons_self)
    · exact fun x hx => h x (List.mem_cons_of_mem _ hx)

theorem gapless_append : Gapless mark (es ++ fs) ↔ Gapless mark es ∧ Gapless (reach mark es) fs := by
  induction es generalizing mark with
  | nil => simp [Gapless]
  | cons e es ih => simp only [List.cons_append, Gapless, ih, reach_cons, and_assoc]

/-- A run of consecutive entries reaches its last one. -/
theorem Consecutive.reach (h : Consecutive es) (hlast : es.getLast? = some e) :
    reach mark es = max mark e.seq := by
  induction es generalizing mark with
  | nil => cases hlast
  | cons x es ih =>
    cases es with
    | nil =>
      cases hlast
      rfl
    | cons y es =>
      obtain ⟨hxy, htail⟩ := List.isChain_cons_cons.1 h
      rw [reach_cons, ih htail (by simpa using hlast)]
      have hle : y.seq ≤ Index.reach 0 (y :: es) := seq_le_reach List.mem_cons_self
      rw [ih htail (by simpa using hlast)] at hle
      omega

end Marks

/-! ## Reading every segment -/

section Read

variable [Digests] {id : Uuid} {newest : ℕ}

/-- Read one segment; only the newest may end in a torn tail. -/
def readAt (id : Uuid) (newest : ℕ) (segment : ℕ × ℕ × Bytes) : Except WalError (ℕ × SegmentRead) :=
  (readSegment segment.2.1 segment.2.2 id (segment.1 == newest)).map fun read =>
    (segment.2.1, read)

/-- What the segments of a directory hold, in order of name. -/
def readLog (id : Uuid) (wal : Dir Bytes) : Except WalError (List (ℕ × SegmentRead)) :=
  (enumerate wal.files).mapM (readAt id (wal.files.length - 1))

omit [Digests] in
/-- The entries of all segments in order. -/
def entriesRead (log : List (ℕ × SegmentRead)) : List Entry :=
  log.flatMap fun segment => segment.2.entries

omit [Digests] in
/-- The torn tail of the last segment that has one; `found` when none has. -/
def tornOf (found : Option (ℕ × ℕ)) (log : List (ℕ × SegmentRead)) : Option (ℕ × ℕ) :=
  log.foldl (fun found segment => match segment.2.tornTail with
    | some (offset, _) => some (segment.1, offset)
    | none => found) found

omit [Digests] in
@[simp] theorem entriesRead_append (log log' : List (ℕ × SegmentRead)) :
    entriesRead (log ++ log') = entriesRead log ++ entriesRead log' := List.flatMap_append

/-- Intact segments are read as what they hold, also when they are only the first ones. -/
theorem mapM_readAt_filesOf {segs : List (ℕ × List Entry)}
    (hwell : ∀ seg ∈ segs, Wal.WellFormed seg.1 seg.2) (newest start : ℕ) :
    (((Wal.filesOf id segs).zipIdx start).map fun (file, i) => (i, file)).mapM (readAt id newest) =
      .ok (segs.map fun seg => (seg.1, ⟨seg.2, none⟩)) := by
  induction segs generalizing start with
  | nil => rfl
  | cons seg segs ih =>
    have hseg := Wal.readSegment_segmentBytes (hwell seg List.mem_cons_self) id (start == newest)
    have hsegs := ih (fun x hx => hwell x (List.mem_cons_of_mem _ hx)) (start + 1)
    rw [Wal.filesOf, List.map_cons, List.zipIdx_cons, List.map_cons, List.mapM_cons]
    simp only [readAt, hseg, Except.map, ok_bind]
    rw [Wal.filesOf] at hsegs
    rw [hsegs]
    rfl

theorem readLog_filesOf {wal : Dir Bytes} {segs : List (ℕ × List Entry)}
    (hwell : ∀ seg ∈ segs, Wal.WellFormed seg.1 seg.2) (hfiles : wal.files = Wal.filesOf id segs) :
    readLog id wal = .ok (segs.map fun seg => (seg.1, ⟨seg.2, none⟩)) := by
  rw [readLog, hfiles]
  exact mapM_readAt_filesOf hwell _ 0

end Read

/-! ## Replaying -/

namespace Partition

variable {p p' : Partition}

/-- Applying an entry changes the records, the window and the mark, and nothing else. -/
theorem eq_of_apply {entry : Entry} (hok : p.apply entry = .ok p') :
    p' = { p with
      index := p'.index, keyTable := p'.keyTable, keys := p'.keys, slots := p'.slots
      idempotency := p.idempotency.record entry.opId entry.seq
      highWater := entry.seq } := by
  unfold apply at hok
  cases hoperation : entry.operation with
  | upsert key payload vector =>
    simp only [hoperation] at hok
    obtain ⟨q, hq, hok⟩ := bind_eq_ok.1 hok
    cases hok
    unfold applyUpsert at hq
    obtain ⟨-, hq⟩ := guard_eq_ok.1 hq
    obtain ⟨inserted, -, hq⟩ := bind_eq_ok.1 hq
    cases hprevious : p.slotForKey key with
    | none =>
      rw [hprevious] at hq
      cases hq
      rfl
    | some previous =>
      rw [hprevious] at hq
      obtain ⟨out, -, hq⟩ := bind_eq_ok.1 hq
      cases hq
      rfl
  | delete key =>
    simp only [hoperation] at hok
    obtain ⟨q, hq, hok⟩ := bind_eq_ok.1 hok
    cases hok
    unfold applyDelete at hq
    split at hq
    · obtain ⟨out, -, hq⟩ := bind_eq_ok.1 hq
      cases hq
      rfl
    · cases hq
      rfl

theorem same_of_apply {entry : Entry} (hok : p.apply entry = .ok p') :
    p'.highWater = entry.seq ∧ p'.config = p.config ∧ p'.wal = p.wal ∧
      p'.failpoint = p.failpoint := by
  rw [eq_of_apply hok]
  exact ⟨rfl, rfl, rfl, rfl⟩

/-- What replaying some entries leaves. -/
structure Reached (mark : ℕ) (es : List Entry) (out : Partition × RecoveryReport)
    (found : RecoveryReport) : Prop where
  gapless : Gapless mark es
  highWater : out.1.highWater = reach mark es
  mark : out.2.snapshotHighWater = found.snapshotHighWater
  torn : out.2.tornTailFound = found.tornTailFound

/-- Replay checks every entry against the mark reached so far. -/
theorem reached_of_foldlM {path : ℕ} {state out : Partition × RecoveryReport} {es : List Entry}
    (hok : es.foldlM (replayEntry path) state = .ok out) :
    Reached state.1.highWater es out state.2 := by
  induction es generalizing state with
  | nil =>
    cases hok
    exact ⟨trivial, rfl, rfl, rfl⟩
  | cons e es ih =>
    rw [List.foldlM_cons] at hok
    obtain ⟨next, hstep, hok⟩ := bind_eq_ok.1 hok
    have hnext := ih hok
    unfold replayEntry at hstep
    dsimp only at hstep
    split at hstep
    case isTrue hskip =>
      cases hstep
      have hmax : max state.1.highWater e.seq = state.1.highWater := max_eq_left hskip
      refine ⟨⟨by omega, ?_⟩, ?_, hnext.mark, hnext.torn⟩
      · rw [hmax]
        exact hnext.gapless
      · rw [reach_cons, hmax]
        exact hnext.highWater
    case isFalse hskip =>
      obtain ⟨hseq, hstep⟩ := guard_eq_ok.1 hstep
      obtain ⟨q, happly, hstep⟩ := bind_eq_ok.1 hstep
      cases hstep
      have hmax : max state.1.highWater e.seq = q.highWater := by
        rw [(same_of_apply happly).1]
        omega
      refine ⟨⟨by omega, ?_⟩, ?_, hnext.mark, hnext.torn⟩
      · rw [hmax]
        exact hnext.gapless
      · rw [reach_cons, hmax]
        exact hnext.highWater

section Segments

/-- Replay the entries of one segment that was read. -/
def replayRead (state : Replay) (segment : ℕ × SegmentRead) : Except PartitionError Replay := do
  let (first, read) := segment
  let report := { state.report with walSegmentsRead := state.report.walSegmentsRead + 1 }
  let report := match read.tornTail with
    | some (offset, _) => { report with tornTailFound := some (first, offset) }
    | none => report
  let sawHistory := state.sawHistory || decide (first ≤ succ64 state.partition.highWater)
  let end_ := read.lastSeq.getD (first - 1)
  let walEnd := some (match state.walEnd with | none => end_ | some seen => max seen end_)
  let (partition, report) ← read.entries.foldlM (replayEntry first) (state.partition, report)
  return ⟨partition, report, sawHistory, walEnd⟩

variable [Digests] {id : Uuid} {newest : ℕ} {state out : Replay}

omit [Digests] in
/-- What replaying some segments leaves. -/
structure ReachedLog (log : List (ℕ × SegmentRead)) (state out : Replay) : Prop where
  gapless : Gapless state.partition.highWater (entriesRead log)
  highWater : out.partition.highWater = reach state.partition.highWater (entriesRead log)
  mark : out.report.snapshotHighWater = state.report.snapshotHighWater
  torn : out.report.tornTailFound = tornOf state.report.tornTailFound log

theorem replaySegment_eq_ok {segment : ℕ × ℕ × Bytes} :
    replaySegment id newest state segment = .ok out ↔
      ∃ read, readAt id newest segment = .ok read ∧ replayRead state read = .ok out := by
  obtain ⟨position, first, bytes⟩ := segment
  cases hread : readSegment first bytes id (position == newest) with
  | error e => simp [replaySegment, readAt, hread, Except.mapError, Except.map]
  | ok read =>
    simp only [replaySegment, readAt, hread, Except.mapError, Except.map, ok_bind,
      Except.ok.injEq, exists_eq_left']
    rfl

/-- Replay reads every segment first. -/
theorem replaySegments_eq_ok {segments : List (ℕ × ℕ × Bytes)} :
    segments.foldlM (replaySegment id newest) state = .ok out ↔
      ∃ log, segments.mapM (readAt id newest) = .ok log ∧ log.foldlM replayRead state = .ok out := by
  induction segments generalizing state with
  | nil => simp [pure, Except.pure]
  | cons segment segments ih =>
    simp only [List.foldlM_cons, List.mapM_cons, bind_eq_ok, replaySegment_eq_ok, ih, pure_eq_ok,
      Except.ok.injEq]
    constructor
    · rintro ⟨next, ⟨read, hread, hstep⟩, log, hlog, hrest⟩
      refine ⟨read :: log, ⟨read, hread, log, hlog, rfl⟩, ?_⟩
      rw [List.foldlM_cons, hstep]
      exact hrest
    · rintro ⟨_, ⟨read, hread, log, hlog, rfl⟩, hok⟩
      rw [List.foldlM_cons] at hok
      obtain ⟨next, hstep, hrest⟩ := bind_eq_ok.1 hok
      exact ⟨next, ⟨read, hread, hstep⟩, log, hlog, hrest⟩

omit [Digests] in
theorem reached_of_replayRead {segment : ℕ × SegmentRead}
    (hok : replayRead state segment = .ok out) : ReachedLog [segment] state out := by
  obtain ⟨first, read⟩ := segment
  unfold replayRead at hok
  obtain ⟨⟨q, report⟩, hentries, hok⟩ := bind_eq_ok.1 hok
  cases hok
  have hreached := reached_of_foldlM hentries
  refine ⟨?_, ?_, ?_, ?_⟩
  · simpa [entriesRead] using hreached.gapless
  · simpa [entriesRead] using hreached.highWater
  · rw [hreached.mark]
    cases read.tornTail <;> rfl
  · rw [hreached.torn]
    show _ = match read.tornTail with
      | some (offset, _) => some (first, offset)
      | none => state.report.tornTailFound
    cases read.tornTail <;> rfl

omit [Digests] in
/-- Replay takes the entries of all segments one after the other. -/
theorem reached_of_replayReads {log : List (ℕ × SegmentRead)}
    (hok : log.foldlM replayRead state = .ok out) : ReachedLog log state out := by
  induction log generalizing state with
  | nil =>
    cases hok
    exact ⟨trivial, rfl, rfl, rfl⟩
  | cons segment log ih =>
    rw [List.foldlM_cons] at hok
    obtain ⟨next, hstep, hok⟩ := bind_eq_ok.1 hok
    have hfirst := reached_of_replayRead hstep
    have hrest := ih hok
    refine ⟨?_, ?_, ?_, ?_⟩
    · rw [← List.singleton_append, entriesRead_append, gapless_append, ← hfirst.highWater]
      exact ⟨hfirst.gapless, hrest.gapless⟩
    · rw [← List.singleton_append, entriesRead_append, reach_append, ← hfirst.highWater]
      exact hrest.highWater
    · exact hrest.mark.trans hfirst.mark
    · rw [hrest.torn, hfirst.torn]
      rfl

end Segments

/-- What an accepted directory holds: a log that continues the snapshot without a gap, and the mark
it reaches. -/
theorem log_of_recover [Digests] {config : PartitionConfig} {wal snap : Dir Bytes}
    {report : RecoveryReport} (hok : recover (some config) wal snap = .ok (p, report)) :
    ∃ log, readLog config.id wal = .ok log ∧ Gapless (markOf config snap) (entriesRead log) ∧
      p.highWater = reach (markOf config snap) (entriesRead log) ∧
      report.tornTailFound = tornOf none log ∧ report.highWater = p.highWater := by
  obtain ⟨base, found, replay, h⟩ := recovered_of_recover hok
  obtain ⟨metric, -, hbase⟩ := h.starts
  obtain ⟨log, hlog, hreplayed⟩ := replaySegments_eq_ok.1 h.replayed
  have hreached := reached_of_replayReads hreplayed
  have hgapless := hreached.gapless
  have hhigh := hreached.highWater
  have htorn := hreached.torn
  dsimp only at hgapless hhigh htorn
  rw [hbase.highWater] at hgapless hhigh
  rw [h.torn] at htorn
  refine ⟨log, hlog, hgapless, ?_, ?_, ?_⟩
  · rw [h.partition, hhigh]
  · rw [h.report]
    exact htorn
  · rw [h.report]

/-- A log that the empty state replays is recovered. -/
theorem recover_of_replayReads [Digests] {config : PartitionConfig} {metric : Metric}
    {wal : Dir Bytes} {log : List (ℕ × SegmentRead)} {replay : Replay}
    (hvalid : config.validate = .ok ()) (hmetric : config.metricOf = .ok metric)
    (hbase : config.baseSnapshot = false) (hlog : readLog config.id wal = .ok log)
    (hreplay : log.foldlM replayRead ⟨empty config metric,
      ⟨config.id, none, 0, [], 0, 0, 0, [], none, 0⟩, decide (wal.files = []), none⟩ = .ok replay)
    (hhistory : replay.sawHistory = true)
    (hend : replay.walEnd.any (· < replay.report.snapshotHighWater) = false) :
    recover (some config) wal Dir.empty =
      .ok (replay.partition, { replay.report with highWater := replay.partition.highWater }) := by
  have hfold := replaySegments_eq_ok.2 ⟨log, hlog, hreplay⟩
  have hstart : decide ((empty config metric).highWater = 0 ∧ wal.files = []) =
      decide (wal.files = []) := by simp [empty]
  simp only [recover, hvalid, hmetric, ok_bind, Dir.files_empty, List.reverse_nil, newestSnapshot,
    hbase, hstart]
  simp [hfold, hhistory, hend]

end Partition

end Index

end DistrHnsw
