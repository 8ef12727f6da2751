import DistrHnsw.Partition.Reopened

/-!
# A crash during an append

An append that was not synced may leave a piece of its frame, with zeros behind it.  Behind intact
entries that is a torn tail, which opening cuts off, unless a CRC-valid frame starts in it: the key,
the payload and the vector of the entry are the client's, and any of them may hold one.
-/

namespace DistrHnsw

namespace Index

open Wal (Entry Operation SegmentRead WellFormed NoValidFrame frameOf readSegment segmentBytes tornTailOf)

/-- A strict prefix of the frame of an entry, and any number of zeros. -/
def Torn [Digests] (e : Entry) (tail : Bytes) : Prop :=
  ∃ piece n, piece <+: frameOf e.body ∧ piece ≠ frameOf e.body ∧ tail = piece ++ List.replicate n 0

/-- Opening gives this state, with a writer. -/
def Opens [Digests] (d : Disk) (p : Partition) : Prop :=
  ∃ writer report d', Partition.open d = (.ok ({ p with wal := some writer }, report), d')

/-- The directory with some more bytes at the end of a segment, on a device that does not fail. -/
def Disk.behind (d : Disk) (first : ℕ) (tail : Bytes) : Disk :=
  { d with wal := .reliable (d.wal.files.modify first (· ++ tail)) }

/-! ## Reading and replaying a torn tail -/

namespace Partition

variable {path first : ℕ} {es : List Entry}

/-- What a replay does to the state does not depend on the torn tails that were found. -/
theorem foldlM_replayEntry_torn (found : Option (ℕ × ℕ)) (p : Partition) (report : RecoveryReport) :
    es.foldlM (replayEntry path) (p, { report with tornTailFound := found }) =
      (es.foldlM (replayEntry path) (p, report)).map fun out =>
        (out.1, { out.2 with tornTailFound := found }) := by
  induction es generalizing p report with
  | nil => rfl
  | cons e es ih =>
    simp only [List.foldlM_cons, replayEntry]
    split
    · exact ih p { report with walEntriesSkipped := report.walEntriesSkipped + 1 }
    · split
      · rfl
      · cases p.apply e with
        | error error => rfl
        | ok q => exact ih q { report with walEntriesReplayed := report.walEntriesReplayed + 1 }

/-- A torn tail only shows in the report. -/
theorem replayRead_torn {state out : Replay} (offset length : ℕ)
    (hok : replayRead state (first, ⟨es, none⟩) = .ok out) :
    replayRead state (first, ⟨es, some (offset, length)⟩) =
      .ok { out with report := { out.report with tornTailFound := some (first, offset) } } := by
  unfold replayRead at hok ⊢
  obtain ⟨⟨q, report⟩, hentries, hok⟩ := bind_eq_ok.1 hok
  cases hok
  have htorn := @foldlM_replayEntry_torn first es (some (first, offset)) state.partition
    { state.report with walSegmentsRead := state.report.walSegmentsRead + 1 }
  dsimp only at hentries htorn ⊢
  rw [hentries] at htorn
  rw [htorn]
  rfl

/-- Recovery reads the log in one place only. -/
theorem recover_relogged [Digests] {config : PartitionConfig} {wal wal' snap : Dir Bytes}
    {p : Partition} {report : RecoveryReport} (hempty : wal'.files = [] ↔ wal.files = [])
    (hreplay : ∀ start out : Replay,
      (enumerate wal.files).foldlM (replaySegment config.id (wal.files.length - 1)) start = .ok out →
        ∃ found,
          (enumerate wal'.files).foldlM (replaySegment config.id (wal'.files.length - 1)) start =
            .ok { out with report := { out.report with tornTailFound := found } })
    (hok : recover (some config) wal snap = .ok (p, report)) :
    ∃ report', recover (some config) wal' snap = .ok (p, report') := by
  -- what follows the base state, whichever it is
  have hend {base : Partition} {start : RecoveryReport}
      (hok : (do
        let replay ← (enumerate wal.files).foldlM (replaySegment config.id (wal.files.length - 1))
          ⟨base, start, decide (base.highWater = 0 ∧ wal.files = []), none⟩
        if !replay.sawHistory || replay.walEnd.any (· < replay.report.snapshotHighWater) then
          .error (.missingHistory replay.report.snapshotHighWater (wal.files.head?.map Prod.fst))
        else return (replay.partition,
          { replay.report with highWater := replay.partition.highWater })) = .ok (p, report)) :
      ∃ report', (do
        let replay ← (enumerate wal'.files).foldlM (replaySegment config.id (wal'.files.length - 1))
          ⟨base, start, decide (base.highWater = 0 ∧ wal'.files = []), none⟩
        if !replay.sawHistory || replay.walEnd.any (· < replay.report.snapshotHighWater) then
          .error (.missingHistory replay.report.snapshotHighWater (wal'.files.head?.map Prod.fst))
        else return (replay.partition,
          { replay.report with highWater := replay.partition.highWater })) = .ok (p, report') := by
    obtain ⟨replay, hfold, hok⟩ := bind_eq_ok.1 hok
    obtain ⟨hcheck, hok⟩ := guard_eq_ok.1 hok
    obtain ⟨found, hfold'⟩ := hreplay _ _ hfold
    cases hok
    simp only [hempty, hfold', ok_bind, if_neg hcheck]
    exact ⟨_, rfl⟩
  unfold recover at hok ⊢
  obtain ⟨hvalid, hok⟩ := check_bind_eq_ok.1 hok
  obtain ⟨metric, hmetric, hok⟩ := bind_eq_ok.1 hok
  simp only [hvalid, hmetric, ok_bind]
  generalize newestSnapshot config.id snap.files.reverse = newest at hok ⊢
  obtain ⟨loaded, rejected⟩ := newest
  cases loaded with
  | none =>
    dsimp only at hok ⊢
    split at hok
    · cases hok
    · rename_i hbase
      rw [if_neg hbase]
      exact hend hok
  | some loaded =>
    dsimp only at hok ⊢
    obtain ⟨base, hbase, hok⟩ := bind_eq_ok.1 hok
    rw [hbase, ok_bind]
    exact hend hok

end Partition

section

variable [Digests] {id : Uuid} {first : ℕ} {es : List Entry} {tail : Bytes} {wal : Dir Bytes}
  {init : List (ℕ × Bytes)}

/-- The newest segment is read with the tail behind it. -/
theorem readLog_behind (hfiles : wal.files = init ++ [(first, segmentBytes id first es)])
    (hes : WellFormed first es) (hnone : NoValidFrame tail) {log : List (ℕ × SegmentRead)}
    (hlog : readLog id wal = .ok log) :
    ∃ older, log = older ++ [(first, ⟨es, none⟩)] ∧ (∀ s ∈ older, s.2.tornTail = none) ∧
      readLog id (wal.modify first (· ++ tail)) =
        .ok (older ++ [(first, ⟨es, tornTailOf (segmentBytes id first es).length tail⟩)]) := by
  have hbehind := Dir.files_modify_last (f := (· ++ tail)) hfiles
  have hread := (Wal.readSegment_torn_iff hes id tail).2 hnone
  have hintact := Wal.readSegment_segmentBytes hes id true
  have hnewest : (init ++ [(first, segmentBytes id first es)]).length - 1 = init.length := by simp
  have hnewest' : (init ++ [(first, segmentBytes id first es ++ tail)]).length - 1 = init.length := by
    simp
  rw [readLog, hfiles, hnewest, enumerate, List.zipIdx_append, List.map_append, List.mapM_append]
    at hlog
  obtain ⟨older, holder, hlog⟩ := bind_eq_ok.1 hlog
  have hsealed : ∀ s ∈ older, s.2.tornTail = none := by
    obtain ⟨files, -, rfl, hfiles⟩ := sealed_of_mapM (by omega) holder
    intro s hs
    obtain ⟨f, hf, rfl⟩ := List.mem_map.1 hs
    exact (hfiles f hf).tornTail
  refine ⟨older, ?_, hsealed, ?_⟩
  · simp only [List.zipIdx_singleton, List.map_cons, List.map_nil, List.mapM_cons, List.mapM_nil,
      readAt, zero_add, beq_self_eq_true, hintact] at hlog
    cases hlog
    rfl
  · rw [readLog, hbehind, hnewest', enumerate, List.zipIdx_append, List.map_append,
      List.mapM_append, holder]
    simp only [List.zipIdx_singleton, List.map_cons, List.map_nil, List.mapM_cons, List.mapM_nil,
      readAt, zero_add, beq_self_eq_true, hread]
    rfl

/-! ## Opening behind a torn tail -/

/-- A partition that opened was recovered, and its newest segment ends at the mark. -/
theorem Opens.recovered {d : Disk} {p : Partition} (h : Opens d p) (hreliable : d.wal.faults = [])
    (hroom : p.highWater + 1 < 2 ^ 64) : ∃ config q report log, d.manifest = some config ∧
      Partition.recover (some config) d.wal.files d.snap.files = .ok (q, report) ∧
      readLog config.id d.wal.files = .ok log ∧ EndsLast (Partition.markOf config d.snap.files) log ∧
      ∀ w : Option Wal.WalWriter, ({ q with wal := w } : Partition) = { p with wal := w } := by
  obtain ⟨writer, opened, d', hopen⟩ := h
  cases hmanifest : d.manifest with
  | none =>
    unfold Partition.open at hopen
    rw [hmanifest] at hopen
    cases hopen
  | some config =>
    cases hrecover : Partition.recover (some config) d.wal.files d.snap.files with
    | error e =>
      unfold Partition.open at hopen
      rw [hmanifest, hrecover] at hopen
      cases hopen
    | ok out =>
      obtain ⟨q, report⟩ := out
      obtain ⟨log, hlog, -, hhigh, htorn, -⟩ := Partition.log_of_recover hrecover
      obtain ⟨wal', hrepair, -, hrepaired⟩ := repaired_of_readLog hreliable hlog
      rw [← htorn] at hrepair
      have heq := Partition.open_eq hmanifest hrecover hrepair
      rw [hopen] at heq
      generalize hwriter : Wal.WalWriter.open wal' config.id q.highWater = result at heq
      obtain ⟨outcome, wal''⟩ := result
      cases outcome with
      | error e => cases heq
      | ok w =>
        simp only [Prod.mk.injEq, Except.ok.injEq] at heq
        have hsame := heq.1.1
        have hmark : q.highWater = p.highWater := (congrArg Partition.highWater hsame).symm
        have hnext := (Wal.WalWriter.of_open hwriter).1
        rw [succ64_of_lt (by rw [hmark]; exact hroom)] at hnext
        rw [hhigh] at hwriter hnext
        refine ⟨config, q, report, log, rfl, hrecover, hlog, endsLast_of_open hrepaired hwriter hnext,
          fun w => ?_⟩
        exact (congrArg (fun s : Partition => { s with wal := w }) hsame).symm

/-- A torn tail does not change what is opened. -/
theorem Opens.behind {d : Disk} {p : Partition} (h : Opens d p) (hreliable : d.wal.faults = [])
    (hroom : p.highWater + 1 < 2 ^ 64)
    (hfiles : d.wal.files.files = init ++ [(first, segmentBytes p.config.id first es)])
    (hes : WellFormed first es) (hnone : NoValidFrame tail) : Opens (d.behind first tail) p := by
  obtain ⟨config, q, report, log, hmanifest, hrecover, hlog, hends, hsame⟩ :=
    h.recovered hreliable hroom
  have hconfig : config = p.config := by
    have heq := congrArg Partition.config (hsame none)
    rw [← (Partition.same_of_recover hrecover).1]
    exact heq
  rw [← hconfig] at hfiles
  obtain ⟨older, rfl, hsealed, hlog'⟩ := readLog_behind hfiles hes hnone hlog
  generalize htail : tornTailOf (segmentBytes config.id first es).length tail = torn at hlog'
  -- the tail only shows in the report
  have hempty : (d.wal.files.modify first (· ++ tail)).files = [] ↔ d.wal.files.files = [] := by
    rw [Dir.files_modify_last hfiles, hfiles]
    simp
  obtain ⟨report', hrecover'⟩ := Partition.recover_relogged hempty (fun start out hfold => by
    obtain ⟨log, hread, hreplay⟩ := Partition.replaySegments_eq_ok.1 hfold
    obtain rfl := Except.ok.inj (hlog.symm.trans hread)
    rw [List.foldlM_append] at hreplay
    obtain ⟨middle, holder, hlast⟩ := bind_eq_ok.1 hreplay
    obtain ⟨last, hstep, hnil⟩ := bind_eq_ok.1 hlast
    cases hnil
    have hdone {out' : Partition.Replay}
        (hlast' : Partition.replayRead middle (first, ⟨es, torn⟩) = .ok out') :
        (enumerate (d.wal.files.modify first (· ++ tail)).files).foldlM
          (Partition.replaySegment config.id
            ((d.wal.files.modify first (· ++ tail)).files.length - 1)) start = .ok out' := by
      refine Partition.replaySegments_eq_ok.2 ⟨_, hlog', ?_⟩
      rw [List.foldlM_append, holder, ok_bind, List.foldlM_cons, hlast']
      rfl
    rcases torn with _ | ⟨offset, length⟩
    · exact ⟨_, hdone hstep⟩
    · exact ⟨_, hdone (Partition.replayRead_torn offset length hstep)⟩) hrecover
  have hstay (t : Option (ℕ × ℕ)) (ht : ∀ cut ∈ t, Wal.headerLen ≤ cut.1) :
      remaining (older ++ [(first, ⟨es, t⟩)]) = older ++ [(first, ⟨es, t⟩)] := by
    rw [remaining_append hsealed, remaining, List.filter_cons_of_pos, List.filter_nil]
    simpa [Option.all_eq_true] using ht
  have hcut : ∀ cut ∈ torn, Wal.headerLen ≤ cut.1 := by
    intro cut hcut
    rw [← htail, tornTailOf] at hcut
    split at hcut
    · cases hcut
    · cases hcut
      simp [segmentBytes]
  have hentries : entriesRead (older ++ [(first, ⟨es, torn⟩)]) =
      entriesRead (older ++ [(first, ⟨es, none⟩)]) := by
    rw [entriesRead_append, entriesRead_append]
    rfl
  have hends' : EndsLast (Partition.markOf config d.snap.files)
      (older ++ [(first, ⟨es, torn⟩)]) := by
    refine ⟨by rw [hentries]; exact hends.room, fun segment hsegment => ?_⟩
    rw [hstay _ hcut, List.getLast?_concat] at hsegment
    cases hsegment
    have hlast := hends.newest (first, ⟨es, none⟩) (by rw [hstay _ (by simp)]; simp)
    rw [hentries]
    exact hlast
  have hreliable' : (d.behind first tail).wal.faults = [] := rfl
  obtain ⟨wal', hrepair, hfaults, hrepaired⟩ := repaired_of_readLog hreliable' hlog'
  obtain ⟨log'', hlog'', -, hhigh, htorn, -⟩ := Partition.log_of_recover hrecover'
  obtain rfl := Except.ok.inj (hlog'.symm.trans hlog'')
  obtain ⟨w, wal'', hwriter, -⟩ := hends'.opens hfaults hrepaired fun segment hsegment =>
    (numbered_of_readLog hlog' hsegment).1
  rw [← htorn] at hrepair
  have hopen := Partition.open_eq (d := d.behind first tail) hmanifest hrecover' hrepair
  rw [← hhigh] at hwriter
  rw [hwriter] at hopen
  dsimp only at hopen
  rw [hsame] at hopen
  exact ⟨w, _, _, hopen⟩

theorem length_of_validFrame {bytes : Bytes} (h : Wal.validFrame bytes = true) :
    36 ≤ bytes.length := by
  unfold Wal.validFrame at h
  split at h
  · cases h
  · rename_i len hlen
    have hmin := (Wal.frameLen_bounds hlen).1
    have hfit : 4 + len ≤ bytes.length := by
      rw [Bool.and_eq_true] at h
      exact of_decide_eq_true h.1
    unfold Wal.minFrameLen at hmin
    omega

theorem noValidFrame_of_short (h : tail.length < 36) : NoValidFrame tail := by
  intro offset
  by_contra hvalid
  have hlen := length_of_validFrame (by simpa using hvalid)
  rw [List.length_drop] at hlen
  omega

/-- A piece of a frame is not a frame. -/
theorem not_validFrame_of_prefix {e : Entry} {piece : Bytes} (h : e.operation.Fits)
    (hpre : piece <+: frameOf e.body) (hne : piece ≠ frameOf e.body) :
    Wal.validFrame piece = false := by
  by_contra hvalid
  rw [Bool.not_eq_false] at hvalid
  obtain ⟨rest, hrest⟩ := hpre
  have hlen := length_of_validFrame hvalid
  have htotal := congrArg List.length hrest
  have hpos : 0 < rest.length := by
    rw [List.length_pos_iff]
    rintro rfl
    exact hne (by simpa using hrest)
  rw [List.length_append, Wal.length_frameOf] at htotal
  have hsame : Wal.frameLen piece = some (e.body.length + 4) := by
    rw [← Wal.frameLen_frameOf [] h, List.append_nil, ← hrest]
    have hlong : ¬ (piece ++ rest).length < 4 := by
      rw [List.length_append]
      omega
    have hshort : ¬ piece.length < 4 := by omega
    simp only [Wal.frameLen, if_neg hlong, if_neg hshort,
      List.take_append_of_le_length (show 4 ≤ piece.length by omega)]
  rw [Wal.validFrame, hsame] at hvalid
  simp only [Bool.and_eq_true, decide_eq_true_eq] at hvalid
  omega

/-- What an interrupted append leaves behind the entries of the newest segment is read as a torn tail,
and the partition opens as before, exactly when no CRC-valid frame starts in it. -/
theorem interrupted_append_iff {e : Entry} (h : WellFormed first (es ++ [e])) :
    Torn e tail →
      ((readSegment first (segmentBytes id first es ++ tail) id true =
          .ok ⟨es, tornTailOf (segmentBytes id first es).length tail⟩ ∧
        ∀ (d : Disk) (init : List (ℕ × Bytes)) (p : Partition), d.wal.faults = [] →
          p.config.id = id → p.highWater + 1 = e.seq →
          d.wal.files.files = init ++ [(first, segmentBytes id first es)] →
          Opens d p → Opens (d.behind first tail) p) ↔ NoValidFrame tail) := by
  intro _
  rw [Wal.readSegment_torn_iff h.append_left]
  refine and_iff_left_of_imp fun hnone d init p hreliable hid hnext hfiles hopens => ?_
  have hlt := (h.valid e (by simp)).seq_lt
  rw [← hid] at hfiles
  exact hopens.behind hreliable (by rw [hnext]; exact hlt) hfiles h.append_left hnone

omit [Digests] in
/-- Three bytes of a frame and two zeros. -/
theorem interrupted_append_iff_short :
    letI := Digests.standard
    let tail := (frameOf (absentDelete 1).body).take 3 ++ List.replicate 2 0
    readSegment 1 (segmentBytes smallConfig.id 1 [] ++ tail) smallConfig.id true =
      .ok ⟨[], some (32, 5)⟩ := by
  let _ := Digests.standard
  intro tail
  have hwell : WellFormed 1 ([] ++ [absentDelete 1]) :=
    ⟨by decide, by simpa using valid_absentDelete (by decide), rfl, trivial⟩
  have hlen := Wal.length_frameOf (absentDelete 1).body
  have hshort : tail.length = 5 := by
    simp only [tail, List.length_append, List.length_take, List.length_replicate, hlen]
    omega
  have htorn : Torn (absentDelete 1) tail := by
    refine ⟨_, 2, List.take_prefix 3 _, fun heq => ?_, rfl⟩
    have := congrArg List.length heq
    rw [List.length_take, hlen] at this
    omega
  have hread : readSegment 1 (segmentBytes smallConfig.id 1 [] ++ tail) smallConfig.id true = _ :=
    ((interrupted_append_iff hwell htorn).2 (noValidFrame_of_short (by omega))).1
  have hne : tail ≠ [] := List.ne_nil_of_length_pos (by omega)
  rw [tornTailOf, if_neg hne, hshort] at hread
  exact hread

/-! ## A payload that holds a frame -/

/-- An upsert whose payload is the frame of a delete. -/
def carrier : Entry :=
  ⟨1, ⟨List.replicate 16 9, by simp⟩,
    .upsert [0x6B] (frameOf (absentDelete 7).body) [F32.zero, F32.zero]⟩

theorem valid_carrier : carrier.Valid := by
  refine ⟨(by decide : 1 < 2 ^ 64), (by decide : 0 < 1 ∧ 1 ≤ Wal.maxKeyLen), ?_, (by decide : 0 < 2),
    (by decide : 2 ≤ Wal.maxDims)⟩
  rw [Wal.length_frameOf]
  decide

/-- The frame is written up to the end of the payload. -/
theorem exists_cut_carrier : ∃ front rest, rest ≠ [] ∧
    frameOf carrier.body = front ++ (frameOf (absentDelete 7).body ++ rest) := by
  refine ⟨toLeBytes 4 (carrier.body.length + 4) ++ toLeBytes 4 (crc32c carrier.body).toNat ++
    (toLeBytes 8 carrier.seq ++ carrier.opId.1 ++ [1] ++ toLeBytes 2 1 ++ [0x6B] ++
      toLeBytes 4 (frameOf (absentDelete 7).body).length),
    toLeBytes 4 2 ++ F32.manyToLe [F32.zero, F32.zero], by simp [toLeBytes], ?_⟩
  simp [frameOf, carrier, Entry.body, Operation.body]

/-- The directory of a new partition in which the append was interrupted behind the payload. -/
def cutDisk (tail : Bytes) : Disk where
  manifest := some smallConfig
  wal := .reliable ⟨[(1, segmentBytes smallConfig.id 1 [] ++ tail)], List.pairwise_singleton _ _⟩
  snap := .reliable Dir.empty

omit [Digests] in
/-- The frame in the payload is taken for an entry behind damage, and the partition does not open. -/
theorem embedded_frame_refused :
    letI := Digests.standard
    (¬ ∀ (id : Uuid) (first : ℕ) (es : List Entry) (e : Entry) (tail : Bytes),
      WellFormed first (es ++ [e]) → Torn e tail →
        readSegment first (segmentBytes id first es ++ tail) id true =
          .ok ⟨es, tornTailOf (segmentBytes id first es).length tail⟩) ∧
    ∃ tail error, Torn carrier tail ∧ (Partition.open (cutDisk tail)).1 = .error error := by
  let _ := Digests.standard
  obtain ⟨front, rest, hrest, hframe⟩ := exists_cut_carrier
  have hwell : WellFormed 1 ([] ++ [carrier]) :=
    ⟨by decide, by simpa using valid_carrier, rfl, trivial⟩
  have hinner : (absentDelete 7).operation.Fits := (valid_absentDelete (by decide)).fits
  have htorn : Torn carrier (front ++ (frameOf (absentDelete 7).body ++ [])) := by
    refine ⟨front ++ (frameOf (absentDelete 7).body ++ []), 0, ?_, ?_, by simp⟩
    · rw [hframe]
      simp
    · intro heq
      rw [hframe] at heq
      simp [hrest] at heq
  have hfound := Wal.not_noValidFrame_append hinner front []
  refine ⟨fun h => hfound ((Wal.readSegment_torn_iff hwell.append_left smallConfig.id _).1
    (h _ _ _ _ _ hwell htorn)), front ++ (frameOf (absentDelete 7).body ++ []), ?_⟩
  have hinvalid : Wal.validFrame (front ++ (frameOf (absentDelete 7).body ++ [])) = false :=
    not_validFrame_of_prefix valid_carrier.fits (by rw [hframe]; simp) (by rw [hframe]; simp [hrest])
  obtain ⟨reason, hparse⟩ := (Wal.parseEntry_unreadable_iff _).2 hinvalid
  obtain ⟨detail, hread⟩ := Wal.readSegment_unreadable_corrupt hwell.append_left smallConfig.id true
    (List.append_ne_nil_of_right_ne_nil _ (List.ne_nil_of_length_pos
      (by rw [List.append_nil, Wal.length_frameOf]; omega))) hparse fun _ => hfound
  generalize front ++ (frameOf (absentDelete 7).body ++ []) = tail at htorn hread ⊢
  have hrecover : Partition.recover (some smallConfig) (cutDisk tail).wal.files Dir.empty =
      .error (.wal (.corrupt 1 (segmentBytes smallConfig.id 1 []).length detail)) := by
    have hvalid : smallConfig.validate = .ok () := rfl
    have hmetric : smallConfig.metricOf = .ok .l2 := rfl
    have hbase : smallConfig.baseSnapshot = false := rfl
    simp only [Partition.recover, hvalid, hmetric, ok_bind, Dir.files_empty, List.reverse_nil,
      newestSnapshot, hbase, cutDisk, Device.reliable, enumerate, List.zipIdx_singleton,
      List.map_cons, List.map_nil, List.foldlM_cons, Partition.replaySegment, List.length_singleton,
      Nat.sub_self, beq_self_eq_true, hread]
    rfl
  refine ⟨.wal (.corrupt 1 (segmentBytes smallConfig.id 1 []).length detail), htorn, ?_⟩
  unfold Partition.open
  simp only [cutDisk, Device.reliable] at hrecover ⊢
  rw [hrecover]

end

end Index

end DistrHnsw
