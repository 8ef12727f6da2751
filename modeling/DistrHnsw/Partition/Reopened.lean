import DistrHnsw.Partition.Contiguous

/-!
# Opening what was inspected

`inspect` and `«open»` run the same recovery.  Opening then cuts the torn tail and reads the newest
segment that is left once more: it has to end at the mark that recovery reached.
-/

namespace DistrHnsw

namespace Index

open Wal (Entry Operation SegmentRead WalError WalWriter readSegment)

/-! ## The segments of a directory that was read -/

/-- The segments that stay when the torn tail is cut: one whose header was never written goes. -/
def remaining (log : List (ℕ × SegmentRead)) : List (ℕ × SegmentRead) :=
  log.filter fun segment => segment.2.tornTail.all fun tail => decide (Wal.headerLen ≤ tail.1)

/-- The newest segment that stays ends at the highest number there is, and one more can follow. -/
structure EndsLast (mark : ℕ) (log : List (ℕ × SegmentRead)) : Prop where
  room : reach mark (entriesRead log) + 1 < 2 ^ 64
  newest : ∀ segment ∈ (remaining log).getLast?,
    segment.2.lastSeq.getD (pred64 segment.1) = reach mark (entriesRead log)

/-- A segment with what was read from it. -/
structure ReadFile where
  first : ℕ
  content : Bytes
  read : SegmentRead

def ReadFile.file (f : ReadFile) : ℕ × Bytes := (f.first, f.content)

def ReadFile.segment (f : ReadFile) : ℕ × SegmentRead := (f.first, f.read)

section

variable [Digests] {id : Uuid}

/-- The file was read as a sealed segment, which has no torn tail. -/
def ReadFile.Sealed (id : Uuid) (f : ReadFile) : Prop :=
  readSegment f.first f.content id false = .ok f.read

theorem ReadFile.Sealed.tornTail {f : ReadFile} (h : f.Sealed id) : f.read.tornTail = none := by
  rcases Wal.accepted_of_readSegment h with ⟨hactive, -⟩ | ⟨-, -, -, haccepted, -⟩
  · cases hactive
  · exact haccepted.sealed rfl

/-- A sealed segment is read the same way once it is the newest. -/
theorem ReadFile.Sealed.reread {f : ReadFile} (h : f.Sealed id) :
    readSegment f.first f.content id true = .ok ⟨f.read.entries, none⟩ := by
  have htail := h.tornTail
  rcases Wal.accepted_of_readSegment h with ⟨hactive, -⟩ | ⟨-, -, -, -, hreread⟩
  · cases hactive
  · have hread := hreread true
    rwa [SegmentRead.stop, htail, Option.map_none, Option.getD_none, List.take_length] at hread

theorem sealed_of_mapM {newest start : ℕ} {files : List (ℕ × Bytes)}
    {log : List (ℕ × SegmentRead)} (hle : start + files.length ≤ newest)
    (h : ((files.zipIdx start).map fun (file, i) => (i, file)).mapM (readAt id newest) = .ok log) :
    ∃ older : List ReadFile, files = older.map ReadFile.file ∧ log = older.map ReadFile.segment ∧
      ∀ f ∈ older, f.Sealed id := by
  induction files generalizing start log with
  | nil =>
    cases h
    exact ⟨[], rfl, rfl, by simp⟩
  | cons file files ih =>
    rw [List.length_cons] at hle
    rw [List.zipIdx_cons, List.map_cons, List.mapM_cons] at h
    obtain ⟨segment, hread, h⟩ := bind_eq_ok.1 h
    obtain ⟨log, hlog, h⟩ := bind_eq_ok.1 h
    cases h
    obtain ⟨read, hok, rfl⟩ := map_eq_ok.1 hread
    have hactive : (start == newest) = false := by
      rw [beq_eq_false_iff_ne]
      omega
    dsimp only at hok
    rw [hactive] at hok
    obtain ⟨older, rfl, rfl, holder⟩ := ih (by omega) hlog
    exact ⟨⟨file.1, file.2, read⟩ :: older, rfl, rfl, List.forall_mem_cons.2 ⟨hok, holder⟩⟩

/-- Only the newest segment is read as the active one. -/
theorem readLog_cases {wal : Dir Bytes} {log : List (ℕ × SegmentRead)}
    (h : readLog id wal = .ok log) : (wal.files = [] ∧ log = []) ∨
      ∃ (older : List ReadFile) (newest : ReadFile),
        wal.files = older.map ReadFile.file ++ [newest.file] ∧
        log = older.map ReadFile.segment ++ [newest.segment] ∧ (∀ f ∈ older, f.Sealed id) ∧
          readSegment newest.first newest.content id true = .ok newest.read := by
  rcases List.eq_nil_or_concat wal.files with hnil | ⟨init, ⟨first, content⟩, hfiles⟩
  · rw [readLog, hnil] at h
    cases h
    exact .inl ⟨hnil, rfl⟩
  · rw [List.concat_eq_append] at hfiles
    have hnewest : wal.files.length - 1 = init.length := by simp [hfiles]
    rw [readLog, hnewest, hfiles, enumerate, List.zipIdx_append, List.map_append,
      List.mapM_append] at h
    obtain ⟨log, hlog, h⟩ := bind_eq_ok.1 h
    obtain ⟨last, hlast, h⟩ := bind_eq_ok.1 h
    cases h
    simp only [List.zipIdx_singleton, List.map_cons, List.map_nil, List.mapM_cons, List.mapM_nil]
      at hlast
    obtain ⟨segment, hread, hlast⟩ := bind_eq_ok.1 hlast
    cases hlast
    obtain ⟨read, hok, rfl⟩ := map_eq_ok.1 hread
    obtain ⟨older, rfl, rfl, holder⟩ := sealed_of_mapM (by omega) hlog
    refine .inr ⟨older, ⟨first, content, read⟩, hfiles, rfl, holder, ?_⟩
    simpa using hok

/-! ## The directory after the repair -/

omit [Digests] in
theorem tornOf_append {older : List (ℕ × SegmentRead)} {segment : ℕ × SegmentRead}
    (h : ∀ s ∈ older, s.2.tornTail = none) :
    tornOf none (older ++ [segment]) = segment.2.tornTail.map fun tail => (segment.1, tail.1) := by
  have holder : tornOf none older = none := by
    induction older with
    | nil => rfl
    | cons s older ih =>
      have hs := h s List.mem_cons_self
      simp only [tornOf, List.foldl_cons, hs] at ih ⊢
      exact ih fun x hx => h x (List.mem_cons_of_mem _ hx)
  unfold tornOf at holder ⊢
  rw [List.foldl_append, holder]
  cases htail : segment.2.tornTail <;> simp [htail]

omit [Digests] in
theorem remaining_append {older log : List (ℕ × SegmentRead)}
    (h : ∀ s ∈ older, s.2.tornTail = none) : remaining (older ++ log) = older ++ remaining log := by
  unfold remaining
  rw [List.filter_append]
  congr 1
  apply List.filter_eq_self.2
  intro s hs
  rw [h s hs]
  rfl

/-- The segments that stay, the newest one intact. -/
structure Repaired (id : Uuid) (log : List (ℕ × SegmentRead)) (wal : Dir Bytes) : Prop where
  empty : remaining log = [] → wal.files = []
  newest : ∀ segment ∈ (remaining log).getLast?, ∃ init content,
    wal.files = init ++ [(segment.1, content)] ∧
      readSegment segment.1 content id true = .ok ⟨segment.2.entries, none⟩

theorem repaired_of_concat {log keep : List (ℕ × SegmentRead)} {segment : ℕ × SegmentRead}
    {wal : Dir Bytes} {init : List (ℕ × Bytes)} {content : Bytes}
    (hstay : remaining log = keep ++ [segment])
    (hfiles : wal.files = init ++ [(segment.1, content)])
    (hread : readSegment segment.1 content id true = .ok ⟨segment.2.entries, none⟩) :
    Repaired id log wal := by
  constructor
  · intro hnil
    rw [hstay] at hnil
    simp at hnil
  · intro other hother
    rw [hstay, List.getLast?_concat] at hother
    cases hother
    exact ⟨init, content, hfiles, hread⟩

/-- Cut the torn tail that recovery found. -/
def repair (wal : Device) : Option (ℕ × ℕ) → Except WalError Unit × Device
  | some (path, offset) => Partition.truncateTornTail wal path offset
  | none => (.ok (), wal)

omit [Digests] in
/-- A segment whose header was never written is removed. -/
theorem truncateTornTail_of_lt {wal : Device} (hreliable : wal.faults = []) {path offset : ℕ}
    {content : Bytes} (hget : wal.files.get? path = some content) (h : offset < Wal.headerLen) :
    ∃ wal', Partition.truncateTornTail wal path offset = (.ok (), wal') ∧ wal'.faults = [] ∧
      wal'.files = wal.files.erase path := by
  obtain ⟨hdone, hfaults, herased⟩ := Device.remove_of_reliable hreliable hget
  unfold Partition.truncateTornTail
  rw [if_pos h]
  generalize wal.remove path = removed at hdone hfaults herased
  obtain ⟨done, wal'⟩ := removed
  cases hdone
  rw [Device.orFail, if_pos rfl, Device.touch_of_reliable hfaults, Device.orFail, if_pos rfl]
  exact ⟨wal', rfl, hfaults, herased⟩

omit [Digests] in
/-- A tail behind the header is cut off. -/
theorem truncateTornTail_of_le {wal : Device} (hreliable : wal.faults = []) {path offset : ℕ}
    {content : Bytes} (hget : wal.files.get? path = some content) (h : Wal.headerLen ≤ offset) :
    ∃ wal', Partition.truncateTornTail wal path offset = (.ok (), wal') ∧ wal'.faults = [] ∧
      wal'.files = wal.files.modify path (·.take offset) := by
  obtain ⟨hdone, hfaults, hcut⟩ := Device.truncate_of_reliable hreliable hget offset
  unfold Partition.truncateTornTail
  rw [if_neg (Nat.not_lt.2 h), Device.touch_of_reliable hreliable, Device.orFail, if_pos rfl]
  dsimp only
  generalize wal.truncate path offset = cut at hdone hfaults hcut
  obtain ⟨done, wal'⟩ := cut
  cases hdone
  rw [Device.orFail, if_pos rfl, Device.touch_of_reliable hfaults, Device.orFail, if_pos rfl]
  exact ⟨wal', rfl, hfaults, hcut⟩

/-- On a reliable device the repair leaves the segments that stay. -/
theorem repaired_of_readLog {wal : Device} (hreliable : wal.faults = [])
    {log : List (ℕ × SegmentRead)} (h : readLog id wal.files = .ok log) :
    ∃ wal', repair wal (tornOf none log) = (.ok (), wal') ∧ wal'.faults = [] ∧
      Repaired id log wal'.files := by
  rcases readLog_cases h with ⟨hfiles, rfl⟩ | ⟨older, newest, hfiles, rfl, holder, hread⟩
  · exact ⟨wal, rfl, hreliable, fun _ => hfiles, fun _ hsegment => nomatch hsegment⟩
  have hsealed : ∀ s ∈ older.map ReadFile.segment, s.2.tornTail = none := by
    intro s hs
    obtain ⟨f, hf, rfl⟩ := List.mem_map.1 hs
    exact (holder f hf).tornTail
  rw [tornOf_append hsealed]
  have hget : wal.files.get? newest.first = some newest.content := Dir.get?_last hfiles
  obtain ⟨first, content, entries, tornTail⟩ := newest
  dsimp only [ReadFile.segment, ReadFile.file] at hfiles hget hread ⊢
  rcases tornTail with _ | ⟨offset, n⟩
  · have hstay : remaining (older.map ReadFile.segment ++ [(first, ⟨entries, none⟩)]) =
        older.map ReadFile.segment ++ [(first, ⟨entries, none⟩)] := by
      rw [remaining_append hsealed]
      rfl
    exact ⟨wal, rfl, hreliable, repaired_of_concat hstay hfiles hread⟩
  by_cases hheader : offset < Wal.headerLen
  · -- the header was never written, and the segment is removed
    obtain ⟨wal', hok, hfaults, herased⟩ := truncateTornTail_of_lt hreliable hget hheader
    refine ⟨wal', hok, hfaults, ?_⟩
    have hleft : wal'.files.files = older.map ReadFile.file := by
      rw [herased]
      exact Dir.files_erase_last hfiles
    have hstay : remaining (older.map ReadFile.segment ++
        [(first, ⟨entries, some (offset, n)⟩)]) = older.map ReadFile.segment := by
      rw [remaining_append hsealed, remaining, List.filter_cons_of_neg, List.filter_nil,
        List.append_nil]
      simpa using hheader
    rcases List.eq_nil_or_concat older with rfl | ⟨older, last, rfl⟩
    · refine ⟨fun _ => hleft, fun _ hsegment => ?_⟩
      rw [hstay] at hsegment
      cases hsegment
    · rw [List.concat_eq_append] at hstay hleft
      simp only [List.map_append, List.map_cons, List.map_nil] at hstay hleft
      rw [List.concat_eq_append]
      simp only [List.map_append, List.map_cons, List.map_nil]
      exact repaired_of_concat hstay hleft (holder last (by simp)).reread
  · -- the tail is cut off behind the last intact entry
    obtain ⟨wal', hok, hfaults, hcut⟩ :=
      truncateTornTail_of_le hreliable hget (Nat.le_of_not_lt hheader)
    have hstay : remaining (older.map ReadFile.segment ++
        [(first, ⟨entries, some (offset, n)⟩)]) =
          older.map ReadFile.segment ++ [(first, ⟨entries, some (offset, n)⟩)] := by
      rw [remaining_append hsealed, remaining, List.filter_cons_of_pos, List.filter_nil]
      simpa using hheader
    have hleft : wal'.files.files =
        older.map ReadFile.file ++ [(first, content.take offset)] := by
      rw [hcut]
      exact Dir.files_modify_last hfiles
    refine ⟨wal', hok, hfaults, repaired_of_concat hstay hleft ?_⟩
    rcases Wal.accepted_of_readSegment hread with ⟨-, -, heq⟩ | ⟨-, -, -, -, hreread⟩
    · cases heq
      exact absurd (by decide) hheader
    · exact hreread true

/-! ## Opening the writer -/

section Writer

variable {mark : ℕ} {log : List (ℕ × SegmentRead)} {wal : Device}

omit [Digests] in
/-- Every entry that was read is at or below the mark that is reached. -/
theorem seq_le_of_mem {segment : ℕ × SegmentRead} (hsegment : segment ∈ log) {e : Entry}
    (he : e ∈ segment.2.entries) : e.seq ≤ reach mark (entriesRead log) :=
  seq_le_reach (List.mem_flatMap.2 ⟨segment, hsegment, he⟩)

/-- The newest segment that stays starts no later than behind the mark, and before it when it holds
an entry. -/
theorem EndsLast.first_le (h : EndsLast mark log) {segment : ℕ × SegmentRead} {content : Bytes}
    (hnewest : segment ∈ (remaining log).getLast?)
    (hnumbered : Wal.Numbered segment.1 segment.2.entries)
    (hread : readSegment segment.1 content id true = .ok ⟨segment.2.entries, none⟩) :
    segment.1 ≤ reach mark (entriesRead log) + 1 ∧
      (segment.2.entries ≠ [] → segment.1 ≤ reach mark (entriesRead log)) := by
  have hroom := h.room
  have hlast := h.newest segment hnewest
  have hmem : segment ∈ log := (List.mem_filter.1 (List.mem_of_getLast? hnewest)).1
  have hcontiguous := hnumbered.contiguous_of_lt fun e he => by
    have : e.seq ≤ reach mark (entriesRead log) := seq_le_of_mem hmem he
    omega
  have hnonempty (hne : segment.2.entries ≠ []) :
      segment.1 ≤ reach mark (entriesRead log) := by
    obtain ⟨e, he⟩ := List.exists_mem_of_ne_nil _ hne
    exact (hcontiguous.seq_lt he).1.trans (seq_le_of_mem hmem he)
  refine ⟨?_, hnonempty⟩
  by_cases hne : segment.2.entries = []
  · have hlt : segment.1 < 2 ^ 64 := by
      rcases Wal.accepted_of_readSegment hread with ⟨-, -, heq⟩ | ⟨-, -, hlt, -⟩
      · simp at heq
      · exact hlt
    simp only [SegmentRead.lastSeq, hne, List.getLast?_nil, Option.map_none, Option.getD_none,
      pred64] at hlast
    split at hlast <;> omega
  · exact (hnonempty hne).trans (Nat.le_succ _)

/-- A writer that opens behind the mark found the newest segment that stays ending there. -/
theorem endsLast_of_open (hrepaired : Repaired id log wal.files) {w : WalWriter} {wal' : Device}
    (hopen : WalWriter.open wal id (reach mark (entriesRead log)) = (.ok w, wal'))
    (hnext : w.nextSeq = reach mark (entriesRead log) + 1) : EndsLast mark log := by
  obtain ⟨hseq, ext, hext⟩ := WalWriter.of_open hopen
  constructor
  · have hlt : succ64 (reach mark (entriesRead log)) < 2 ^ 64 := Nat.mod_lt _ (by decide)
    omega
  · intro segment hsegment
    obtain ⟨init, content, hfiles, hread⟩ := hrepaired.newest segment hsegment
    obtain ⟨-, read, hread', -, hlast, -⟩ := (WalWriter.extendNewest_eq_ok hfiles).1 hext
    rw [hread] at hread'
    cases hread'
    exact hlast

/-- The writer opens behind the mark when the newest segment that stays ends there. -/
theorem EndsLast.opens (h : EndsLast mark log) (hreliable : wal.faults = [])
    (hrepaired : Repaired id log wal.files)
    (hnumbered : ∀ segment ∈ log, Wal.Numbered segment.1 segment.2.entries) :
    ∃ w wal', WalWriter.open wal id (reach mark (entriesRead log)) = (.ok w, wal') ∧
      wal'.faults = [] ∧ w.nextSeq = reach mark (entriesRead log) + 1 ∧ w.poisoned = false ∧
        w.bytes < Wal.segmentRotateBytes := by
  have hnext : succ64 (reach mark (entriesRead log)) = reach mark (entriesRead log) + 1 :=
    succ64_of_lt h.room
  rw [← hnext]
  rcases List.eq_nil_or_concat (remaining log) with hnil | ⟨keep, segment, hkeep⟩
  · have hfiles := hrepaired.empty hnil
    have hext : WalWriter.extendNewest wal.files id (reach mark (entriesRead log)) =
        .ok none := by
      unfold WalWriter.extendNewest
      rw [hfiles]
      rfl
    exact WalWriter.open_of_reliable hreliable hext (fun _ _ h => by cases h)
      (fun _ file hfile => by simp [hfiles] at hfile)
  · rw [List.concat_eq_append] at hkeep
    have hsegment : segment ∈ (remaining log).getLast? := by rw [hkeep, List.getLast?_concat]; rfl
    obtain ⟨init, content, hfiles, hread⟩ := hrepaired.newest segment hsegment
    have hmem : segment ∈ log := (List.mem_filter.1 (List.mem_of_getLast? hsegment)).1
    obtain ⟨hle, hlt⟩ := h.first_le hsegment (hnumbered segment hmem) hread
    refine WalWriter.open_of_reliable hreliable ((WalWriter.extendNewest_eq_ok hfiles).2
      ⟨hnext ▸ hle, _, hread, rfl, h.newest segment hsegment, rfl⟩) ?_ ?_
    · intro path bytes heq
      split at heq
      · cases heq
        assumption
      · cases heq
    · intro heq file hfile
      have hne : segment.2.entries ≠ [] := by
        intro hnil
        rw [hnil] at hread
        have hlen := Wal.length_le_of_readSegment_nil hread
        rw [if_pos (hlen.trans_lt (by decide))] at heq
        cases heq
      have hfirst := hlt hne
      rw [hfiles] at hfile
      rcases List.mem_append.1 hfile with hfile | hfile
      · have := Dir.lt_of_files_eq hfiles hfile
        dsimp only at this
        omega
      · rw [List.mem_singleton.1 hfile]
        dsimp only
        omega

end Writer

end

/-! ## The opened partition -/

namespace Partition

variable {p p' : Partition}

theorem applyUpsert_wal (w : Option WalWriter) (seq : ℕ) (key payload : Bytes)
    (vector : List F32) : ({ p with wal := w }).applyUpsert seq key payload vector =
      (p.applyUpsert seq key payload vector).map fun q => { q with wal := w } := by
  unfold applyUpsert
  by_cases hdims : vector.length = p.config.dims
  · dsimp only [slotForKey, keyPosition]
    simp only [hdims, ne_eq, not_true_eq_false, if_false]
    generalize checked (p.index.insert vector) = inserted
    cases inserted with
    | error e => rfl
    | ok out =>
      simp only [ok_bind]
      cases (p.keys key).bind Prod.snd with
      | none => rfl
      | some previous =>
        dsimp only
        generalize checked (tombstone out.2 p.slots previous) = masked
        cases masked <;> rfl
  · simp only [ne_eq, hdims, not_false_eq_true, if_true]
    rfl

theorem applyDelete_wal (w : Option WalWriter) (key : Bytes) :
    ({ p with wal := w }).applyDelete key =
      (p.applyDelete key).map fun q => { q with wal := w } := by
  unfold applyDelete
  dsimp only
  split
  · rename_i previous _
    generalize checked (tombstone p.index p.slots previous) = masked
    cases masked <;> rfl
  · rfl

/-- The writer plays no part in applying an entry. -/
theorem apply_wal (w : Option WalWriter) (entry : Entry) :
    ({ p with wal := w }).apply entry = (p.apply entry).map fun q => { q with wal := w } := by
  unfold apply
  cases entry.operation with
  | upsert key payload vector =>
    dsimp only
    rw [applyUpsert_wal]
    cases p.applyUpsert entry.seq key payload vector <;> rfl
  | delete key =>
    dsimp only
    rw [applyDelete_wal]
    cases p.applyDelete key <;> rfl

/-- What recovery leaves as it was created. -/
theorem same_of_recover [Digests] {config : PartitionConfig} {wal snap : Dir Bytes}
    {report : RecoveryReport} (hok : recover (some config) wal snap = .ok (p, report)) :
    p.config = config ∧ p.failpoint = none := by
  obtain ⟨-, metric, -, base, hbase, hreplay⟩ := replayed_of_recover hok
  have hstart : base.config = config ∧ base.failpoint = none := by
    cases hbase with
    | snapshot _ hbase =>
      unfold ofSnapshot at hbase
      obtain ⟨-, hbase⟩ := guard_eq_ok.1 hbase
      obtain ⟨-, hbase⟩ := guard_eq_ok.1 hbase
      split at hbase
      · cases hbase
      · cases hbase
        exact ⟨rfl, rfl⟩
    | empty => exact ⟨rfl, rfl⟩
  clear hok
  induction hreplay with
  | refl => exact hstart
  | tail _ hlast ih =>
    obtain ⟨entry, -, happly⟩ := hlast
    obtain ⟨-, hconfig, -, hfailpoint⟩ := same_of_apply happly
    exact ⟨hconfig.trans ih.1, hfailpoint.trans ih.2⟩

/-- An upsert that passes the checks in front of the log and that the graph takes in. -/
structure Upsertable (p : Partition) (opId : OpId) (key : Bytes) (vector : List F32)
    (payload : Bytes) : Prop where
  fresh : p.idempotency.get opId = none
  dims : vector.length = p.config.dims
  finite : ∀ value ∈ vector, value.isFinite = true
  nonzero : p.metric.normalizes = true → (normalize vector).1 = true
  admitted : p.admits payload.length = .ok ()
  fits : (Operation.upsert key payload (FlatVectors.stored vector p.metric)).Fits
  applies : ∃ p', p.apply ⟨p.highWater + 1, opId,
    .upsert key payload (FlatVectors.stored vector p.metric)⟩ = .ok p'

/-- On a reliable device an operation that can be applied is logged behind the mark, and applied. -/
theorem mutate_of_reliable [Digests] {opId : OpId} {operation : Operation} {wal : Device}
    {w : WalWriter} (hfits : operation.Fits)
    (happlies : p.apply ⟨p.highWater + 1, opId, operation⟩ = .ok p') (hreliable : wal.faults = [])
    (hwal : p.wal = some w) (hnext : w.nextSeq = p.highWater + 1) (hpoisoned : w.poisoned = false)
    (hshort : w.bytes < Wal.segmentRotateBytes) (hfailpoint : p.failpoint = none) :
    ∃ w' wal', p.mutate wal opId operation =
      (.ok ⟨p.highWater + 1, false⟩, { p' with wal := some w' }, wal') := by
  obtain ⟨w', wal', happend, hreliable', hpoisoned'⟩ :=
    WalWriter.appendUnsynced_of_reliable hreliable hpoisoned hshort opId hfits
  have hsync : w'.sync wal' = (.ok (), w', wal') := by
    unfold WalWriter.sync
    rw [hpoisoned', Device.touch_of_reliable hreliable']
    rfl
  have happly : ({ p with wal := some w' } : Partition).apply ⟨p.highWater + 1, opId, operation⟩ =
      .ok { p' with wal := some w' } := by
    rw [apply_wal, happlies]
    rfl
  have hfailpoint' : p'.failpoint = none := (same_of_apply happlies).2.2.2.trans hfailpoint
  rw [hnext] at happend
  simp only [hfailpoint] at happly
  refine ⟨w', wal', ?_⟩
  simp only [mutate, hwal, happend, syncAndApply, hfailpoint, reduceCtorEq, if_false, hsync, happly,
    hfailpoint']

/-- On a reliable device the upsert is logged behind the mark and applied. -/
theorem upsert_of_reliable [Digests] {opId : OpId} {key payload : Bytes} {vector : List F32}
    {wal : Device} {w : WalWriter} (h : p.Upsertable opId key vector payload)
    (hreliable : wal.faults = []) (hwal : p.wal = some w) (hnext : w.nextSeq = p.highWater + 1)
    (hpoisoned : w.poisoned = false) (hshort : w.bytes < Wal.segmentRotateBytes)
    (hfailpoint : p.failpoint = none) :
    (p.upsert wal opId key vector payload).1 = .ok ⟨p.highWater + 1, false⟩ := by
  obtain ⟨p', hp'⟩ := h.applies
  have hfinite : (vector.any fun value => !value.isFinite) = false := by
    simpa using h.finite
  have hnonzero : (p.metric.normalizes && !(normalize vector).1) = false := by
    have := h.nonzero
    cases hnormalizes : p.metric.normalizes <;> simp_all
  obtain ⟨w', wal', hmutate⟩ :=
    mutate_of_reliable h.fits hp' hreliable hwal hnext hpoisoned hshort hfailpoint
  simp only [upsert, h.fresh, h.dims, ne_eq, not_true_eq_false, if_false, hfinite,
    Bool.false_eq_true, hnonzero, h.admitted, hmutate]

/-! ## Inspecting first -/

section

variable [Digests] {d : Disk} {report : RecoveryReport}

/-- Opening gives the state that the inspection rebuilt, with a writer behind its mark, and the next
upsert is accepted there. -/
def Predicted (d : Disk) (report : RecoveryReport) : Prop :=
  ∃ state opened writer d', recover d.manifest d.wal.files d.snap.files = .ok (state, report) ∧
    «open» d = (.ok ({ state with wal := some writer }, opened), d') ∧
    opened.highWater = report.highWater ∧ state.highWater = report.highWater ∧
    opened.walEntriesReplayed = report.walEntriesReplayed ∧
    writer.nextSeq = report.highWater + 1 ∧
    ∀ opId key vector payload,
      ({ state with wal := some writer } : Partition).Upsertable opId key vector payload →
        (({ state with wal := some writer } : Partition).upsert d'.wal opId key vector payload).1 =
          .ok ⟨report.highWater + 1, false⟩

theorem open_eq {wal' : Device} {config : PartitionConfig} (hmanifest : d.manifest = some config)
    (hok : recover (some config) d.wal.files d.snap.files = .ok (p, report))
    (hrepair : repair d.wal report.tornTailFound = (.ok (), wal')) :
    «open» d = match WalWriter.open wal' config.id p.highWater with
      | (.error e, wal) => (.error (.wal e), { d with wal })
      | (.ok writer, wal) => (.ok ({ p with wal := some writer }, { report with
          tornTailFound := none
          tornTailsTruncated := report.tornTailsTruncated ++ report.tornTailFound.toList }),
          { d with wal }) := by
  unfold «open»
  rw [hmanifest, hok, ← (same_of_recover hok).1]
  dsimp only
  cases htorn : report.tornTailFound with
  | none =>
    rw [htorn] at hrepair
    cases hrepair
    rfl
  | some found =>
    rw [htorn] at hrepair
    simp only [repair] at hrepair
    dsimp only
    rw [hrepair] <;> rfl

/-- When the inspection passes and no step of the device fails, opening does what it predicts exactly
when the newest segment that stays ends at the highest number there is. -/
theorem inspect_predicts_open_iff (hreliable : d.wal.faults = [])
    (hinspect : inspect d = .ok report) :
    ∃ config log, d.manifest = some config ∧ readLog config.id d.wal.files = .ok log ∧
      (Predicted d report ↔ EndsLast (markOf config d.snap.files) log) := by
  obtain ⟨⟨p, report⟩, hok, rfl⟩ := map_eq_ok.1 hinspect
  cases hmanifest : d.manifest with
  | none =>
    rw [hmanifest] at hok
    cases hok
  | some config =>
    have hsome := hok
    rw [hmanifest] at hsome
    obtain ⟨log, hlog, -, hhigh, htorn, hreport⟩ := log_of_recover hsome
    obtain ⟨wal', hrepair, hreliable', hrepaired⟩ := repaired_of_readLog hreliable hlog
    rw [← htorn] at hrepair
    have hopen := open_eq hmanifest hsome hrepair
    refine ⟨config, log, rfl, hlog, ?_⟩
    constructor
    · rintro ⟨state, opened, writer, d', hstate, hopened, -, -, -, hnext, -⟩
      rw [hok] at hstate
      cases hstate
      generalize hwriter : WalWriter.open wal' config.id p.highWater = result at hopen
      rw [hopened] at hopen
      obtain ⟨outcome, wal''⟩ := result
      cases outcome with
      | error e => cases hopen
      | ok w =>
        cases hopen
        rw [hreport] at hnext
        rw [hhigh] at hwriter hnext
        exact endsLast_of_open hrepaired hwriter hnext
    · intro hends
      obtain ⟨w, wal'', hwriter, hfaults, hnext, hpoisoned, hshort⟩ :=
        hends.opens hreliable' hrepaired fun segment hsegment =>
          (numbered_of_readLog hlog hsegment).1
      rw [← hhigh] at hwriter hnext
      rw [hwriter] at hopen
      refine ⟨p, _, w, _, hok, hopen, rfl, hreport.symm, rfl, hreport ▸ hnext, ?_⟩
      intro opId key vector payload hupsert
      rw [hreport]
      exact upsert_of_reliable hupsert hfaults rfl hnext hpoisoned hshort
        (same_of_recover hsome).2

/-- A partition directory without snapshots on a device that does not fail. -/
def twoDisk (second : ℕ) (later : List Entry) (h : 1 < second) : Disk :=
  ⟨some smallConfig, .reliable (twoFiles second later h), .reliable Dir.empty⟩

omit [Digests] in
/-- The newest segment is only a header, numbered below the end of the one before: the inspection
passes and the writer does not open. -/
theorem stale_newest_does_not_open :
    letI := Digests.standard
    ¬ ∀ (d : Disk) (report : RecoveryReport), d.wal.faults = [] → inspect d = .ok report →
      Predicted d report := by
  let _ := Digests.standard
  intro h
  have hlater : Wal.WellFormed 2 [] := ⟨by decide, by simp, trivial⟩
  have hok := recovers_two (show 1 < 2 by decide) hlater rfl rfl rfl
  have hinspect := congrArg (Except.map Prod.snd) hok
  obtain ⟨config, log, hconfig, hlog, hiff⟩ :=
    inspect_predicts_open_iff (d := twoDisk 2 [] (by decide)) rfl hinspect
  cases hconfig
  obtain rfl : _ = log := Except.ok.inj ((readLog_twoFiles (by decide) hlater).symm.trans hlog)
  have hends := hiff.1 (h _ _ rfl hinspect)
  have hlast := hends.newest _ rfl
  revert hlast
  decide

omit [Digests] in
/-- The newest segment follows the one before. -/
theorem inspect_predicts_open_two :
    letI := Digests.standard
    ∃ report, Predicted (twoDisk 3 [absentDelete 3, absentDelete 4] (by decide)) report := by
  let _ := Digests.standard
  have hlater := @wellFormed_deletes 3 (by decide)
  have hok := recovers_two (by decide) hlater rfl rfl rfl
  have hinspect := congrArg (Except.map Prod.snd) hok
  obtain ⟨config, log, hconfig, hlog, hiff⟩ := inspect_predicts_open_iff
    (d := twoDisk 3 [absentDelete 3, absentDelete 4] (by decide)) rfl hinspect
  cases hconfig
  obtain rfl : _ = log := Except.ok.inj ((readLog_twoFiles (by decide) hlater).symm.trans hlog)
  refine ⟨_, hiff.2 ⟨by decide, ?_⟩⟩
  intro segment hsegment
  cases hsegment
  decide

end

end Partition

end Index

end DistrHnsw
