import DistrHnsw.Partition.History
import DistrHnsw.Wal.Accepted

/-!
# When the accepted log is contiguous

Inside a segment every number is checked against the one before.  Between two segments replay only
asks that the later one leaves no gap above the mark, so the log is contiguous exactly when the
segments meet where replay does not look: below the mark of the snapshot, and where a later segment
starts over.
-/

namespace DistrHnsw

namespace Index

open Wal (Entry SegmentRead WalError readSegment Numbered Contiguous)

/-! ## Where segments meet -/

/-- What replay leaves open about two neighbouring runs of entries: below the mark nothing is
compared, and from the mark on the later run may start over. -/
def Meets (mark : ℕ) (es fs : List Entry) : Prop :=
  ∀ e ∈ es.getLast?, ∀ f ∈ fs.head?,
    (e.seq < mark → f.seq = e.seq + 1) ∧ (mark ≤ e.seq → e.seq < f.seq)

/-- The entries of the segments that hold one. -/
def runs (log : List (ℕ × SegmentRead)) : List (List Entry) :=
  (log.map fun segment => segment.2.entries).filter fun es => es ≠ []

/-- No numbering wraps around, and neighbouring segments meet. -/
structure Seamless (mark : ℕ) (log : List (ℕ × SegmentRead)) : Prop where
  room : ∀ segment ∈ log, segment.2.entries.length ≤ 2 ^ 64 - segment.1
  meets : (runs log).IsChain (Meets mark)

section Runs

variable {mark first : ℕ} {e f : Entry} {es fs : List Entry} {log : List (ℕ × SegmentRead)}

theorem consecutive_of_contiguous (h : Contiguous first es) : Consecutive es := by
  induction es generalizing first with
  | nil => exact List.isChain_nil
  | cons e es ih =>
    cases es with
    | nil => exact List.isChain_singleton e
    | cons e' es =>
      refine List.isChain_cons_cons.2 ⟨?_, ih h.2⟩
      rw [h.2.1, h.1]

/-- Numbers that count up from `first` without a wrap stay below the largest one. -/
theorem Consecutive.room (h : Consecutive es) (hnumbered : Numbered first es)
    (hvalid : ∀ e ∈ es, e.Valid) : es.length ≤ 2 ^ 64 - first := by
  induction es generalizing first with
  | nil => exact Nat.zero_le _
  | cons e es ih =>
    have hlt := (hvalid e List.mem_cons_self).seq_lt
    rw [hnumbered.1] at hlt
    cases es with
    | nil =>
      rw [List.length_singleton]
      omega
    | cons e' es =>
      obtain ⟨hnext, htail⟩ := List.isChain_cons_cons.1 h
      have hseq : e'.seq = first + 1 := by rw [hnext, hnumbered.1]
      have hnumbered' : Numbered (first + 1) (e' :: es) := ⟨hseq, by
        have := hnumbered.2.2
        rwa [← hnumbered.2.1, hseq] at this⟩
      have hlen := ih htail hnumbered' fun x hx => hvalid x (List.mem_cons_of_mem _ hx)
      simp only [List.length_cons] at hlen ⊢
      omega

theorem Consecutive.head_le (h : Consecutive es) (hhead : es.head? = some f)
    (hlast : es.getLast? = some e) : f.seq ≤ e.seq := by
  have hreach : Index.reach 0 es = max 0 e.seq := h.reach hlast
  have hle : f.seq ≤ Index.reach 0 es := seq_le_reach (List.mem_of_head? hhead)
  omega

/-- Above a mark that no run overtakes, runs that meet follow each other. -/
theorem follows_of_meets {high : ℕ} {runs : List (List Entry)} (hne : [] ∉ runs)
    (hruns : ∀ es ∈ runs, Consecutive es) (hgapless : Gapless high runs.flatten)
    (hhigh : ∀ es ∈ runs.head?, ∀ f ∈ es.head?, high ≤ max mark f.seq)
    (hmeets : runs.IsChain (Meets mark)) :
    runs.IsChain fun es fs => ∀ e ∈ es.getLast?, ∀ f ∈ fs.head?, f.seq = e.seq + 1 := by
  induction runs generalizing high with
  | nil => exact List.isChain_nil
  | cons es rest ih =>
    cases rest with
    | nil => exact List.isChain_singleton es
    | cons fs rest =>
      simp only [List.mem_cons, not_or] at hne
      obtain ⟨e, hlast⟩ := Option.isSome_iff_exists.1 (List.getLast?_isSome.2 (Ne.symm hne.1))
      obtain ⟨x, hfirst⟩ := Option.isSome_iff_exists.1 (List.isSome_head?.2 (Ne.symm hne.1))
      obtain ⟨f, hhead⟩ := Option.isSome_iff_exists.1 (List.isSome_head?.2 (Ne.symm hne.2.1))
      obtain ⟨hmeet, htail⟩ := List.isChain_cons_cons.1 hmeets
      have hes := hruns es List.mem_cons_self
      rw [List.flatten_cons, gapless_append, hes.reach hlast] at hgapless
      have hnext : f.seq ≤ max high e.seq + 1 := by
        obtain ⟨fs', rfl⟩ := List.head?_eq_some_iff.1 hhead
        exact hgapless.2.1
      have hfollow : f.seq = e.seq + 1 := by
        have hbound := hhigh es rfl x hfirst
        have hle := hes.head_le hfirst hlast
        obtain ⟨hbelow, habove⟩ := hmeet e hlast f hhead
        by_cases hmark : e.seq < mark
        · exact hbelow hmark
        · have := habove (Nat.le_of_not_lt hmark)
          omega
      refine List.isChain_cons_cons.2 ⟨?_, ?_⟩
      · intro e' he' f' hf'
        rw [hlast] at he'
        rw [hhead] at hf'
        cases he'
        cases hf'
        exact hfollow
      · apply ih (by simpa only [List.mem_cons, not_or] using hne.2)
          (fun gs hgs => hruns gs (List.mem_cons_of_mem _ hgs)) hgapless.2 ?_ htail
        intro gs hgs f' hf'
        cases hgs
        rw [hhead] at hf'
        cases hf'
        have hbound := hhigh es rfl x hfirst
        have hle := hes.head_le hfirst hlast
        omega

end Runs

/-! ## The entries of an accepted directory -/

section

variable [Digests] {id : Uuid} {newest : ℕ}

/-- Every segment that was read is numbered from its name. -/
theorem numbered_of_readLog {wal : Dir Bytes} {log : List (ℕ × SegmentRead)}
    (h : readLog id wal = .ok log) {segment : ℕ × SegmentRead} (hsegment : segment ∈ log) :
    Numbered segment.1 segment.2.entries ∧ ∀ e ∈ segment.2.entries, e.Valid := by
  obtain ⟨⟨position, first, bytes⟩, -, hread⟩ := mapM_ok_mem h segment hsegment
  obtain ⟨read, hok, heq⟩ := map_eq_ok.1 hread
  cases heq
  rcases Wal.accepted_of_readSegment hok with ⟨-, -, rfl⟩ | ⟨-, -, -, haccepted, -⟩
  · exact ⟨trivial, by simp⟩
  · obtain ⟨es, hes, hnumbered, hvalid⟩ := haccepted.entries
    rw [List.nil_append] at hes
    rw [hes]
    exact ⟨hnumbered, hvalid⟩

end

/-- The entries of an accepted directory are numbered without gap and without repeat exactly when
its segments meet where replay does not look. -/
theorem log_consecutive_iff [Digests] {config : PartitionConfig} {wal snap : Dir Bytes}
    {p : Partition} {report : RecoveryReport}
    (hok : Partition.recover (some config) wal snap = .ok (p, report)) :
    ∃ log, readLog config.id wal = .ok log ∧
      (Consecutive (entriesRead log) ↔ Seamless (Partition.markOf config snap) log) := by
  obtain ⟨log, hlog, hgapless, -⟩ := Partition.log_of_recover hok
  refine ⟨log, hlog, ?_⟩
  have hflatten : entriesRead log = (runs log).flatten := by
    rw [runs, List.flatten_filter_ne_nil, entriesRead, List.flatMap_def]
  have hne : [] ∉ runs log := by simp [runs]
  have hmem {es : List Entry} (hes : es ∈ runs log) :
      ∃ segment ∈ log, segment.2.entries = es := by
    simpa [runs] using (List.mem_filter.1 hes).1
  rw [hflatten] at hgapless ⊢
  unfold Consecutive
  rw [List.isChain_flatten hne]
  constructor
  · rintro ⟨hruns, hfollow⟩
    refine ⟨fun segment hsegment => ?_, hfollow.imp ?_⟩
    · obtain ⟨hnumbered, hvalid⟩ := numbered_of_readLog hlog hsegment
      by_cases hnil : segment.2.entries = []
      · rw [hnil]
        exact Nat.zero_le _
      · have hrun : segment.2.entries ∈ runs log :=
          List.mem_filter.2 ⟨List.mem_map_of_mem hsegment, by simpa using hnil⟩
        exact Consecutive.room (hruns _ hrun) hnumbered hvalid
    · intro es fs h e he f hf
      have := h e he f hf
      omega
  · rintro ⟨hroom, hmeets⟩
    have hruns (es : List Entry) (hes : es ∈ runs log) : Consecutive es := by
      obtain ⟨segment, hsegment, rfl⟩ := hmem hes
      obtain ⟨hnumbered, -⟩ := numbered_of_readLog hlog hsegment
      have hlen := hroom segment hsegment
      by_cases hle : segment.1 ≤ 2 ^ 64
      · exact consecutive_of_contiguous (hnumbered.contiguous (by omega))
      · have hnil : segment.2.entries = [] := by
          apply List.length_eq_zero_iff.1
          omega
        rw [hnil]
        exact List.isChain_nil
    exact ⟨hruns, follows_of_meets hne hruns hgapless (fun es _ f _ => le_max_left _ _) hmeets⟩

/-! ## Two directories -/

/-- The configuration of a small partition. -/
def smallConfig : PartitionConfig where
  id := ⟨List.replicate 16 1, by simp⟩
  dims := 2
  metric := "l2"
  m := 2
  m0 := 4
  efConstruction := 10
  seed := 0
  idempotencyWindow := 8
  ramBudgetBytes := none
  headroomFraction := 0.1
  compactionTombstoneRatio := 0.3
  efSearch := none
  baseSnapshot := false

/-- A logged delete of a key that is not there. -/
def absentDelete (seq : ℕ) : Entry :=
  ⟨seq, ⟨List.replicate 16 (.ofNat seq), by simp⟩, .delete [0x6B]⟩

theorem valid_absentDelete {seq : ℕ} (h : seq < 2 ^ 64) : (absentDelete seq).Valid :=
  ⟨h, (by decide : 0 < 1 ∧ 1 ≤ Wal.maxKeyLen)⟩

theorem wellFormed_deletes {first : ℕ} (hfirst : first < 2 ^ 64 - 1) :
    Wal.WellFormed first [absentDelete first, absentDelete (first + 1)] where
  first_lt := by omega
  valid e he := by
    simp only [List.mem_cons, List.not_mem_nil, or_false] at he
    rcases he with rfl | rfl
    · exact valid_absentDelete (by omega)
    · exact valid_absentDelete (by omega)
  contiguous := ⟨rfl, rfl, trivial⟩

/-- The deletes 1 and 2, and a second segment. -/
def twoSegments (second : ℕ) (later : List Entry) : List (ℕ × List Entry) :=
  [(1, [absentDelete 1, absentDelete 2]), (second, later)]

/-- What is read from the two segments. -/
def twoReads (second : ℕ) (later : List Entry) : List (ℕ × SegmentRead) :=
  (twoSegments second later).map fun seg => (seg.1, ⟨seg.2, none⟩)

/-- The empty state before it replays the two segments. -/
def smallStart : Partition.Replay :=
  ⟨.empty smallConfig .l2, ⟨smallConfig.id, none, 0, [], 0, 0, 0, [], none, 0⟩, false, none⟩

section

variable [Digests] {second : ℕ} {later : List Entry}

/-- The directory of the two segments. -/
def twoFiles (second : ℕ) (later : List Entry) (h : 1 < second) : Dir Bytes where
  files := Wal.filesOf smallConfig.id (twoSegments second later)
  sorted := by simpa [twoSegments, Wal.filesOf] using h

theorem readLog_twoFiles (h : 1 < second) (hlater : Wal.WellFormed second later) :
    readLog smallConfig.id (twoFiles second later h) = .ok (twoReads second later) := by
  apply readLog_filesOf _ rfl
  intro seg hseg
  simp only [twoSegments, List.mem_cons, List.not_mem_nil, or_false] at hseg
  rcases hseg with rfl | rfl
  · exact wellFormed_deletes (by decide)
  · exact hlater

/-- The directory is accepted when its entries are replayed. -/
theorem recovers_two (h : 1 < second) (hlater : Wal.WellFormed second later)
    {replay : Partition.Replay}
    (hreplay : (twoReads second later).foldlM Partition.replayRead smallStart = .ok replay)
    (hhistory : replay.sawHistory = true)
    (hend : replay.walEnd.any (· < replay.report.snapshotHighWater) = false) :
    Partition.recover (some smallConfig) (twoFiles second later h) Dir.empty =
      .ok (replay.partition, { replay.report with highWater := replay.partition.highWater }) :=
  Partition.recover_of_replayReads rfl rfl rfl (readLog_twoFiles h hlater) hreplay hhistory hend

omit [Digests] in
/-- A later segment that starts over is accepted, although its first entry repeats. -/
theorem repeat_is_accepted :
    letI := Digests.standard
    ¬ ∀ (config : PartitionConfig) (wal snap : Dir Bytes) (p : Partition)
      (report : RecoveryReport) (log : List (ℕ × SegmentRead)),
      Partition.recover (some config) wal snap = .ok (p, report) →
        readLog config.id wal = .ok log → Consecutive (entriesRead log) := by
  let _ := Digests.standard
  intro h
  have hlater := @wellFormed_deletes 2 (by decide)
  have hrepeat := h _ _ _ _ _ _ (recovers_two (by decide) hlater rfl rfl rfl)
    (readLog_twoFiles (by decide) hlater)
  obtain ⟨-, hseam⟩ := List.isChain_cons_cons.1 hrepeat
  have : (absentDelete 2).seq = (absentDelete 2).seq + 1 := (List.isChain_cons_cons.1 hseam).1
  omega

omit [Digests] in
/-- Two segments that follow each other. -/
theorem log_consecutive_two :
    letI := Digests.standard
    ∃ log, readLog smallConfig.id (twoFiles 3 [absentDelete 3, absentDelete 4] (by decide)) =
      .ok log ∧ Consecutive (entriesRead log) := by
  let _ := Digests.standard
  have hlater := @wellFormed_deletes 3 (by decide)
  obtain ⟨log, hlog, hiff⟩ := log_consecutive_iff (recovers_two (by decide) hlater rfl rfl rfl)
  have hread := readLog_twoFiles (by decide) hlater
  obtain rfl : _ = log := Except.ok.inj (hread.symm.trans hlog)
  refine ⟨_, hread, hiff.2 ⟨?_, ?_⟩⟩
  · simp [twoReads, twoSegments]
  · refine List.isChain_cons_cons.2 ⟨?_, List.isChain_singleton _⟩
    intro e he f hf
    cases he
    cases hf
    decide

end

end Index

end DistrHnsw
