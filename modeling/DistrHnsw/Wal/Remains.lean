import DistrHnsw.Wal.Accepted
import DistrHnsw.Wal.WriterProof

/-!
# What remains of a log

A process that stops, or a machine that stops before a sync returned, leaves the segments of a log
with bytes behind them in which no frame starts, or with a new segment that has no header.  Every
step of the writer passes through such directories, as long as no frame starts inside a piece of the
frame that it writes.
-/

namespace DistrHnsw

namespace Wal

variable [Digests]

/-- The segments of a log; behind them a tail in which no frame starts, or a segment without its
header, which is only alone when the log begins with it. -/
inductive Remains (id : Uuid) (start : ℕ) (log : List Entry) (files : Dir Bytes) : Prop
  | torn {init : List (ℕ × List Entry)} {first : ℕ} {es : List Entry} {tail : Bytes}
      (chain : Chain start (init ++ [(first, es)]))
      (entries : entriesOf (init ++ [(first, es)]) = log) (unreadable : NoValidFrame tail)
      (newest : files.files = filesOf id init ++ [(first, segmentBytes id first es ++ tail)])
  | blank {segs : List (ℕ × List Entry)} {piece : Bytes} (chain : Chain start segs)
      (entries : entriesOf segs = log) (blank : Blank piece) (grounded : segs = [] → start = 1)
      (newest : files.files = filesOf id segs ++ [(start + log.length, piece)])
  | none (start : start = 1) (log : log = []) (files : files.files = [])

/-- No frame starts inside the frame of the entry, wherever it is cut. -/
def Clear (e : Entry) : Prop :=
  ∀ n < (frameOf e.body).length, NoValidFrame ((frameOf e.body).take n)

/-- What a stop of the machine leaves of a directory whose entries below `next` were synced: the bytes
behind them may be any in which no frame starts, and the segment of the next entry may have lost its
header, unless it is the only one. -/
inductive Crashed (id : Uuid) (next : ℕ) (files files' : Dir Bytes) : Prop
  | kept (same : files' = files)
  | tail {init : List (ℕ × Bytes)} {first : ℕ} {es : List Entry} {rest tail : Bytes}
      (synced : WellFormed first es) (next : first + es.length = next)
      (unreadable : NoValidFrame tail)
      (before : files.files = init ++ [(first, segmentBytes id first es ++ rest)])
      (after : files'.files = init ++ [(first, segmentBytes id first es ++ tail)])
  | header {init : List (ℕ × Bytes)} {content piece : Bytes} (blank : Blank piece)
      (grounded : init = [] → next = 1) (before : files.files = init ++ [(next, content)])
      (after : files'.files = init ++ [(next, piece)])

/-! ## Frames -/

/-- The frames of some entries are read in one way. -/
theorem frames_append_inj {es fs : List Entry} {a b : Bytes} (hes : ∀ e ∈ es, e.Valid)
    (hfs : ∀ e ∈ fs, e.Valid) (hlen : es.length = fs.length)
    (h : frames es ++ a = frames fs ++ b) : es = fs ∧ a = b := by
  induction es generalizing fs with
  | nil =>
    obtain rfl : fs = [] := List.length_eq_zero_iff.1 hlen.symm
    exact ⟨rfl, h⟩
  | cons e es ih =>
    cases fs with
    | nil => cases hlen
    | cons f fs =>
      rw [frames_cons, frames_cons, List.append_assoc, List.append_assoc] at h
      have he := parseEntry_frameOf (frames es ++ a) (hes e List.mem_cons_self)
      have hf := parseEntry_frameOf (frames fs ++ b) (hfs f List.mem_cons_self)
      rw [h, hf] at he
      cases he
      obtain ⟨rfl, rfl⟩ := ih (fun x hx => hes x (List.mem_cons_of_mem _ hx))
        (fun x hx => hfs x (List.mem_cons_of_mem _ hx)) (Nat.succ.inj hlen)
        (List.append_cancel_left h)
      exact ⟨rfl, rfl⟩

/-- A segment has its header. -/
theorem not_blank (id : Uuid) (first : ℕ) (es : List Entry) (tail : Bytes) :
    ¬ Blank (segmentBytes id first es ++ tail) := by
  have hnot := header_not_blank id first (frames es ++ tail) true
  rw [← List.append_assoc] at hnot
  exact fun hblank => hnot ⟨rfl, hblank⟩

theorem noValidFrame_nil : NoValidFrame [] := fun offset => by simp [validFrame_nil]

/-- No frame fits into fewer bytes than the shortest one has. -/
theorem noValidFrame_of_short {bytes : Bytes} (h : bytes.length < minFrameLen + 4) :
    NoValidFrame bytes := by
  intro offset
  by_contra hvalid
  have hlen := validFrame_length (by simpa using hvalid)
  rw [List.length_drop] at hlen
  omega

/-- The shortest frames are clear. -/
theorem clear_of_short {e : Entry} (h : (frameOf e.body).length ≤ minFrameLen + 4) : Clear e := by
  intro n hn
  apply noValidFrame_of_short
  rw [List.length_take]
  omega

/-- Only the offsets inside a cut frame count. -/
theorem clear_iff {e : Entry} : Clear e ↔ ∀ n < (frameOf e.body).length, ∀ offset < n,
    validFrame (((frameOf e.body).take n).drop offset) = false := by
  constructor
  · intro h n hn offset _
    exact h n hn offset
  · intro h n hn offset
    by_cases hoffset : offset < n
    · exact h n hn offset hoffset
    · rw [List.drop_eq_nil_of_le (by rw [List.length_take]; omega), validFrame_nil]

/-! ## Remains -/

section

variable {id : Uuid} {start : ℕ} {log grown : List Entry} {files files' : Dir Bytes}
  {segs init : List (ℕ × List Entry)} {es : List Entry} {e : Entry} {w : WalWriter}

omit [Digests] in
theorem Chain.eq_of_last {first : ℕ} (h : Chain start (init ++ [(first, es)])) :
    first = start + (entriesOf init).length :=
  (chain_singleton.1 (chain_append.1 h).2).1

omit [Digests] in
theorem Chain.last_wellFormed {first : ℕ} (h : Chain start (init ++ [(first, es)])) :
    WellFormed first es :=
  (chain_singleton.1 (chain_append.1 h).2).2

omit [Digests] in
theorem Chain.wellFormed (h : Chain start segs) : ∀ seg ∈ segs, WellFormed seg.1 seg.2 := by
  induction segs generalizing start with
  | nil => exact fun _ hseg => absurd hseg List.not_mem_nil
  | cons seg segs ih =>
    obtain ⟨-, hseg, hrest⟩ := h
    intro other hother
    rcases List.mem_cons.1 hother with rfl | hother
    · exact hseg
    · exact ih hrest other hother

/-- A log without a tail remains. -/
theorem Holds.remains (h : Holds id start log files) (hground : files.files = [] → start = 1) :
    Remains id start log files := by
  obtain ⟨segs, hchain, rfl, hfiles⟩ := h
  rcases List.eq_nil_or_concat segs with rfl | ⟨init, ⟨first, es⟩, rfl⟩
  · exact .none (hground hfiles) rfl hfiles
  · rw [List.concat_eq_append] at *
    refine .torn hchain rfl noValidFrame_nil ?_
    rw [hfiles, filesOf_append, filesOf_singleton, List.append_nil]

/-- A new segment is a piece of its header until it is whole. -/
theorem remains_of_header (hchain : Chain start segs) (hentries : entriesOf segs = log)
    (hground : segs = [] → start = 1) (hlt : start + log.length < 2 ^ 64) {piece : Bytes}
    (hpre : piece <+: encodeHeader id (start + log.length))
    (hfiles : files.files = filesOf id segs ++ [(start + log.length, piece)]) :
    Remains id start log files := by
  subst hentries
  have hle := hpre.length_le
  rw [length_encodeHeader] at hle
  rcases hle.lt_or_eq with hshort | hwhole
  · exact .blank hchain rfl (.inl hshort) hground hfiles
  · have hpiece : piece = encodeHeader id (start + (entriesOf segs).length) :=
      hpre.eq_of_length (by rw [hwhole, length_encodeHeader])
    refine .torn (hchain.rotate hlt) (by simp) noValidFrame_nil ?_
    rw [hfiles, hpiece]
    simp [segmentBytes]

/-- Whatever the machine loses, what was synced remains. -/
theorem Remains.crashed (h : Remains id start (log ++ grown) files) (hpos : 0 < start)
    (hc : Crashed id (start + log.length) files files') :
    Remains id start log files' ∨ Remains id start (log ++ grown) files' := by
  cases hc with
  | kept same => exact .inr (same ▸ h)
  | @tail older first synced rest tail hsynced hnext htail hbefore hafter =>
    refine .inl ?_
    cases h with
    | none _ _ hfiles => simp [hfiles] at hbefore
    | @blank segs piece _ _ hblank _ hfiles =>
      obtain ⟨-, hnewest⟩ := List.append_inj' (hfiles.symm.trans hbefore) rfl
      cases hnewest
      exact absurd hblank (not_blank id _ synced rest)
    | @torn init first' es tail' hchain hentries hunreadable hfiles =>
      obtain ⟨rfl, hnewest⟩ := List.append_inj' (hfiles.symm.trans hbefore) rfl
      rw [List.singleton_inj, Prod.mk.injEq] at hnewest
      obtain ⟨rfl, hcontent⟩ := hnewest
      have hwell := hchain.last_wellFormed
      have hfirst := hchain.eq_of_last
      have hlen := congrArg List.length hentries
      simp only [entriesOf_append, entriesOf_cons, entriesOf_nil, List.append_nil, List.length_append]
        at hlen hentries
      rw [← List.take_append_drop synced.length es, segmentBytes, segmentBytes, List.append_assoc,
        List.append_assoc, frames_append, List.append_assoc] at hcontent
      obtain ⟨hsame, -⟩ := frames_append_inj (fun x hx => hwell.valid x (List.mem_of_mem_take hx))
        hsynced.valid (by rw [List.length_take]; omega) (List.append_cancel_left hcontent)
      rw [← List.take_append_drop synced.length es, hsame, ← List.append_assoc] at hentries
      obtain ⟨hlog, -⟩ := List.append_inj hentries (by rw [List.length_append]; omega)
      have hshorter : Chain start (init ++ [(first', synced)]) :=
        chain_append.2 ⟨(chain_append.1 hchain).1, chain_singleton.2 ⟨hfirst, hsynced⟩⟩
      exact .torn hshorter (by simpa using hlog) htail hafter
  | @header older content piece hblank hground hbefore hafter =>
    cases h with
    | none _ _ hfiles => simp [hfiles] at hbefore
    | @blank segs piece' hchain hentries _ hground' hfiles =>
      obtain ⟨rfl, hnewest⟩ := List.append_inj' (hfiles.symm.trans hbefore) rfl
      rw [List.singleton_inj, Prod.mk.injEq] at hnewest
      refine .inr (.blank hchain hentries hblank hground' ?_)
      rw [hafter, hnewest.1]
    | @torn init first es tail hchain hentries hunreadable hfiles =>
      obtain ⟨rfl, hnewest⟩ := List.append_inj' (hfiles.symm.trans hbefore) rfl
      rw [List.singleton_inj, Prod.mk.injEq] at hnewest
      have hfirst := hchain.eq_of_last
      simp only [entriesOf_append, entriesOf_cons, entriesOf_nil, List.append_nil] at hentries
      obtain ⟨hlog, -⟩ := List.append_inj hentries (by omega)
      refine .inl (.blank (chain_append.1 hchain).1 hlog hblank ?_ hafter)
      rintro rfl
      have := hground rfl
      omega

/-! ## The writer -/

/-- The current segment has its header and is the last or the last but one. -/
def NearEnd (path : ℕ) (files : Dir Bytes) : Prop :=
  ∃ front content back, files.files = front ++ (path, content) :: back ∧ back.length ≤ 1 ∧
    ¬ Blank content

/-- A writer that goes on at the end of a log. -/
structure Standing (id : Uuid) (start : ℕ) (log : List Entry) (w : WalWriter)
    (files : Dir Bytes) : Prop where
  partition : w.partitionId = id
  next : w.nextSeq = start + log.length
  live : w.poisoned = false
  atEnd : ∃ init es, AtEnd id start log w files init es

theorem AtEnd.files_eq (h : AtEnd id start log w files init es) :
    files.files = filesOf id init ++ [(w.file, segmentBytes id w.file es)] := by
  simpa using h.files

theorem AtEnd.near (h : AtEnd id start log w files init es) (tail : Bytes)
    {back : List (ℕ × Bytes)} {files' : Dir Bytes}
    (hfiles : files'.files = filesOf id init ++ (w.file, segmentBytes id w.file es ++ tail) :: back)
    (hback : back.length ≤ 1) : NearEnd w.path files' := by
  rw [h.path]
  exact ⟨_, _, back, hfiles, hback, not_blank id w.file es tail⟩

theorem Standing.near (h : Standing id start log w files) : NearEnd w.path files := by
  obtain ⟨init, es, hend⟩ := h.atEnd
  have hfiles := hend.files_eq
  rw [← List.append_nil (segmentBytes id w.file es)] at hfiles
  exact hend.near [] hfiles (Nat.zero_le 1)

theorem AtEnd.remains (h : AtEnd id start log w files init es) : Remains id start log files := by
  refine h.holds.remains fun hempty => ?_
  have hfiles := h.files
  simp [hempty] at hfiles

theorem Standing.remains (h : Standing id start log w files) : Remains id start log files := by
  obtain ⟨init, es, hend⟩ := h.atEnd
  exact hend.remains

theorem Standing.inv (h : Standing id start log w files) : WriterInv id start log w files := by
  obtain ⟨init, es, hend⟩ := h.atEnd
  exact ⟨h.partition, h.next, .clean hend.holds, fun _ => ⟨init, es, hend⟩⟩

/-- Writing a piece of the next frame leaves the log, writing all of it one more entry. -/
theorem AtEnd.remains_piece (h : AtEnd id start log w files init es) (hvalid : e.Valid)
    (hseq : e.seq = start + log.length) (hclear : Clear e) (n : ℕ) :
    Remains id start log (files.modify w.file (· ++ (frameOf e.body).take n)) ∨
      Remains id start (log ++ [e]) (files.modify w.file (· ++ (frameOf e.body).take n)) := by
  by_cases hn : n < (frameOf e.body).length
  · have hfiles : files.files = filesOf id init ++ [(w.file, segmentBytes id w.file es)] := by
      simpa using h.files
    exact .inl (.torn h.chain h.entries (hclear n hn) (Dir.files_modify_last hfiles))
  · rw [List.take_of_length_le (Nat.le_of_not_lt hn)]
    exact .inr (h.snoc hvalid hseq w.nextSeq).remains

/-- A rotation leaves the log as it is, and the old segment in front of at most one other. -/
theorem rotate_remains {d : Device} (h : Standing id start log w d.files)
    (hfull : w.bytes ≥ segmentRotateBytes) (hroom : w.nextSeq < 2 ^ 64) :
    d.Through (fun m => Remains id start log m ∧ NearEnd w.path m) (w.rotate d).2 := by
  obtain ⟨init, es, hend⟩ := h.atEnd
  have hstay : Remains id start log d.files ∧ NearEnd w.path d.files := ⟨h.remains, h.near⟩
  have hsync : d.Through (fun m => Remains id start log m ∧ NearEnd w.path m) d.touch.2 := .touch hstay
  unfold WalWriter.rotate
  refine Device.orFail_rule (Q := fun out => d.Through _ out.2) (fun _ => hsync) fun _ => ?_
  have hcreate := createSegment_spec w.partitionId w.nextSeq
    (P := fun m => Remains id start log m ∧ NearEnd w.path m) (d := d.touch.2)
    (by rw [d.touch_files, h.next, ← hend.entries]
        exact file_lt_of_full hend.chain hend.files (hend.bytes ▸ hfull)) hsync.files
    (by
      rw [h.partition, h.next, d.touch_files]
      intro files' piece hpre hfiles'
      have hnear : files'.files = filesOf id init ++
          (w.file, segmentBytes id w.file es ++ []) :: [(start + log.length, piece)] := by
        rw [hfiles', hend.files_eq, List.append_assoc, List.append_nil]
        rfl
      refine ⟨remains_of_header hend.chain hend.entries (fun hnil => by simp at hnil)
        (h.next ▸ hroom) hpre (hend.files ▸ hfiles'), hend.near [] hnear (Nat.le_refl 1)⟩)
  generalize createSegment d.touch.2 w.partitionId w.nextSeq = created at hcreate
  obtain ⟨result, d1⟩ := created
  obtain ⟨hthrough, -⟩ := hcreate
  cases result with
  | error error => exact hsync.trans hthrough
  | ok path =>
    have hreopen := (hsync.trans hthrough).trans (.touch hthrough.files)
    exact Device.orFail_rule (Q := fun out => d.Through _ out.2) (fun _ => hreopen) fun _ => hreopen

/-- The outcomes of appending `e`: the directory has the log, or the log and the entry; the writer
stands behind the entry, or has refused an entry that does not fit, or is poisoned. -/
structure Grown (id : Uuid) (start : ℕ) (log : List Entry) (e : Entry) (w : WalWriter) (d : Device)
    (out : Except WalError ℕ × WalWriter × Device) : Prop where
  through : d.Through (fun m => Remains id start log m ∨
    e.Valid ∧ Remains id start (log ++ [e]) m) out.2.2
  ok (seq : ℕ) : out.1 = .ok seq → seq = e.seq ∧ e.Valid ∧
    Standing id start (log ++ [e]) out.2.1 out.2.2.files
  failed (error : WalError) : out.1 = .error error → (out.2 = (w, d) ∧ ¬ e.operation.Fits) ∨
    out.2.1.poisoned = true ∧ NearEnd out.2.1.path out.2.2.files

theorem writeFrame_grown {d : Device} (h : Standing id start log w d.files) (hvalid : e.Valid)
    (hseq : e.seq = w.nextSeq) (hroom : w.nextSeq + 1 < 2 ^ 64) (hclear : Clear e) :
    Grown id start log e w d (w.writeFrame d (frameOf e.body)) := by
  obtain ⟨init, es, hend⟩ := h.atEnd
  have hseq' : e.seq = start + log.length := hseq.trans h.next
  have hwrite : d.Through (fun m => Remains id start log m ∨
      e.Valid ∧ Remains id start (log ++ [e]) m) (d.writeAll w.file (frameOf e.body)).2 :=
    .writeAll fun n => (hend.remains_piece hvalid hseq' hclear n).imp_right fun h => ⟨hvalid, h⟩
  obtain ⟨n, hfiles, hall, -⟩ := d.writeAll_spec w.file (frameOf e.body)
  unfold WalWriter.writeFrame
  generalize d.writeAll w.file (frameOf e.body) = written at hwrite hfiles hall
  obtain ⟨done, d1⟩ := written
  cases done with
  | false =>
    refine ⟨hwrite, (fun seq hok => by cases hok), fun _ _ => .inr ⟨rfl, ?_⟩⟩
    have hfiles : d1.files = _ := hfiles
    have hnear : d1.files.files = filesOf id init ++
        [(w.file, segmentBytes id w.file es ++ (frameOf e.body).take n)] := by
      rw [hfiles]
      exact Dir.files_modify_last hend.files_eq
    exact hend.near _ hnear (Nat.zero_le 1)
  | true =>
    refine ⟨hwrite, fun seq hok => ?_, fun _ herror => by cases herror⟩
    have hsnoc := hend.snoc hvalid hseq' (succ64 w.nextSeq)
    rw [hall rfl, List.take_length] at hfiles
    rw [← hfiles] at hsnoc
    cases hok
    refine ⟨hseq.symm, hvalid, h.partition, ?_, h.live, init, _, hsnoc⟩
    show succ64 w.nextSeq = _
    rw [succ64_of_lt hroom, h.next, List.length_append, List.length_singleton, Nat.add_assoc]

theorem appendUnsynced_grown {d : Device} (h : Standing id start log w d.files)
    (hroom : w.nextSeq + 1 < 2 ^ 64) {opId : OpId} {operation : Operation}
    (hclear : Clear ⟨w.nextSeq, opId, operation⟩) :
    Grown id start log ⟨w.nextSeq, opId, operation⟩ w d (w.appendUnsynced d opId operation) := by
  generalize he : Entry.mk w.nextSeq opId operation = e at hclear
  have hstay : d.Through (fun m => Remains id start log m ∨
      e.Valid ∧ Remains id start (log ++ [e]) m) d :=
    .unchanged (.inl h.remains) rfl rfl
  unfold WalWriter.appendUnsynced
  rw [if_neg (by simp [h.live])]
  rw [he]
  have hnext : e.seq = w.nextSeq := by rw [← he]
  cases hencode : e.encode with
  | error error =>
    refine ⟨hstay, (fun seq hok => by cases hok), fun _ _ => .inl ⟨rfl, fun hfits => ?_⟩⟩
    rw [(Entry.encode_ok_iff _ _).2 ⟨hfits, rfl⟩] at hencode
    cases hencode
  | ok frame =>
    obtain ⟨hfits, rfl⟩ := (Entry.encode_ok_iff _ _).1 hencode
    have hvalid : e.Valid := ⟨hnext ▸ Nat.lt_of_succ_lt hroom, hfits⟩
    dsimp only
    split
    · obtain ⟨init, es, hend⟩ := h.atEnd
      have hrotate := rotate_spec h.inv hend ‹_› (Nat.lt_of_succ_lt hroom)
      have hremains := rotate_remains h ‹_› (Nat.lt_of_succ_lt hroom)
      generalize w.rotate d = rotated at hrotate hremains
      obtain ⟨result, d1⟩ := rotated
      obtain ⟨-, hok⟩ := hrotate
      have hthrough : d.Through (fun m => Remains id start log m ∨
          e.Valid ∧ Remains id start (log ++ [e]) m) d1 :=
        ⟨.inl hremains.files.1, fun m hm => (hremains.moments m hm).imp_right fun hm => .inl hm.1⟩
      cases result with
      | error error =>
        exact ⟨hthrough, (fun seq hok => by cases hok), fun _ _ => .inr ⟨rfl, hremains.files.2⟩⟩
      | ok w' =>
        obtain ⟨hend', hsame, hid, hpoisoned⟩ := hok w' rfl
        have h' : Standing id start log w' d1.files := ⟨hid.trans h.partition, hsame.trans h.next,
          hpoisoned.trans h.live, _, _, hend'⟩
        have hgrown := writeFrame_grown h' hvalid (hnext.trans hsame.symm) (hsame ▸ hroom) hclear
        refine ⟨hthrough.trans hgrown.through, hgrown.ok, fun error herror => ?_⟩
        exact .inr ((hgrown.failed error herror).resolve_left fun hsame => hsame.2 hvalid.fits)
    · exact writeFrame_grown h hvalid hnext hroom hclear

/-! ## Opening -/

/-- On a reliable device a writer at the end of its log takes every entry that fits. -/
theorem Standing.appends {d : Device} (h : Standing id start log w d.files) (hreliable : d.faults = [])
    (opId : OpId) {operation : Operation} (hfits : operation.Fits) :
    ∃ w' d', w.appendUnsynced d opId operation = (.ok w.nextSeq, w', d') ∧ d'.faults = [] ∧
      w'.poisoned = false := by
  by_cases hshort : w.bytes < segmentRotateBytes
  · exact WalWriter.appendUnsynced_of_reliable hreliable h.live hshort opId hfits
  · -- the segment is full, and a new one is started
    obtain ⟨init, es, hend⟩ := h.atEnd
    have hnew : ∀ file ∈ d.files.files, file.1 < w.nextSeq := by
      rw [h.next, ← hend.entries]
      exact file_lt_of_full hend.chain hend.files (hend.bytes ▸ Nat.not_lt.1 hshort)
    obtain ⟨d1, hcreate, hd1⟩ := createSegment_of_reliable hreliable w.partitionId hnew
    have hrotate : w.rotate d = (.ok { w with
        file := w.nextSeq, path := w.nextSeq, bytes := headerLen }, d1) := by
      unfold WalWriter.rotate
      rw [Device.touch_of_reliable hreliable, Device.orFail, if_pos rfl]
      dsimp only
      rw [hcreate]
      dsimp only
      rw [Device.touch_of_reliable hd1, Device.orFail, if_pos rfl]
    have hencode := (Entry.encode_ok_iff ⟨w.nextSeq, opId, operation⟩ _).2 ⟨hfits, rfl⟩
    obtain ⟨hdone, hd2, -⟩ := Device.writeAll_of_reliable hd1 w.nextSeq
      (frameOf (Entry.mk w.nextSeq opId operation).body)
    unfold WalWriter.appendUnsynced WalWriter.writeFrame
    rw [h.live, if_neg Bool.false_ne_true, hencode]
    dsimp only
    rw [if_pos (Nat.not_lt.1 hshort), hrotate]
    dsimp only
    generalize d1.writeAll w.nextSeq _ = written at hdone hd2
    obtain ⟨done, d2⟩ := written
    cases hdone
    exact ⟨_, _, rfl, hd2, h.live⟩

section Open

variable {d : Device} {last : ℕ}

/-- What the newest segment of a log says to a writer that goes on behind it: a segment that is full is
named below the next number. -/
theorem extendNewest_of_holds (hlog : Holds id start log d.files)
    (hlast : start + log.length = last + 1) (hroom : last + 1 < 2 ^ 64) :
    ∃ ext, WalWriter.extendNewest d.files id last = .ok ext ∧
      (∀ path bytes, ext = some (path, bytes) → bytes < segmentRotateBytes) ∧
      (ext = none → ∀ file ∈ d.files.files, file.1 < succ64 last) := by
  obtain ⟨segs, hchain, rfl, hfiles⟩ := hlog
  rcases List.eq_nil_or_concat segs with rfl | ⟨init, ⟨first, es⟩, rfl⟩
  · have hempty : d.files.files = [] := hfiles
    refine ⟨none, by simp [WalWriter.extendNewest, hempty], (fun path bytes hext => by cases hext), ?_⟩
    intro _ file hfile
    rw [hempty] at hfile
    cases hfile
  · rw [List.concat_eq_append] at *
    refine ⟨_, extendNewest_of_chain hchain hfiles hlast hroom, fun path bytes hext => ?_, fun hext => ?_⟩
    · split at hext
      · cases hext
        assumption
      · cases hext
    · split at hext
      · cases hext
      · rename_i hfull
        rw [succ64_of_lt hroom, ← hlast]
        exact file_lt_of_full hchain hfiles (Nat.le_of_not_lt hfull)

/-- Opening a log leaves it as it is, and puts the writer at its end. -/
theorem open_remains (hlog : Holds id start log d.files) (hground : d.files.files = [] → start = 1)
    (hlast : start + log.length = last + 1) (hroom : last + 1 < 2 ^ 64) :
    d.Through (Remains id start log) (WalWriter.open d id last).2 ∧
      ∀ w, (WalWriter.open d id last).1 = .ok w →
        Standing id start log w (WalWriter.open d id last).2.files := by
  have hstay := hlog.remains hground
  refine ⟨?_, fun w hopen => ?_⟩
  · obtain ⟨ext, hext, -, hfree⟩ := extendNewest_of_holds hlog hlast hroom
    unfold WalWriter.open
    simp only [hext]
    cases ext with
    | some found =>
      have htouch : d.Through (Remains id start log) d.touch.2 := .touch hstay
      exact Device.orFail_rule (Q := fun out => d.Through _ out.2) (fun _ => htouch) fun _ => htouch
    | none =>
      dsimp only
      have hnext : succ64 last = start + log.length := (succ64_of_lt hroom).trans hlast.symm
      obtain ⟨segs, hchain, hentries, hfiles⟩ := hlog
      have hcreate := createSegment_spec id (succ64 last) (P := Remains id start log) (hfree rfl) hstay
        (by
          rw [hnext]
          intro files' piece hpre hfiles'
          rw [hfiles] at hfiles'
          refine remains_of_header hchain hentries (fun hnil => hground ?_) (hlast ▸ hroom) hpre hfiles'
          rw [hfiles, hnil]
          rfl)
      generalize createSegment d id (succ64 last) = created at hcreate
      obtain ⟨result, d1⟩ := created
      obtain ⟨hthrough, -⟩ := hcreate
      cases result with
      | error error => exact hthrough
      | ok path =>
        have htouch := hthrough.trans (.touch hthrough.files)
        exact Device.orFail_rule (Q := fun out => d.Through _ out.2) (fun _ => htouch) fun _ => htouch
  · obtain ⟨hinv, hlive⟩ := open_spec hlog hlast hroom hopen
    exact ⟨hinv.partition, hinv.next, hlive, hinv.atEnd hlive⟩

/-- On a reliable device the writer opens. -/
theorem exists_open (hreliable : d.faults = []) (hlog : Holds id start log d.files)
    (hlast : start + log.length = last + 1) (hroom : last + 1 < 2 ^ 64) :
    ∃ w d', WalWriter.open d id last = (.ok w, d') := by
  obtain ⟨ext, hext, hshort, hfree⟩ := extendNewest_of_holds hlog hlast hroom
  obtain ⟨w, d', hopen, -⟩ := WalWriter.open_of_reliable hreliable hext hshort hfree
  exact ⟨w, d', hopen⟩

end Open

/-! ## Removing segments -/

section Remove

variable {first next path : ℕ} {content content' : Bytes} {rest : List (ℕ × Bytes)}

theorem AtEnd.erase_first {seg : ℕ × List Entry} (h : AtEnd id start log w files (seg :: init) es) :
    AtEnd id (start + seg.2.length) (log.drop seg.2.length) w (files.erase seg.1) init es where
  chain := h.chain.2.2
  entries := by
    have hentries := h.entries
    rw [List.cons_append, entriesOf_cons] at hentries
    rw [← hentries, List.drop_left]
  files := Dir.files_erase_first h.files
  path := h.path
  bytes := h.bytes

/-- The first of several segments can go when it is not the current one. -/
theorem Standing.erase_first (h : Standing id start log w files)
    (hfiles : files.files = (first, content) :: (next, content') :: rest) :
    Standing id next (log.drop (next - start)) w (files.erase first) := by
  obtain ⟨init, es, hend⟩ := h.atEnd
  have hfront := hend.files_eq
  rw [hfiles] at hfront
  cases init with
  | nil => cases hfront
  | cons seg init =>
    obtain ⟨hhead, htail⟩ := List.cons.inj hfront
    obtain rfl : first = seg.1 := congrArg Prod.fst hhead
    have hnext : next = start + seg.2.length := by
      have hchain := hend.chain.2.2
      cases init with
      | nil =>
        cases htail
        exact hchain.1
      | cons seg' init =>
        cases htail
        exact hchain.1
    have hsub : next - start = seg.2.length := by omega
    rw [hsub, hnext]
    refine ⟨h.partition, ?_, h.live, init, es, hend.erase_first⟩
    have hlen := congrArg List.length hend.entries
    rw [h.next, List.length_drop]
    simp only [List.cons_append, entriesOf_cons, List.length_append] at hlen
    omega

omit [Digests] in
theorem NearEnd.erase_first (h : NearEnd path files) (hfiles : files.files = (first, content) :: rest)
    (hne : first ≠ path) : NearEnd path (files.erase first) := by
  obtain ⟨front, current, back, heq, hback, hheader⟩ := h
  rw [hfiles] at heq
  cases front with
  | nil =>
    cases heq
    exact absurd rfl hne
  | cons file front =>
    obtain ⟨-, hrest⟩ := List.cons.inj heq
    exact ⟨front, current, back, (Dir.files_erase_first hfiles).trans hrest, hback, hheader⟩

/-- The first of several segments can go when it is not the current one. -/
theorem Remains.erase_first (h : Remains id start log files) (hnear : NearEnd path files)
    (hfiles : files.files = (first, content) :: (next, content') :: rest) (hne : first ≠ path) :
    start ≤ next ∧ Remains id next (log.drop (next - start)) (files.erase first) := by
  have herase := Dir.files_erase_first hfiles
  cases h with
  | none _ _ hempty => simp [hfiles] at hempty
  | @torn init last es tail hchain hentries hunreadable hnewest =>
    rw [hnewest] at hfiles
    cases init with
    | nil => cases hfiles
    | cons seg init =>
      obtain ⟨-, htail⟩ := List.cons.inj hfiles
      obtain ⟨-, -, hchain⟩ := hchain
      have hnext : next = start + seg.2.length := by
        cases init with
        | nil =>
          cases htail
          exact hchain.1
        | cons seg' init =>
          cases htail
          exact hchain.1
      subst hnext hentries
      rw [Nat.add_sub_cancel_left, List.cons_append, entriesOf_cons, List.drop_left]
      exact ⟨Nat.le_add_right _ _, .torn hchain rfl hunreadable (herase.trans htail.symm)⟩
  | @blank segs piece hchain hentries hblank hground hnewest =>
    rw [hnewest] at hfiles
    cases segs with
    | nil => cases hfiles
    | cons seg segs =>
      obtain ⟨hhead, htail⟩ := List.cons.inj hfiles
      have hfirst : first = seg.1 := (congrArg Prod.fst hhead).symm
      obtain ⟨-, -, hchain⟩ := hchain
      subst hentries
      rw [entriesOf_cons, List.length_append, ← Nat.add_assoc] at htail hnewest
      cases segs with
      | nil =>
        -- the segment without a header is not the current one
        obtain ⟨front, current, back, heq, hback, hheader⟩ := hnear
        rw [hnewest] at heq
        cases front with
        | nil =>
          cases heq
          exact absurd hfirst hne
        | cons file front =>
          obtain ⟨-, hrest⟩ := List.cons.inj heq
          cases front with
          | nil =>
            cases hrest
            exact absurd hblank hheader
          | cons file' front =>
            have := congrArg List.length hrest
            simp at this
      | cons seg' segs =>
        have hnext : next = start + seg.2.length := by
          cases htail
          exact hchain.1
        subst hnext
        rw [Nat.add_sub_cancel_left, entriesOf_cons, List.drop_left]
        exact ⟨Nat.le_add_right _ _,
          .blank hchain rfl hblank (fun hnil => by cases hnil) (herase.trans htail.symm)⟩

end Remove

end

end Wal

end DistrHnsw
