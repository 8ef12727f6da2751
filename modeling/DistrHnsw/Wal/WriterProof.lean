import DistrHnsw.Wal.Chain
import DistrHnsw.Wal.TornTail
import DistrHnsw.Wal.Writer

/-!
# The writer keeps the log well formed

`LogShape` describes a directory at any moment: a log in chained segments, followed at the newest
end by at most a prefix of one frame or of one header.  `WriterInv` ties it to the writer's
fields; every call keeps both, whichever of its steps fail.
-/

namespace DistrHnsw

namespace Wal

variable [Digests]

/-- The segments hold `log`, followed at the newest end by at most a piece of one frame or of one
header. -/
inductive LogShape (id : Uuid) (start : ℕ) (log : List Entry) (files : Dir Bytes) : Prop
  | clean (holds : Holds id start log files)
  | frame {init : List (ℕ × List Entry)} {first : ℕ} {es : List Entry} {e : Entry} {piece : Bytes}
      (chain : Chain start (init ++ [(first, es)]))
      (entries : entriesOf (init ++ [(first, es)]) = log)
      (valid : e.Valid) (next : e.seq = start + log.length) (pre : piece <+: frameOf e.body)
      (newest : files.files = filesOf id init ++ [(first, segmentBytes id first es ++ piece)])
  | header {segs : List (ℕ × List Entry)} {piece : Bytes} (chain : Chain start segs)
      (entries : entriesOf segs = log) (pre : piece <+: encodeHeader id (start + log.length))
      (newest : files.files = filesOf id segs ++ [(start + log.length, piece)])

/-- The writer's handle is at the clean end of the log. -/
structure AtEnd (id : Uuid) (start : ℕ) (log : List Entry) (w : WalWriter) (files : Dir Bytes)
    (init : List (ℕ × List Entry)) (es : List Entry) : Prop where
  chain : Chain start (init ++ [(w.file, es)])
  entries : entriesOf (init ++ [(w.file, es)]) = log
  files : files.files = filesOf id (init ++ [(w.file, es)])
  path : w.path = w.file
  bytes : w.bytes = (segmentBytes id w.file es).length

/-- What holds of an open writer between two calls. -/
structure WriterInv (id : Uuid) (start : ℕ) (log : List Entry) (w : WalWriter)
    (files : Dir Bytes) : Prop where
  partition : w.partitionId = id
  next : w.nextSeq = start + log.length
  shape : LogShape id start log files
  atEnd : w.poisoned = false → ∃ init es, AtEnd id start log w files init es

section

variable {id : Uuid} {start : ℕ} {log : List Entry} {w : WalWriter} {files : Dir Bytes}
  {init : List (ℕ × List Entry)} {es : List Entry}

theorem AtEnd.holds (h : AtEnd id start log w files init es) : Holds id start log files :=
  ⟨_, h.chain, h.entries, h.files⟩

/-- The sequence number after a chain whose last segment is `es`. -/
theorem AtEnd.next (h : AtEnd id start log w files init es) :
    start + log.length = w.file + es.length := by
  have hfirst := (chain_singleton.1 (chain_append.1 h.chain).2).1
  rw [← h.entries, hfirst]
  simp [Nat.add_assoc]

/-- Writing a piece of the next frame keeps the shape. -/
theorem AtEnd.shape_piece (h : AtEnd id start log w files init es) {e : Entry} (hvalid : e.Valid)
    (hseq : e.seq = start + log.length) {piece : Bytes} (hpre : piece <+: frameOf e.body) :
    LogShape id start log (files.modify w.file (· ++ piece)) := by
  have hfiles : files.files = filesOf id init ++ [(w.file, segmentBytes id w.file es)] := by
    simpa using h.files
  exact .frame h.chain h.entries hvalid hseq hpre (Dir.files_modify_last hfiles)

/-- The whole frame is one more entry. -/
theorem AtEnd.snoc (h : AtEnd id start log w files init es) {e : Entry} (hvalid : e.Valid)
    (hseq : e.seq = start + log.length) (next : ℕ) :
    AtEnd id start (log ++ [e])
      { w with bytes := w.bytes + (frameOf e.body).length, nextSeq := next }
      (files.modify w.file (· ++ frameOf e.body)) init (es ++ [e]) where
  chain := h.chain.snoc hvalid (h.entries ▸ hseq)
  entries := by
    rw [← h.entries]
    simp
  files := by
    have hfiles : files.files = filesOf id init ++ [(w.file, segmentBytes id w.file es)] := by
      simpa using h.files
    rw [Dir.files_modify_last hfiles, filesOf_append, filesOf_singleton, segmentBytes_snoc]
  path := h.path
  bytes := by simp [segmentBytes_snoc, h.bytes]

theorem WriterInv.poison (h : WriterInv id start log w files) {files' : Dir Bytes}
    (hshape : LogShape id start log files') : WriterInv id start log w.poison files' where
  partition := h.partition
  next := h.next
  shape := hshape
  atEnd hp := by cases hp

end

/-- Once the newest segment is past the rotation size, the next sequence number is a new name. -/
theorem file_lt_of_full {id : Uuid} {start first : ℕ} {init : List (ℕ × List Entry)}
    {es : List Entry} {files : Dir Bytes} (hchain : Chain start (init ++ [(first, es)]))
    (hfiles : files.files = filesOf id (init ++ [(first, es)]))
    (hfull : (segmentBytes id first es).length ≥ segmentRotateBytes) :
    ∀ file ∈ files.files, file.1 < start + (entriesOf (init ++ [(first, es)])).length := by
  have hes : es ≠ [] := by
    rintro rfl
    simp [segmentBytes, segmentRotateBytes, headerLen] at hfull
  have hpos := List.length_pos_of_ne_nil hes
  have hfirst := (chain_singleton.1 (chain_append.1 hchain).2).1
  have hlast : first < start + (entriesOf (init ++ [(first, es)])).length := by
    rw [hfirst]
    simp
    omega
  intro file hfile
  rw [filesOf_append, filesOf_singleton] at hfiles
  rw [hfiles, List.mem_append, List.mem_singleton] at hfile
  rcases hfile with hfile | rfl
  · exact (Dir.lt_of_files_eq hfiles hfile).trans hlast
  · exact hlast

/-! ## Calls -/

section Calls

variable {id : Uuid} {start : ℕ} {log : List Entry} {w : WalWriter} {d : Device}
  {init : List (ℕ × List Entry)} {es : List Entry}

/-- The outcomes of a rotation. -/
def Rotated (id : Uuid) (start : ℕ) (log : List Entry) (w : WalWriter) (d : Device)
    (segs : List (ℕ × List Entry)) (out : Except WalError WalWriter × Device) : Prop :=
  d.Through (LogShape id start log) out.2 ∧ ∀ w', out.1 = .ok w' →
    AtEnd id start log w' out.2.files segs [] ∧ w'.nextSeq = w.nextSeq ∧
      w'.partitionId = w.partitionId ∧ w'.poisoned = w.poisoned

theorem rotate_spec (hw : WriterInv id start log w d.files)
    (h : AtEnd id start log w d.files init es) (hfull : w.bytes ≥ segmentRotateBytes)
    (hroom : w.nextSeq < 2 ^ 64) :
    Rotated id start log w d (init ++ [(w.file, es)]) (w.rotate d) := by
  unfold WalWriter.rotate
  have hsync : d.Through (LogShape id start log) d.touch.2 := .touch hw.shape
  refine Device.orFail_rule (Q := Rotated id start log w d _) (fun _ => ⟨hsync, nofun⟩) fun _ => ?_
  have hcreate := createSegment_spec w.partitionId w.nextSeq
    (P := LogShape id start log) (d := d.touch.2)
    (by rw [d.touch_files, hw.next, ← h.entries]
        exact file_lt_of_full h.chain h.files (h.bytes ▸ hfull)) hsync.files
    (by
      rw [hw.partition, hw.next, d.touch_files]
      intro files' piece hpre hfiles'
      exact .header h.chain h.entries hpre (by rw [hfiles', h.files]))
  generalize createSegment d.touch.2 w.partitionId w.nextSeq = created at hcreate
  obtain ⟨result, d1⟩ := created
  obtain ⟨hthrough, hok⟩ := hcreate
  cases result with
  | error e => exact ⟨hsync.trans hthrough, nofun⟩
  | ok path =>
    have hreopen : d.Through (LogShape id start log) d1.touch.2 :=
      (hsync.trans hthrough).trans (.touch hthrough.files)
    refine Device.orFail_rule (Q := Rotated id start log w d _) (fun _ => ⟨hreopen, nofun⟩)
      fun _ => ⟨hreopen, fun w' hw' => ?_⟩
    cases hw'
    obtain ⟨rfl, hfiles⟩ := hok path rfl
    refine ⟨?_, rfl, rfl, rfl⟩
    have hchain := h.chain.rotate (by rw [h.entries, ← hw.next]; exact hroom)
    rw [h.entries, ← hw.next] at hchain
    refine ⟨hchain, ?_, ?_, rfl, ?_⟩
    · simpa using h.entries
    · rw [d1.touch_files, hfiles, d.touch_files, h.files, hw.partition]
      simp [filesOf, segmentBytes]
    · simp [segmentBytes]

/-- The outcomes of appending `e`: only when the writer counts it is it part of the log. -/
structure Appended (id : Uuid) (start : ℕ) (log : List Entry) (e : Entry) (w : WalWriter)
    (d : Device) (out : Except WalError ℕ × WalWriter × Device) : Prop where
  through : d.Through (LogShape id start log) out.2.2
  inv : ∃ grown, (grown = [] ∧ out.2.1.nextSeq = w.nextSeq ∨
    grown = [e] ∧ out.2.1.nextSeq = w.nextSeq + 1) ∧
      WriterInv id start (log ++ grown) out.2.1 out.2.2.files ∧
      ∀ seq, out.1 = .ok seq → seq = e.seq ∧ grown = [e]

/-- A failure that leaves the count where it was. -/
theorem Appended.failed {e : Entry} {w' : WalWriter} {d' : Device} {error : WalError}
    (hinv : WriterInv id start log w' d'.files) (hnext : w'.nextSeq = w.nextSeq)
    (hthrough : d.Through (LogShape id start log) d') :
    Appended id start log e w d (.error error, w', d') where
  through := hthrough
  inv := ⟨[], .inl ⟨rfl, hnext⟩, by simpa using hinv, nofun⟩

theorem writeFrame_spec (hw : WriterInv id start log w d.files)
    (h : AtEnd id start log w d.files init es) {e : Entry} (hvalid : e.Valid)
    (hseq : e.seq = w.nextSeq) (hroom : w.nextSeq + 1 < 2 ^ 64) :
    Appended id start log e w d (w.writeFrame d (frameOf e.body)) := by
  have hseq' : e.seq = start + log.length := hseq.trans hw.next
  have hwrite : d.Through (LogShape id start log) (d.writeAll w.file (frameOf e.body)).2 :=
    .writeAll fun n => h.shape_piece hvalid hseq' (List.take_prefix n _)
  obtain ⟨n, hfiles, hall, -⟩ := d.writeAll_spec w.file (frameOf e.body)
  unfold WalWriter.writeFrame
  generalize d.writeAll w.file (frameOf e.body) = written at hwrite hfiles hall
  obtain ⟨done, d1⟩ := written
  cases done with
  | false => exact .failed (hw.poison hwrite.files) rfl hwrite
  | true =>
    refine ⟨hwrite, [e], .inr ⟨rfl, succ64_of_lt hroom⟩, ?_, fun seq h => ?_⟩
    · have hend := h.snoc hvalid hseq' (succ64 w.nextSeq)
      rw [hall rfl, List.take_length] at hfiles
      rw [← hfiles] at hend
      refine ⟨hw.partition, ?_, .clean hend.holds, fun _ => ⟨init, _, hend⟩⟩
      simp only [List.length_append, List.length_singleton]
      rw [succ64_of_lt hroom, hw.next, Nat.add_assoc]
    · cases h
      exact ⟨hseq.symm, rfl⟩

theorem appendUnsynced_spec (hw : WriterInv id start log w d.files)
    (hroom : w.nextSeq + 1 < 2 ^ 64) (opId : OpId) (operation : Operation) :
    Appended id start log ⟨w.nextSeq, opId, operation⟩ w d (w.appendUnsynced d opId operation) := by
  unfold WalWriter.appendUnsynced
  have hstay : d.Through (LogShape id start log) d := .unchanged hw.shape rfl rfl
  split
  · exact .failed hw rfl hstay
  have hlive : w.poisoned = false := by simpa using ‹¬ w.poisoned = true›
  obtain ⟨init, es, hend⟩ := hw.atEnd hlive
  cases hencode : Entry.encode ⟨w.nextSeq, opId, operation⟩ with
  | error e => exact .failed hw rfl hstay
  | ok frame =>
    obtain ⟨hfits, rfl⟩ := (Entry.encode_ok_iff _ _).1 hencode
    have hvalid : Entry.Valid ⟨w.nextSeq, opId, operation⟩ := ⟨Nat.lt_of_succ_lt hroom, hfits⟩
    dsimp only
    split
    · have hrotate := rotate_spec hw hend ‹_› (Nat.lt_of_succ_lt hroom)
      generalize w.rotate d = rotated at hrotate
      obtain ⟨result, d1⟩ := rotated
      obtain ⟨hthrough, hok⟩ := hrotate
      cases result with
      | error e => exact .failed (hw.poison hthrough.files) rfl hthrough
      | ok w' =>
        obtain ⟨hend', hnext, hid, hpoisoned⟩ := hok w' rfl
        have hw' : WriterInv id start log w' d1.files :=
          ⟨hid.trans hw.partition, hnext.trans hw.next, hthrough.files, fun _ => ⟨_, _, hend'⟩⟩
        have happ := writeFrame_spec hw' hend' hvalid hnext.symm (hnext ▸ hroom)
        exact ⟨hthrough.trans happ.through, hnext ▸ happ.inv⟩
    · exact writeFrame_spec hw hend hvalid rfl hroom

theorem sync_spec (hw : WriterInv id start log w d.files) :
    WriterInv id start log (w.sync d).2.1 (w.sync d).2.2.files ∧
      (w.sync d).2.1.nextSeq = w.nextSeq := by
  rw [(w.sync_files d).1]
  obtain h | h := w.sync_writer d <;> rw [h]
  · exact ⟨hw, rfl⟩
  · exact ⟨hw.poison hw.shape, rfl⟩

theorem append_spec (hw : WriterInv id start log w d.files) (hroom : w.nextSeq + 1 < 2 ^ 64)
    (opId : OpId) (operation : Operation) :
    Appended id start log ⟨w.nextSeq, opId, operation⟩ w d (w.append d opId operation) := by
  have happ := appendUnsynced_spec hw hroom opId operation
  unfold WalWriter.append
  generalize w.appendUnsynced d opId operation = appended at happ
  obtain ⟨result, w1, d1⟩ := appended
  cases result with
  | error e =>
    obtain ⟨grown, hgrown, hinv, -⟩ := happ.inv
    exact ⟨happ.through, grown, hgrown, hinv, nofun⟩
  | ok seq =>
    obtain ⟨grown, hgrown, hinv, hok⟩ := happ.inv
    obtain ⟨hsync, hnext⟩ := sync_spec hinv
    obtain ⟨hfiles, hmoments⟩ := w1.sync_files d1
    dsimp only at hgrown hsync hnext hok ⊢
    generalize w1.sync d1 = synced at hsync hnext hfiles hmoments
    obtain ⟨result, w2, d2⟩ := synced
    have hthrough : d.Through (LogShape id start log) d2 :=
      happ.through.trans (.unchanged happ.through.files hfiles hmoments)
    cases result with
    | error e => exact ⟨hthrough, grown, hnext ▸ hgrown, hsync, nofun⟩
    | ok _ => exact ⟨hthrough, grown, hnext ▸ hgrown, hsync, hok⟩

end Calls

/-! ## Opening -/

/-- The newest segment of a log is read to its end; it is extended below the rotation size. -/
theorem extendNewest_of_chain {id : Uuid} {start last first : ℕ} {init : List (ℕ × List Entry)}
    {es : List Entry} {files : Dir Bytes} (hchain : Chain start (init ++ [(first, es)]))
    (hfiles : files.files = filesOf id (init ++ [(first, es)]))
    (hlast : start + (entriesOf (init ++ [(first, es)])).length = last + 1)
    (hroom : last + 1 < 2 ^ 64) :
    WalWriter.extendNewest files id last =
      .ok (if (segmentBytes id first es).length < segmentRotateBytes
        then some (first, (segmentBytes id first es).length) else none) := by
  obtain ⟨hfirst, hwell⟩ := chain_singleton.1 (chain_append.1 hchain).2
  have hend : first + es.length = last + 1 := by
    rw [← hlast, hfirst]
    simp [Nat.add_assoc]
  have hnewest : files.files.getLast? = some (first, segmentBytes id first es) := by
    simp [hfiles, filesOf_append]
  have hread : readSegment first (segmentBytes id first es) id true = .ok ⟨es, none⟩ := by
    simpa [tornTailOf] using
      (readSegment_torn_iff hwell id []).2 fun offset => by simp [validFrame_nil]
  have hle : first ≤ succ64 last := by
    rw [succ64_of_lt hroom]
    omega
  have hlastSeq : (SegmentRead.mk es none).lastSeq.getD (pred64 first) = last := by
    rcases List.eq_nil_or_concat es with rfl | ⟨es, e, rfl⟩
    · simp only [SegmentRead.lastSeq, List.getLast?_nil, Option.map_none, Option.getD_none]
      obtain rfl : first = last + 1 := hend
      exact pred64_succ last
    · have hget := hwell.contiguous.lastSeq none
      simp only [SegmentRead.lastSeq, List.concat_eq_append, List.getLast?_append,
        List.getLast?_singleton, Option.some_or, Option.map_some, Option.getD_some] at hget ⊢
      simp only [List.concat_eq_append] at hend
      omega
  simp only [WalWriter.extendNewest, hnewest, if_pos hle, hread, ok_bind, hlastSeq, ne_eq,
    not_true_eq_false, if_false]
  split <;> rfl

/-- Opened on a well-formed log, the writer stands at its clean end. -/
theorem open_spec {id : Uuid} {start last : ℕ} {log : List Entry} {d : Device} {w : WalWriter}
    (hlog : Holds id start log d.files) (hlast : start + log.length = last + 1)
    (hroom : last + 1 < 2 ^ 64) (hopen : (WalWriter.open d id last).1 = .ok w) :
    WriterInv id start log w (WalWriter.open d id last).2.files ∧ w.poisoned = false := by
  have hnext : succ64 last = start + log.length := (succ64_of_lt hroom).trans hlast.symm
  obtain ⟨segs, hchain, rfl, hfiles⟩ := hlog
  -- the writer of a new segment behind the whole log
  have hnew (hlt : ∀ file ∈ d.files.files, file.1 < start + (entriesOf segs).length)
      (hnone : WalWriter.extendNewest d.files id last = .ok none) :
      WriterInv id start (entriesOf segs) w (WalWriter.open d id last).2.files ∧
        w.poisoned = false := by
    have hcreate := createSegment_spec id _ (P := fun _ => True) hlt trivial
      (fun _ _ _ _ => trivial)
    rw [← hnext] at hcreate
    simp only [WalWriter.open, hnone] at hopen ⊢
    generalize createSegment d id (succ64 last) = created at hopen hcreate
    obtain ⟨result, d1⟩ := created
    cases result with
    | error e => cases hopen
    | ok path =>
      obtain ⟨rfl, hfiles1⟩ := hcreate.2 path rfl
      have hchain' := hchain.rotate (hlast ▸ hroom)
      dsimp only at hopen ⊢
      have hpass := Device.orFail_of_ok hopen
      rw [hpass] at hopen ⊢
      cases hopen
      rw [d1.touch_files]
      have hend : AtEnd id start (entriesOf segs)
          ⟨id, succ64 last, succ64 last, headerLen, succ64 last, false⟩ d1.files segs [] := by
        refine ⟨hnext ▸ hchain', by simp, ?_, rfl, by simp [segmentBytes]⟩
        rw [hfiles1, hfiles]
        simp [filesOf, segmentBytes]
      exact ⟨⟨rfl, hnext, .clean hend.holds, fun _ => ⟨_, _, hend⟩⟩, rfl⟩
  rcases List.eq_nil_or_concat segs with rfl | ⟨init, ⟨first, es⟩, rfl⟩
  · have hempty : d.files.files = [] := hfiles
    exact hnew (by simp [hempty]) (by simp [WalWriter.extendNewest, hempty])
  · rw [List.concat_eq_append] at *
    have hextend := extendNewest_of_chain hchain hfiles hlast hroom
    by_cases hfull : (segmentBytes id first es).length < segmentRotateBytes
    · rw [if_pos hfull] at hextend
      simp only [WalWriter.open, hextend] at hopen ⊢
      have hpass := Device.orFail_of_ok hopen
      rw [hpass] at hopen ⊢
      cases hopen
      rw [d.touch_files]
      have hend : AtEnd id start (entriesOf (init ++ [(first, es)]))
          ⟨id, first, first, (segmentBytes id first es).length, succ64 last, false⟩ d.files
          init es := ⟨hchain, rfl, hfiles, rfl, rfl⟩
      exact ⟨⟨rfl, hnext, .clean hend.holds, fun _ => ⟨_, _, hend⟩⟩, rfl⟩
    · rw [if_neg hfull] at hextend
      exact hnew (file_lt_of_full hchain hfiles (Nat.le_of_not_lt hfull)) hextend

end Wal

end DistrHnsw
