import DistrHnsw.Lib.Device
import DistrHnsw.Wal.Log

/-!
# The log writer

`WalWriter` appends entries to the newest segment of a directory on a device whose steps may fail.
Overflow of the sequence counter wraps.  The reopened handle and the path of the current segment
are both names in that directory.
-/

namespace DistrHnsw

namespace Wal

open Device (orFail)

structure WalWriter where
  partitionId : Uuid
  file : ℕ
  path : ℕ
  bytes : ℕ
  nextSeq : ℕ
  poisoned : Bool
  deriving DecidableEq, Repr

/-- Create a segment holding only its header, synced, with the directory synced. -/
def createSegment (d : Device) (partitionId : Uuid) (firstSeq : ℕ) : Except WalError ℕ × Device :=
  orFail (d.createNew firstSeq) WalError.io fun d =>
  orFail (d.writeAll firstSeq (encodeHeader partitionId firstSeq)) WalError.io fun d =>
  orFail d.touch WalError.io fun d =>
  orFail d.touch WalError.io fun d =>
  (.ok firstSeq, d)

/-- The outcomes of creating a segment. -/
def Created (P : Dir Bytes → Prop) (d : Device) (id : Uuid) (first : ℕ)
    (out : Except WalError ℕ × Device) : Prop :=
  d.Through P out.2 ∧ ∀ path, out.1 = .ok path →
    path = first ∧ out.2.files.files = d.files.files ++ [(first, encodeHeader id first)]

/-- A new segment is a piece of its header until it is whole. -/
theorem createSegment_spec {d : Device} (id : Uuid) (first : ℕ) {P : Dir Bytes → Prop}
    (hnew : ∀ file ∈ d.files.files, file.1 < first) (hold : P d.files)
    (hpiece : ∀ files' piece, piece <+: encodeHeader id first →
      files'.files = d.files.files ++ [(first, piece)] → P files') :
    Created P d id first (createSegment d id first) := by
  have hempty : (d.files.put first []).files = d.files.files ++ [(first, [])] :=
    Dir.files_put_last hnew
  unfold createSegment
  have hcreated : d.Through P (d.createNew first).2 :=
    .createNew hold (hpiece _ [] (List.nil_prefix) hempty)
  refine Device.orFail_rule (Q := Created P d id first) (fun _ => ⟨hcreated, nofun⟩) fun hok => ?_
  obtain ⟨hno, -⟩ | ⟨-, hfiles, -⟩ := d.createNew_cases first
  · rw [hok] at hno
    cases hno
  revert hcreated hfiles
  generalize (d.createNew first).2 = d1
  intro hcreated hfiles
  have hwritten (n : ℕ) : (d1.files.modify first (· ++ (encodeHeader id first).take n)).files =
      d.files.files ++ [(first, (encodeHeader id first).take n)] := by
    rw [hfiles, Dir.files_modify_last hempty, List.nil_append]
  have hwrite : d.Through P (d1.writeAll first (encodeHeader id first)).2 :=
    hcreated.trans (.writeAll fun n => hpiece _ _ (List.take_prefix n _) (hwritten n))
  refine Device.orFail_rule (Q := Created P d id first) (fun _ => ⟨hwrite, nofun⟩) fun hok => ?_
  obtain ⟨n, hn, hall, -⟩ := d1.writeAll_spec first (encodeHeader id first)
  have hwhole : (d1.writeAll first (encodeHeader id first)).2.files.files =
      d.files.files ++ [(first, encodeHeader id first)] := by
    rw [hn, hwritten, hall hok, List.take_length]
  revert hwrite hwhole
  generalize (d1.writeAll first (encodeHeader id first)).2 = d2
  intro hwrite hwhole
  have hsynced : d.Through P d2.touch.2 := hwrite.trans (.touch hwrite.files)
  refine Device.orFail_rule (Q := Created P d id first) (fun _ => ⟨hsynced, nofun⟩) fun _ => ?_
  have hsynced2 : d.Through P d2.touch.2.touch.2 := hsynced.trans (.touch hsynced.files)
  refine Device.orFail_rule (Q := Created P d id first) (fun _ => ⟨hsynced2, nofun⟩) fun _ => ?_
  refine ⟨hsynced2, fun path hpath => ?_⟩
  cases hpath
  exact ⟨rfl, by simpa using hwhole⟩

/-- A reliable device takes a new segment. -/
theorem createSegment_of_reliable {d : Device} (h : d.faults = []) (id : Uuid) {first : ℕ}
    (hnew : ∀ file ∈ d.files.files, file.1 < first) :
    ∃ d', createSegment d id first = (.ok first, d') ∧ d'.faults = [] := by
  have hcreate := Device.createNew_of_reliable h (Dir.get?_eq_none_of_lt hnew)
  unfold createSegment
  rw [hcreate, orFail, if_pos rfl]
  dsimp only
  generalize hd1 : ({ d with
    files := d.files.put first [], moments := d.moments ++ [d.files.put first []] } : Device) = d1
  have h1 : d1.faults = [] := by rw [← hd1]; exact h
  obtain ⟨hdone, h2, -⟩ := Device.writeAll_of_reliable h1 first (encodeHeader id first)
  rw [orFail, if_pos hdone, Device.touch_of_reliable h2, orFail, if_pos rfl,
    Device.touch_of_reliable h2, orFail, if_pos rfl]
  exact ⟨_, rfl, h2⟩

namespace WalWriter

section

variable [Digests]

/-- What `open` does with the newest segment: its name and length when it can be extended. -/
def extendNewest (files : Dir Bytes) (partitionId : Uuid) (lastSeq : ℕ) :
    Except WalError (Option (ℕ × ℕ)) :=
  let nextSeq := succ64 lastSeq
  match files.files.getLast? with
  | none => .ok none
  | some (first, content) =>
    if first ≤ nextSeq then do
      let read ← readSegment first content partitionId true
      match read.tornTail with
      | some (offset, _) =>
        .error (.corrupt first offset "torn tail not yet repaired by recovery")
      | none =>
        let last := read.lastSeq.getD (pred64 first)
        if last ≠ lastSeq then .error (.sequenceGap first nextSeq (succ64 last))
        else if content.length < segmentRotateBytes then .ok (some (first, content.length))
        else .ok none
    else .error (.sequenceGap first nextSeq first)

/-- Open the writer positioned after `lastSeq`. -/
def «open» (d : Device) (partitionId : Uuid) (lastSeq : ℕ) : Except WalError WalWriter × Device :=
  let nextSeq := succ64 lastSeq
  match extendNewest d.files partitionId lastSeq with
  | .error e => (.error e, d)
  | .ok (some (path, bytes)) =>
    orFail d.touch WalError.io fun d => (.ok ⟨partitionId, path, path, bytes, nextSeq, false⟩, d)
  | .ok none =>
    match createSegment d partitionId nextSeq with
    | (.error e, d) => (.error e, d)
    | (.ok path, d) =>
      orFail d.touch WalError.io fun d =>
        (.ok ⟨partitionId, path, path, headerLen, nextSeq, false⟩, d)

/-- The newest segment is extended when it ends at the last number, without a torn tail. -/
theorem extendNewest_eq_ok {files : Dir Bytes} {init : List (ℕ × Bytes)} {id : Uuid}
    {last first : ℕ} {content : Bytes} {ext : Option (ℕ × ℕ)}
    (hfiles : files.files = init ++ [(first, content)]) :
    extendNewest files id last = .ok ext ↔ first ≤ succ64 last ∧
      ∃ read, readSegment first content id true = .ok read ∧ read.tornTail = none ∧
        read.lastSeq.getD (pred64 first) = last ∧
        ext = if content.length < segmentRotateBytes then some (first, content.length) else none := by
  unfold extendNewest
  simp only [hfiles, List.getLast?_concat]
  by_cases hle : first ≤ succ64 last
  · rw [if_pos hle]
    cases readSegment first content id true with
    | error e => simp
    | ok read =>
      cases htail : read.tornTail with
      | some tail => simp [htail]
      | none =>
        by_cases hlast : read.lastSeq.getD (pred64 first) = last
        · by_cases hshort : content.length < segmentRotateBytes <;>
            simp [htail, hlast, hshort, hle, eq_comm]
        · simp [htail, hlast]
  · simp [hle]

/-- A writer that opened found the newest segment in order and counts on from the last number. -/
theorem of_open {d d' : Device} {id : Uuid} {last : ℕ} {w : WalWriter}
    (h : WalWriter.open d id last = (.ok w, d')) :
    w.nextSeq = succ64 last ∧ ∃ ext, extendNewest d.files id last = .ok ext := by
  unfold WalWriter.open at h
  dsimp only at h
  split at h
  case h_1 => cases h
  case h_2 path bytes hext =>
    have hdone := congrArg Prod.fst h
    rw [Device.orFail_of_ok hdone] at h
    cases h
    exact ⟨rfl, _, hext⟩
  case h_3 hext =>
    split at h
    case h_1 => cases h
    case h_2 =>
      have hdone := congrArg Prod.fst h
      rw [Device.orFail_of_ok hdone] at h
      cases h
      exact ⟨rfl, _, hext⟩

/-- On a reliable device the writer opens when the newest segment can be extended or followed. -/
theorem open_of_reliable {d : Device} (h : d.faults = []) {id : Uuid} {last : ℕ}
    {ext : Option (ℕ × ℕ)} (hext : extendNewest d.files id last = .ok ext)
    (hshort : ∀ path bytes, ext = some (path, bytes) → bytes < segmentRotateBytes)
    (hfree : ext = none → ∀ file ∈ d.files.files, file.1 < succ64 last) :
    ∃ w d', WalWriter.open d id last = (.ok w, d') ∧ d'.faults = [] ∧
      w.nextSeq = succ64 last ∧ w.poisoned = false ∧ w.bytes < segmentRotateBytes := by
  unfold WalWriter.open
  simp only [hext]
  cases ext with
  | some found =>
    obtain ⟨path, bytes⟩ := found
    dsimp only
    rw [Device.touch_of_reliable h, orFail, if_pos rfl]
    exact ⟨_, _, rfl, h, rfl, rfl, hshort path bytes rfl⟩
  | none =>
    obtain ⟨d', hcreate, hd'⟩ := createSegment_of_reliable h id (hfree rfl)
    simp only [hcreate]
    rw [Device.touch_of_reliable hd', orFail, if_pos rfl]
    exact ⟨_, _, rfl, hd', rfl, rfl, (by decide : headerLen < segmentRotateBytes)⟩

end

/-- Refuse every later append. -/
def poison (w : WalWriter) : WalWriter := { w with poisoned := true }

/-- Seal the current segment and start the next one. -/
def rotate (w : WalWriter) (d : Device) : Except WalError WalWriter × Device :=
  orFail d.touch WalError.io fun d =>
  match createSegment d w.partitionId w.nextSeq with
  | (.error e, d) => (.error e, d)
  | (.ok path, d) =>
    orFail d.touch WalError.io fun d =>
      (.ok { w with file := path, path, bytes := headerLen }, d)

/-- Write one frame and count it. -/
def writeFrame (w : WalWriter) (d : Device) (frame : Bytes) :
    Except WalError ℕ × WalWriter × Device :=
  match d.writeAll w.file frame with
  | (false, d) => (.error .io, w.poison, d)
  | (true, d) =>
    (.ok w.nextSeq,
      { w with bytes := w.bytes + frame.length, nextSeq := succ64 w.nextSeq }, d)

def sync (w : WalWriter) (d : Device) : Except WalError Unit × WalWriter × Device :=
  if w.poisoned then (.error .poisoned, w, d)
  else match d.touch with
    | (false, d) => (.error .io, w.poison, d)
    | (true, d) => (.ok (), w, d)

theorem sync_files (w : WalWriter) (d : Device) :
    (w.sync d).2.2.files = d.files ∧ (w.sync d).2.2.moments = d.moments := by
  have hfiles := d.touch_files
  have hmoments := d.touch_moments
  unfold sync
  split
  · exact ⟨rfl, rfl⟩
  generalize d.touch = synced at hfiles hmoments
  obtain ⟨done, d1⟩ := synced
  cases done <;> exact ⟨hfiles, hmoments⟩

/-- Rotating keeps the counter. -/
theorem rotate_ok {w w' : WalWriter} {d d' : Device} (h : w.rotate d = (.ok w', d')) :
    w'.nextSeq = w.nextSeq ∧ w'.poisoned = w.poisoned := by
  unfold rotate at h
  rw [Device.orFail_of_ok (congrArg Prod.fst h)] at h
  split at h
  · cases h
  · rw [Device.orFail_of_ok (congrArg Prod.fst h)] at h
    cases h
    exact ⟨rfl, rfl⟩

/-- A frame is counted, or the writer is poisoned. -/
theorem writeFrame_cases (w : WalWriter) (d : Device) (frame : Bytes) :
    (∃ w' d', w.writeFrame d frame = (.ok w.nextSeq, w', d') ∧ w'.nextSeq = succ64 w.nextSeq) ∨
    ∃ e d', w.writeFrame d frame = (.error e, w.poison, d') := by
  unfold writeFrame
  split
  · exact .inr ⟨_, _, rfl⟩
  · exact .inl ⟨_, _, rfl, rfl⟩

/-- A sync that succeeds leaves the writer as it was. -/
theorem sync_cases (w : WalWriter) (d : Device) :
    (∃ d', w.sync d = (.ok (), w, d')) ∨ ∃ e w' d', w.sync d = (.error e, w', d') := by
  unfold sync
  split
  · exact .inr ⟨_, _, _, rfl⟩
  · split
    · exact .inr ⟨_, _, _, rfl⟩
    · exact .inl ⟨_, rfl⟩

/-- A sync changes at most the poisoned flag. -/
theorem sync_writer (w : WalWriter) (d : Device) :
    (w.sync d).2.1 = w ∨ (w.sync d).2.1 = w.poison := by
  unfold sync
  split
  · exact .inl rfl
  generalize d.touch = synced
  obtain ⟨done, d1⟩ := synced
  cases done
  · exact .inr rfl
  · exact .inl rfl

variable [Digests]

/-- Append without syncing. -/
def appendUnsynced (w : WalWriter) (d : Device) (opId : OpId) (operation : Operation) :
    Except WalError ℕ × WalWriter × Device :=
  if w.poisoned then (.error .poisoned, w, d)
  else match Entry.encode ⟨w.nextSeq, opId, operation⟩ with
    | .error e => (.error e, w, d)
    | .ok frame =>
      if w.bytes ≥ segmentRotateBytes then
        match w.rotate d with
        | (.error e, d) => (.error e, w.poison, d)
        | (.ok w, d) => w.writeFrame d frame
      else w.writeFrame d frame

/-- An append takes the next number, or leaves the writer as it was or poisoned. -/
theorem appendUnsynced_cases (w : WalWriter) (d : Device) (opId : OpId)
    (operation : Operation) :
    (∃ w' d', w.appendUnsynced d opId operation = (.ok w.nextSeq, w', d') ∧
      w.poisoned = false ∧ w'.nextSeq = succ64 w.nextSeq) ∨
    ∃ e w' d', w.appendUnsynced d opId operation = (.error e, w', d') ∧
      (w' = w ∨ w'.poisoned = true) := by
  unfold appendUnsynced
  by_cases hpoisoned : w.poisoned = true
  · rw [if_pos hpoisoned]
    exact .inr ⟨_, _, _, rfl, .inl rfl⟩
  rw [if_neg hpoisoned, Bool.not_eq_true] at *
  cases Entry.encode ⟨w.nextSeq, opId, operation⟩ with
  | error e => exact .inr ⟨_, _, _, rfl, .inl rfl⟩
  | ok frame =>
    dsimp only
    split
    · split
      · exact .inr ⟨_, _, _, rfl, .inr rfl⟩
      · rename_i w₁ d₁ hrotate
        obtain ⟨hnext, -⟩ := rotate_ok hrotate
        rw [← hnext]
        obtain ⟨w', d', hok, hw'⟩ | ⟨e, d', herror⟩ := writeFrame_cases w₁ d₁ frame
        · exact .inl ⟨w', d', hok, hpoisoned, hw'⟩
        · exact .inr ⟨e, _, d', herror, .inr rfl⟩
    · obtain ⟨w', d', hok, hw'⟩ | ⟨e, d', herror⟩ := writeFrame_cases w d frame
      · exact .inl ⟨w', d', hok, hpoisoned, hw'⟩
      · exact .inr ⟨e, _, d', herror, .inr rfl⟩

/-- Append one operation and sync it. -/
def append (w : WalWriter) (d : Device) (opId : OpId) (operation : Operation) :
    Except WalError ℕ × WalWriter × Device :=
  match w.appendUnsynced d opId operation with
  | (.error e, w, d) => (.error e, w, d)
  | (.ok seq, w, d) =>
    match w.sync d with
    | (.error e, w, d) => (.error e, w, d)
    | (.ok (), w, d) => (.ok seq, w, d)

/-- On a reliable device an accepted entry is appended in the current segment. -/
theorem appendUnsynced_of_reliable {w : WalWriter} {d : Device} (h : d.faults = [])
    (hpoisoned : w.poisoned = false) (hshort : w.bytes < segmentRotateBytes) (opId : OpId)
    {operation : Operation} (hfits : operation.Fits) :
    ∃ w' d', w.appendUnsynced d opId operation = (.ok w.nextSeq, w', d') ∧ d'.faults = [] ∧
      w'.poisoned = false := by
  have hencode := (Entry.encode_ok_iff ⟨w.nextSeq, opId, operation⟩ _).2 ⟨hfits, rfl⟩
  obtain ⟨hdone, hd', -⟩ := Device.writeAll_of_reliable h w.file
    (frameOf (Entry.mk w.nextSeq opId operation).body)
  unfold appendUnsynced writeFrame
  rw [if_neg (by simp [hpoisoned])]
  simp only [hencode, if_neg (Nat.not_le.2 hshort)]
  generalize d.writeAll w.file _ = written at hdone hd'
  obtain ⟨done, d'⟩ := written
  cases hdone
  exact ⟨_, _, rfl, hd', hpoisoned⟩

/-- A call on the writer. -/
inductive Call where
  | appendUnsynced (opId : OpId) (operation : Operation)
  | append (opId : OpId) (operation : Operation)
  | sync
  | poison
  deriving DecidableEq, Repr

/-- The operation a call wants logged. -/
def Call.request : Call → Option (OpId × Operation)
  | appendUnsynced opId operation | append opId operation => some (opId, operation)
  | sync | poison => none

/-- Make a call; an append that succeeds returns its sequence number. -/
def call (w : WalWriter) (d : Device) :
    Call → Except WalError (Option ℕ) × WalWriter × Device
  | .appendUnsynced opId operation =>
    let (result, w, d) := w.appendUnsynced d opId operation
    (result.map some, w, d)
  | .append opId operation =>
    let (result, w, d) := w.append d opId operation
    (result.map some, w, d)
  | .sync =>
    let (result, w, d) := w.sync d
    (result.map fun _ => none, w, d)
  | .poison => (.ok none, w.poison, d)

end WalWriter

end Wal

end DistrHnsw
