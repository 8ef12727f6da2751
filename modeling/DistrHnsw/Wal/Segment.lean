import DistrHnsw.Wal.Entry

/-!
# Reading one WAL segment

`parseEntry` reads the frame at the front of a byte string and tells a frame whose boundary cannot
be read (`FrameError.unreadable`) from one whose CRC matched but whose body is invalid
(`FrameError.corrupt`).  `readSegment` reads a whole segment: only the active segment may end in a
torn tail, and only when `nextValidFrame` finds no CRC-valid frame at any later byte offset.
-/

namespace DistrHnsw

namespace Wal

/-- `DHWL`. -/
def walMagic : Bytes := [0x44, 0x48, 0x57, 0x4C]

def walVersion : ℕ := 1

def headerLen : ℕ := 32

/-- Rotate to a new segment once the current one exceeds this size. -/
def segmentRotateBytes : ℕ := 64 * 1024 * 1024

/-! ## Headers -/

def encodeHeader (partitionId : Uuid) (firstSeq : ℕ) : Bytes :=
  walMagic ++ (toLeBytes 2 walVersion ++ ([0, 0] ++ (partitionId.1 ++ toLeBytes 8 firstSeq)))

def decodeHeader (bytes : Bytes) (expected : Uuid) (path : ℕ) : Except WalError ℕ :=
  if h : bytes.length < headerLen then .error (.badHeader path "short header")
  else if bytes.take 4 ≠ walMagic then .error (.badHeader path "magic")
  else
    let version := fromLeBytes ((bytes.drop 4).take 2)
    if version ≠ walVersion then .error (.unsupportedVersion version)
    else
      let id : Uuid := ⟨(bytes.drop 8).take 16, by simp only [headerLen] at h; simp; omega⟩
      if id ≠ expected then .error (.wrongPartition path id expected)
      else .ok (fromLeBytes ((bytes.drop 24).take 8))

@[simp] theorem length_encodeHeader (id : Uuid) (first : ℕ) :
    (encodeHeader id first).length = headerLen := by
  simp [encodeHeader, walMagic, id.2, headerLen]

theorem decodeHeader_encodeHeader (id : Uuid) {first : ℕ} (h : first < 2 ^ 64) (rest : Bytes)
    (path : ℕ) : decodeHeader (encodeHeader id first ++ rest) id path = .ok first := by
  have hfirst : first < 256 ^ 8 := h
  have hlen : ¬ (encodeHeader id first ++ rest).length < headerLen := by simp
  have hid : ((encodeHeader id first ++ rest).drop 8).take 16 = id.1 := by
    have : encodeHeader id first ++ rest =
        (walMagic ++ toLeBytes 2 walVersion ++ [0, 0]) ++ (id.1 ++ (toLeBytes 8 first ++ rest)) := by
      simp [encodeHeader]
    rw [this, List.drop_left' (by simp [walMagic]), List.take_left' id.2]
  have hseq : ((encodeHeader id first ++ rest).drop 24).take 8 = toLeBytes 8 first := by
    have : encodeHeader id first ++ rest =
        (walMagic ++ toLeBytes 2 walVersion ++ [0, 0] ++ id.1) ++ (toLeBytes 8 first ++ rest) := by
      simp [encodeHeader]
    rw [this, List.drop_left' (by simp [walMagic, id.2]), List.take_left' (length_toLeBytes 8 first)]
  have hmagic : (encodeHeader id first ++ rest).take 4 = walMagic := by
    simp [encodeHeader, walMagic]
  have hversion : fromLeBytes (((encodeHeader id first ++ rest).drop 4).take 2) = walVersion := by
    simp [encodeHeader, walMagic, toLeBytes, walVersion, fromLeBytes]
  simp only [decodeHeader, dif_neg hlen, hmagic, hversion, hid, hseq, ne_eq, not_true_eq_false,
    if_false, fromLeBytes_toLeBytes hfirst]

/-! ## Frames -/

/-- Why a frame could not be read. -/
inductive FrameError where
  /-- The frame boundary itself is unreadable: a torn tail if nothing valid follows. -/
  | unreadable (reason : String)
  /-- The CRC matched but the body is invalid: never a torn write. -/
  | corrupt (reason : String)
  deriving DecidableEq, Repr

/-- The length field at the front, when it is legal. -/
def frameLen (bytes : Bytes) : Option ℕ :=
  if bytes.length < 4 then none
  else
    let len := fromLeBytes (bytes.take 4)
    if minFrameLen ≤ len ∧ len ≤ maxFrameLen then some len else none

/-- The stored CRC of the frame at the front. -/
def storedCrc (bytes : Bytes) : ℕ := fromLeBytes ((bytes.drop 4).take 4)

/-- The body of the frame at the front, given its length field. -/
def frameBody (bytes : Bytes) (len : ℕ) : Bytes := (bytes.drop 8).take (len - 4)

theorem frameLen_bounds {bytes : Bytes} {len : ℕ} (h : frameLen bytes = some len) :
    minFrameLen ≤ len ∧ len ≤ maxFrameLen := by
  unfold frameLen at h
  split at h
  · cases h
  · dsimp only at h
    split at h
    · cases h; assumption
    · cases h

section

variable [Digests]

def parseEntry (bytes : Bytes) : Except FrameError (Entry × ℕ) :=
  if bytes.length < 8 then .error (.unreadable "short frame")
  else match frameLen bytes with
    | none => .error (.unreadable "frame length out of range")
    | some len =>
      if bytes.length < 4 + len then
        .error (.unreadable "frame runs past the end of the segment")
      else if (crc32c (frameBody bytes len)).toNat ≠ storedCrc bytes then
        .error (.unreadable "crc mismatch")
      else match Entry.decode (frameBody bytes len) with
        | .ok entry => .ok (entry, 4 + len)
        | .error (.malformed reason) => .error (.corrupt reason)
        | .error _ => .error (.corrupt "entry body")

/-- A complete, CRC-valid frame starts at the front. -/
def validFrame (bytes : Bytes) : Bool :=
  match frameLen bytes with
  | none => false
  | some len => decide (4 + len ≤ bytes.length) &&
      (crc32c (frameBody bytes len)).toNat == storedCrc bytes

/-- Offset of the first complete, CRC-valid frame at or after `start`. -/
def nextValidFrame (bytes : Bytes) (start : ℕ) : Option ℕ :=
  (List.range' start (bytes.length - 7 - start)).find? fun offset => validFrame (bytes.drop offset)

/-- A frame is unreadable exactly when no complete CRC-valid frame starts there. -/
theorem parseEntry_unreadable_iff (bytes : Bytes) :
    (∃ reason, parseEntry bytes = .error (.unreadable reason)) ↔ validFrame bytes = false := by
  unfold parseEntry validFrame
  cases hlen : frameLen bytes with
  | none => by_cases h8 : bytes.length < 8 <;> simp [h8]
  | some len =>
    have hmin := (frameLen_bounds hlen).1
    unfold minFrameLen at hmin
    by_cases h8 : bytes.length < 8
    · have : ¬ 4 + len ≤ bytes.length := by omega
      simp [h8, this]
    · by_cases hfit : bytes.length < 4 + len
      · have : ¬ 4 + len ≤ bytes.length := by omega
        simp [h8, hfit, this]
      · have hfit' : 4 + len ≤ bytes.length := by omega
        by_cases hcrc : (crc32c (frameBody bytes len)).toNat = storedCrc bytes
        · simp only [h8, if_false, hfit, hcrc, ne_eq, not_true_eq_false, hfit', decide_true,
            Bool.true_and, beq_self_eq_true, reduceCtorEq, iff_false, not_exists]
          intro reason
          split <;> simp
        · simp [h8, hfit, hcrc, hfit']

theorem parseEntry_of_not_validFrame {bytes : Bytes} (h : validFrame bytes = false) :
    ∃ reason, parseEntry bytes = .error (.unreadable reason) :=
  (parseEntry_unreadable_iff bytes).2 h

theorem validFrame_of_parseEntry {bytes : Bytes} {e : Entry} {n : ℕ}
    (h : parseEntry bytes = .ok (e, n)) : validFrame bytes = true := by
  by_contra hv
  obtain ⟨reason, hr⟩ := parseEntry_of_not_validFrame (Bool.eq_false_iff.2 hv)
  rw [h] at hr
  cases hr

/-- A parsed frame lies inside the bytes and is longer than its own length field. -/
theorem parseEntry_consumed {bytes : Bytes} {e : Entry} {n : ℕ}
    (h : parseEntry bytes = .ok (e, n)) : minFrameLen + 4 ≤ n ∧ n ≤ bytes.length := by
  unfold parseEntry at h
  split at h
  · cases h
  · split at h
    · cases h
    · rename_i len hlen
      have hmin := (frameLen_bounds hlen).1
      split at h
      · cases h
      · split at h
        · cases h
        · split at h
          · cases h
            omega
          · cases h
          · cases h

theorem validFrame_length {bytes : Bytes} (h : validFrame bytes = true) :
    minFrameLen + 4 ≤ bytes.length := by
  unfold validFrame at h
  split at h
  · cases h
  · rename_i len hlen
    have hmin := (frameLen_bounds hlen).1
    simp only [Bool.and_eq_true, decide_eq_true_eq] at h
    omega

/-- The scan finds nothing exactly when no valid frame starts at or after `start`. -/
theorem nextValidFrame_eq_none_iff (bytes : Bytes) (start : ℕ) :
    nextValidFrame bytes start = none ↔
      ∀ offset, start ≤ offset → validFrame (bytes.drop offset) = false := by
  unfold nextValidFrame
  rw [List.find?_eq_none]
  constructor
  · intro h offset hle
    by_contra hv
    have hv : validFrame (bytes.drop offset) = true := by simpa using hv
    have hlen := validFrame_length hv
    unfold minFrameLen at hlen
    rw [List.length_drop] at hlen
    exact h offset (List.mem_range'_1.2 ⟨hle, by omega⟩) hv
  · intro h offset hmem
    rw [h offset (List.mem_range'_1.1 hmem).1]
    exact Bool.false_ne_true

/-! ## Segments -/

/-- Outcome of reading one segment. -/
structure SegmentRead where
  entries : List Entry
  /-- Offset of a torn tail and the bytes after it. -/
  tornTail : Option (ℕ × ℕ)
  deriving DecidableEq, Repr

/-- Sequence of the last intact entry, if any. -/
def SegmentRead.lastSeq (read : SegmentRead) : Option ℕ := read.entries.getLast?.map (·.seq)

/-- The loop of `readSegment` from `offset` on. -/
def readFrames (path : ℕ) (active : Bool) (bytes : Bytes) (offset expected : ℕ)
    (entries : List Entry) : Except WalError SegmentRead :=
  if offset < bytes.length then
    match _hparse : parseEntry (bytes.drop offset) with
    | .ok (entry, consumed) =>
      if entry.seq ≠ expected then .error (.sequenceGap path expected entry.seq)
      else
        readFrames path active bytes (offset + consumed) (succ64 expected)
          (entries ++ [entry])
    | .error (.corrupt reason) => .error (.corrupt path offset reason)
    | .error (.unreadable reason) =>
      if !active then .error (.corrupt path offset (reason ++ " in a sealed segment"))
      else match nextValidFrame bytes (offset + 1) with
        | some found => .error (.corrupt path offset
            (reason ++ ", with a valid entry after it at offset " ++ toString found))
        | none => .ok ⟨entries, some (offset, bytes.length - offset)⟩
  else .ok ⟨entries, none⟩
termination_by bytes.length - offset
decreasing_by
  have := parseEntry_consumed _hparse
  unfold minFrameLen at this
  omega

section Loop

variable {path : ℕ} {active : Bool} {bytes : Bytes} {offset expected : ℕ} {entries : List Entry}

theorem readFrames_end (h : ¬ offset < bytes.length) :
    readFrames path active bytes offset expected entries = .ok ⟨entries, none⟩ := by
  rw [readFrames, if_neg h]

theorem readFrames_entry {entry : Entry} {consumed : ℕ} (hlt : offset < bytes.length)
    (hparse : parseEntry (bytes.drop offset) = .ok (entry, consumed)) :
    readFrames path active bytes offset expected entries =
      if entry.seq ≠ expected then .error (.sequenceGap path expected entry.seq)
      else readFrames path active bytes (offset + consumed) (succ64 expected)
        (entries ++ [entry]) := by
  rw [readFrames, if_pos hlt]
  split
  · rename_i hp
    rw [hparse] at hp
    cases hp
    rfl
  all_goals
    rename_i hp
    rw [hparse] at hp
    cases hp

theorem readFrames_corrupt {reason : String} (hlt : offset < bytes.length)
    (hparse : parseEntry (bytes.drop offset) = .error (.corrupt reason)) :
    readFrames path active bytes offset expected entries = .error (.corrupt path offset reason) := by
  rw [readFrames, if_pos hlt]
  split
  · rename_i hp
    rw [hparse] at hp
    cases hp
  · rename_i hp
    rw [hparse] at hp
    cases hp
    rfl
  · rename_i hp
    rw [hparse] at hp
    cases hp

theorem readFrames_unreadable {reason : String} (hlt : offset < bytes.length)
    (hparse : parseEntry (bytes.drop offset) = .error (.unreadable reason)) :
    readFrames path active bytes offset expected entries =
      if !active then .error (.corrupt path offset (reason ++ " in a sealed segment"))
      else match nextValidFrame bytes (offset + 1) with
        | some found => .error (.corrupt path offset
            (reason ++ ", with a valid entry after it at offset " ++ toString found))
        | none => .ok ⟨entries, some (offset, bytes.length - offset)⟩ := by
  rw [readFrames, if_pos hlt]
  split
  · rename_i hp
    rw [hparse] at hp
    cases hp
  · rename_i hp
    rw [hparse] at hp
    cases hp
  · rename_i hp
    rw [hparse] at hp
    cases hp
    rfl

end Loop

/-- Read the segment whose name holds `path`, validating the header, every CRC and sequence
continuity.  Only the active (newest) segment may end in a torn tail. -/
def readSegment (path : ℕ) (bytes : Bytes) (partitionId : Uuid) (active : Bool) :
    Except WalError SegmentRead :=
  if active = true ∧ (bytes.length < headerLen ∨ bytes.all (· == 0) = true) then
    .ok ⟨[], some (0, bytes.length)⟩
  else do
    let firstSeq ← decodeHeader bytes partitionId path
    if path ≠ firstSeq then
      .error (.badHeader path "first sequence disagrees with the segment name")
    else readFrames path active bytes headerLen firstSeq []

end

end Wal

end DistrHnsw
