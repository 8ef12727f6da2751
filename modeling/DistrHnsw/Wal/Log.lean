import DistrHnsw.Wal.Segment

/-!
# Segments that hold a run of entries

`frames es` are the encoded entries in order and `Contiguous first es` says that their sequence
numbers count up from `first`.  Reading a segment whose frames are intact up to some offset is
reading the rest from that offset (`readFrames_frames`), so everything about damage is a statement
about the first unreadable position.
-/

namespace DistrHnsw

namespace Wal

/-- The sequence numbers are `first, first + 1, …`. -/
def Contiguous : ℕ → List Entry → Prop
  | _, [] => True
  | first, e :: es => e.seq = first ∧ Contiguous (first + 1) es

instance decidableContiguous : (first : ℕ) → (es : List Entry) → Decidable (Contiguous first es)
  | _, [] => isTrue trivial
  | first, e :: es =>
    have := decidableContiguous (first + 1) es
    inferInstanceAs (Decidable (e.seq = first ∧ Contiguous (first + 1) es))

theorem contiguous_append {first : ℕ} {es fs : List Entry} :
    Contiguous first (es ++ fs) ↔ Contiguous first es ∧ Contiguous (first + es.length) fs := by
  induction es generalizing first with
  | nil => simp [Contiguous]
  | cons e es ih =>
    have harith : first + 1 + es.length = first + (es.length + 1) := by omega
    simp only [List.cons_append, Contiguous, ih, List.length_cons, harith, and_assoc]

theorem Contiguous.getElem {first : ℕ} {es : List Entry} (h : Contiguous first es) {i : ℕ}
    (hi : i < es.length) : es[i].seq = first + i := by
  induction es generalizing first i with
  | nil => simp at hi
  | cons e es ih =>
    cases i with
    | zero => simpa using h.1
    | succ i =>
      have hi' : i < es.length := by simpa using hi
      rw [List.getElem_cons_succ, ih h.2 hi']
      omega

theorem Contiguous.seq_lt {first : ℕ} {es : List Entry} (h : Contiguous first es) {e : Entry}
    (he : e ∈ es) : first ≤ e.seq ∧ e.seq < first + es.length := by
  obtain ⟨i, hi, rfl⟩ := List.mem_iff_getElem.1 he
  rw [h.getElem hi]
  omega

theorem Contiguous.lastSeq {first : ℕ} {es : List Entry} (h : Contiguous first es)
    (tail : Option (ℕ × ℕ)) :
    (SegmentRead.mk es tail).lastSeq.getD (first - 1) = first + es.length - 1 := by
  rcases List.eq_nil_or_concat es with rfl | ⟨es, e, rfl⟩
  · simp [SegmentRead.lastSeq]
  · rw [List.concat_eq_append] at h ⊢
    have he : e.seq = first + es.length := (contiguous_append.1 h).2.1
    simp [SegmentRead.lastSeq, he]

/-- What a segment named `first` holds: accepted entries numbered from its first sequence. -/
structure WellFormed (first : ℕ) (es : List Entry) : Prop where
  first_lt : first < 2 ^ 64
  valid : ∀ e ∈ es, e.Valid
  contiguous : Contiguous first es

theorem WellFormed.append_left {first : ℕ} {es fs : List Entry}
    (h : WellFormed first (es ++ fs)) : WellFormed first es where
  first_lt := h.first_lt
  valid e he := h.valid e (List.mem_append_left _ he)
  contiguous := (contiguous_append.1 h.contiguous).1

/-- A header makes the file neither short nor all zero. -/
theorem header_not_blank (id : Uuid) (first : ℕ) (rest : Bytes) (active : Bool) :
    ¬ (active = true ∧ ((encodeHeader id first ++ rest).length < headerLen ∨
      (encodeHeader id first ++ rest).all (· == 0) = true)) := by
  have hlen : headerLen ≤ (encodeHeader id first ++ rest).length := by simp
  have hall : (encodeHeader id first ++ rest).all (· == 0) = false := by
    simp [encodeHeader, walMagic]
  rintro ⟨-, h | h⟩
  · omega
  · rw [hall] at h
    cases h

section

variable [Digests]

/-- The encoded entries in order. -/
def frames (es : List Entry) : Bytes := es.flatMap fun e => frameOf e.body

@[simp] theorem frames_nil : frames [] = [] := rfl

@[simp] theorem frames_cons (e : Entry) (es : List Entry) :
    frames (e :: es) = frameOf e.body ++ frames es := rfl

@[simp] theorem frames_append (es fs : List Entry) : frames (es ++ fs) = frames es ++ frames fs :=
  List.flatMap_append

theorem length_frameOf (body : Bytes) : (frameOf body).length = 8 + body.length := by
  simp [frameOf]
  omega

/-! ## An intact frame -/

section Intact

variable {e : Entry} (rest : Bytes)

theorem frameLen_frameOf (h : e.operation.Fits) :
    frameLen (frameOf e.body ++ rest) = some (e.body.length + 4) := by
  have hb := h.frame_len
  have hlt : e.body.length + 4 < 256 ^ 4 := by
    have := hb.2
    unfold maxFrameLen maxKeyLen maxPayloadLen maxDims at this
    omega
  have htake : (frameOf e.body ++ rest).take 4 = toLeBytes 4 (e.body.length + 4) := by
    simp [frameOf]
  have hlen : ¬ (frameOf e.body ++ rest).length < 4 := by
    rw [List.length_append, length_frameOf]
    omega
  simp only [frameLen, if_neg hlen, htake, fromLeBytes_toLeBytes hlt, if_pos hb]

theorem storedCrc_frameOf (body : Bytes) :
    storedCrc (frameOf body ++ rest) = (crc32c body).toNat := by
  have hcrc : (crc32c body).toNat < 256 ^ 4 := (crc32c body).toNat_lt
  have : frameOf body ++ rest = toLeBytes 4 (body.length + 4) ++
      (toLeBytes 4 (crc32c body).toNat ++ (body ++ rest)) := by simp [frameOf]
  rw [storedCrc, this, List.drop_left' (length_toLeBytes _ _),
    List.take_left' (length_toLeBytes _ _), fromLeBytes_toLeBytes hcrc]

theorem frameBody_frameOf (body : Bytes) :
    frameBody (frameOf body ++ rest) (body.length + 4) = body := by
  have : frameOf body ++ rest = (toLeBytes 4 (body.length + 4) ++
      toLeBytes 4 (crc32c body).toNat) ++ (body ++ rest) := by simp [frameOf]
  rw [frameBody, this, List.drop_left' (by simp), List.take_left' (by simp)]

theorem validFrame_frameOf (h : e.operation.Fits) :
    validFrame (frameOf e.body ++ rest) = true := by
  have hlen : 4 + (e.body.length + 4) ≤ (frameOf e.body ++ rest).length := by
    rw [List.length_append, length_frameOf]
    omega
  simp only [validFrame, frameLen_frameOf rest h, hlen, decide_true, frameBody_frameOf,
    storedCrc_frameOf, beq_self_eq_true, Bool.and_self]

/-- The frame of an accepted entry is read back, whatever follows it. -/
theorem parseEntry_frameOf (h : e.Valid) :
    parseEntry (frameOf e.body ++ rest) = .ok (e, (frameOf e.body).length) := by
  have hlen : ¬ (frameOf e.body ++ rest).length < 4 + (e.body.length + 4) := by
    rw [List.length_append, length_frameOf]
    omega
  have h8 : ¬ (frameOf e.body ++ rest).length < 8 := by omega
  simp only [parseEntry, if_neg h8, frameLen_frameOf rest h.fits, if_neg hlen, frameBody_frameOf,
    storedCrc_frameOf, ne_eq, not_true_eq_false, if_false, Entry.decode_body h, length_frameOf]
  congr 2
  omega

end Intact

/-! ## The read loop -/

/-- The sequence number the read loop expects behind some entries. -/
def expectedAfter (expected : ℕ) (es : List Entry) : ℕ := es.foldl (fun n _ => succ64 n) expected

/-- Reading intact contiguous frames only moves the offset past them. -/
theorem readFrames_frames (path : ℕ) (active : Bool) (front tail : Bytes) {expected : ℕ}
    {es : List Entry} (acc : List Entry) (hvalid : ∀ e ∈ es, e.Valid) (hseq : Contiguous expected es) :
    readFrames path active (front ++ frames es ++ tail) front.length expected acc =
      readFrames path active (front ++ frames es ++ tail) (front ++ frames es).length
        (expectedAfter expected es) (acc ++ es) := by
  induction es generalizing front expected acc with
  | nil => simp [expectedAfter]
  | cons e es ih =>
    have he : e.Valid := hvalid e (by simp)
    have hbytes : front ++ frames (e :: es) ++ tail =
        (front ++ frameOf e.body) ++ frames es ++ tail := by simp
    have hparse : parseEntry ((front ++ frames (e :: es) ++ tail).drop front.length) =
        .ok (e, (frameOf e.body).length) := by
      rw [frames_cons, List.append_assoc, List.drop_left, List.append_assoc]
      exact parseEntry_frameOf _ he
    have hlt : front.length < (front ++ frames (e :: es) ++ tail).length := by
      simp only [frames_cons, List.length_append, length_frameOf]
      omega
    have hl : front.length + (frameOf e.body).length = (front ++ frameOf e.body).length := by
      simp
    have hrest : Contiguous (succ64 expected) es := by
      cases es with
      | nil => trivial
      | cons e' es' =>
        have hlt := (hvalid e' (by simp)).seq_lt
        have hseq' : e'.seq = expected + 1 := hseq.2.1
        rw [succ64_of_lt (by omega)]
        exact hseq.2
    rw [readFrames_entry hlt hparse, if_neg (not_not.2 hseq.1), hl, hbytes,
      ih _ _ (fun x hx => hvalid x (List.mem_cons_of_mem _ hx)) hrest]
    simp [expectedAfter]

/-- A segment: its header followed by the frames of its entries. -/
def segmentBytes (id : Uuid) (first : ℕ) (es : List Entry) : Bytes :=
  encodeHeader id first ++ frames es

/-- Reading a segment with intact entries in front is reading what follows them. -/
theorem readSegment_frames {first : ℕ} {es : List Entry} (h : WellFormed first es) (id : Uuid)
    (tail : Bytes) (active : Bool) :
    readSegment first (segmentBytes id first es ++ tail) id active =
      readFrames first active (segmentBytes id first es ++ tail) (segmentBytes id first es).length
        (expectedAfter first es) es := by
  have hblank := header_not_blank id first (frames es ++ tail) active
  have hdecode := decodeHeader_encodeHeader id h.first_lt (frames es ++ tail) first
  have hloop := readFrames_frames first active (encodeHeader id first) tail [] h.valid h.contiguous
  rw [length_encodeHeader, List.nil_append] at hloop
  rw [← List.append_assoc] at hblank hdecode
  simp only [readSegment, segmentBytes, if_neg hblank, hdecode, ok_bind, ne_eq, not_true_eq_false,
    if_false, hloop]

/-- An intact segment is read back, sealed or not. -/
theorem readSegment_segmentBytes {first : ℕ} {es : List Entry} (h : WellFormed first es) (id : Uuid)
    (active : Bool) : readSegment first (segmentBytes id first es) id active = .ok ⟨es, none⟩ := by
  have hread := readSegment_frames h id [] active
  rw [List.append_nil] at hread
  rw [hread]
  exact readFrames_end (Nat.lt_irrefl _)

end

end Wal

end DistrHnsw
