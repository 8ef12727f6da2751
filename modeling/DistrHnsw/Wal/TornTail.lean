import DistrHnsw.Wal.Log

/-!
# Torn tails and damage

What `readSegment` makes of bytes behind a run of intact entries.  In the active segment they are
a torn tail exactly when no CRC-valid frame starts anywhere in them (`readSegment_torn_iff`); an
intact frame behind an unreadable one is always found by the byte-by-byte scan, so damage in front
of it fails closed (`readSegment_unreadable_corrupt`).
-/

namespace DistrHnsw

namespace Wal

variable [Digests]

theorem validFrame_nil : validFrame [] = false := rfl

/-- The read loop only extends the entries it was given. -/
theorem readFrames_extends {path : ℕ} {active : Bool} {bytes : Bytes} {offset expected : ℕ}
    {acc : List Entry} {read : SegmentRead}
    (h : readFrames path active bytes offset expected acc = .ok read) : acc <+: read.entries := by
  induction offset, expected, acc using readFrames.induct active bytes with
  | case1 offset expected acc hlt entry consumed hparse hgap =>
    rw [readFrames_entry hlt hparse, if_pos hgap] at h
    cases h
  | case2 offset expected acc hlt entry consumed hparse hseq ih =>
    rw [readFrames_entry hlt hparse, if_neg hseq] at h
    exact (List.prefix_append acc _).trans (ih h)
  | case3 offset expected acc hlt reason hparse =>
    rw [readFrames_corrupt hlt hparse] at h
    cases h
  | case4 offset expected acc hlt reason hparse hactive =>
    rw [readFrames_unreadable hlt hparse, if_pos hactive] at h
    cases h
  | case5 offset expected acc hlt reason hparse hactive found hfound =>
    rw [readFrames_unreadable hlt hparse, if_neg hactive, hfound] at h
    cases h
  | case6 offset expected acc hlt reason hparse hactive hfound =>
    rw [readFrames_unreadable hlt hparse, if_neg hactive, hfound] at h
    cases h
    exact List.prefix_rfl
  | case7 offset expected acc hend =>
    rw [readFrames_end hend] at h
    cases h
    exact List.prefix_rfl

/-! ## Torn tails of the active segment -/

/-- No CRC-valid frame starts at any offset of the bytes. -/
def NoValidFrame (tail : Bytes) : Prop := ∀ offset, validFrame (tail.drop offset) = false

theorem nextValidFrame_tail (front : Bytes) {tail : Bytes} (h : validFrame tail = false) :
    nextValidFrame (front ++ tail) (front.length + 1) = none ↔ NoValidFrame tail := by
  rw [nextValidFrame_eq_none_iff]
  constructor
  · intro hnone offset
    cases offset with
    | zero => simpa using h
    | succ offset =>
      have := hnone (front.length + (offset + 1)) (by omega)
      rwa [List.drop_append, List.drop_of_length_le (by omega), List.nil_append,
        Nat.add_sub_cancel_left] at this
  · intro hnone offset hle
    have := hnone (offset - front.length)
    rwa [List.drop_append, List.drop_of_length_le (by omega), List.nil_append]

/-- What the active segment reports for the bytes behind its entries. -/
def tornTailOf (offset : ℕ) (tail : Bytes) : Option (ℕ × ℕ) :=
  if tail = [] then none else some (offset, tail.length)

/-- Behind intact entries, the rest of the active segment is read as a torn tail (as nothing, when
it is empty) exactly when no CRC-valid frame starts in it. -/
theorem readSegment_torn_iff {first : ℕ} {es : List Entry} (h : WellFormed first es) (id : Uuid)
    (tail : Bytes) :
    readSegment first (segmentBytes id first es ++ tail) id true =
        .ok ⟨es, tornTailOf (segmentBytes id first es).length tail⟩ ↔ NoValidFrame tail := by
  rw [readSegment_frames h]
  generalize segmentBytes id first es = front
  generalize expectedAfter first es = expected
  by_cases htail : tail = []
  · subst htail
    rw [readFrames_end (by simp)]
    simp [tornTailOf, NoValidFrame, validFrame_nil]
  have hlt : front.length < (front ++ tail).length := by
    have := List.length_pos_of_ne_nil htail
    rw [List.length_append]
    omega
  have hdrop : (front ++ tail).drop front.length = tail := List.drop_left
  by_cases hframe : validFrame tail = false
  · obtain ⟨reason, hparse⟩ := parseEntry_of_not_validFrame hframe
    rw [readFrames_unreadable hlt (hdrop.symm ▸ hparse), ← nextValidFrame_tail front hframe]
    cases hnext : nextValidFrame (front ++ tail) (front.length + 1) with
    | none => simp [tornTailOf, htail]
    | some found => simp
  · -- a valid frame right at the front is read as an entry, or refused
    refine ⟨fun hread => ?_, fun hnone => absurd (hnone 0) (by simpa using hframe)⟩
    exfalso
    cases hparse : parseEntry tail with
    | ok parsed =>
      obtain ⟨entry, consumed⟩ := parsed
      rw [readFrames_entry hlt (hdrop.symm ▸ hparse)] at hread
      split at hread
      · cases hread
      · have := (readFrames_extends hread).length_le
        simp only [List.length_append, List.length_singleton] at this
        omega
    | error error =>
      cases error with
      | unreadable reason => exact hframe ((parseEntry_unreadable_iff tail).1 ⟨reason, hparse⟩)
      | corrupt reason =>
        rw [readFrames_corrupt hlt (hdrop.symm ▸ hparse)] at hread
        cases hread

/-! ## Damage in front of an intact entry -/

/-- An unreadable position with an intact frame somewhere behind it, or in a sealed segment, is
corruption. -/
theorem readSegment_unreadable_corrupt {first : ℕ} {es : List Entry} (h : WellFormed first es)
    (id : Uuid) {tail : Bytes} (active : Bool) (hne : tail ≠ []) {reason : String}
    (hparse : parseEntry tail = .error (.unreadable reason))
    (hlater : active = true → ¬ NoValidFrame tail) :
    ∃ detail, readSegment first (segmentBytes id first es ++ tail) id active =
      .error (.corrupt first (segmentBytes id first es).length detail) := by
  rw [readSegment_frames h]
  generalize segmentBytes id first es = front
  have hlt : front.length < (front ++ tail).length := by
    have := List.length_pos_of_ne_nil hne
    rw [List.length_append]
    omega
  have hdrop : (front ++ tail).drop front.length = tail := List.drop_left
  have hframe : validFrame tail = false := (parseEntry_unreadable_iff tail).1 ⟨reason, hparse⟩
  rw [readFrames_unreadable hlt (hdrop.symm ▸ hparse)]
  cases active with
  | false => exact ⟨_, rfl⟩
  | true =>
    cases hnext : nextValidFrame (front ++ tail) (front.length + 1) with
    | none => exact absurd ((nextValidFrame_tail front hframe).1 hnext) (hlater rfl)
    | some found => exact ⟨_, rfl⟩

/-- The scan meets an intact frame wherever it starts. -/
theorem not_noValidFrame_append {e : Entry} (h : e.operation.Fits) (front rest : Bytes) :
    ¬ NoValidFrame (front ++ (frameOf e.body ++ rest)) := by
  intro hnone
  have := hnone front.length
  rw [List.drop_left, validFrame_frameOf rest h] at this
  cases this

/-- Damage in front of an acknowledged entry is never taken for a torn tail.  When the frame of
`e` is replaced by as many bytes that cannot be read as a frame, an entry behind it makes the read
fail in either kind of segment; a sealed segment refuses every unreadable position; so the read
succeeds only for the last frame of the active segment. -/
theorem damage_is_never_a_torn_tail {first : ℕ} {before after : List Entry} {e : Entry}
    (h : WellFormed first (before ++ e :: after)) (id : Uuid) {damaged : Bytes}
    (hlen : damaged.length = (frameOf e.body).length) {reason : String}
    (hparse : parseEntry (damaged ++ frames after) = .error (.unreadable reason)) :
    (after ≠ [] → ∀ active, ∃ detail,
      readSegment first (segmentBytes id first before ++ (damaged ++ frames after)) id active =
        .error (.corrupt first (segmentBytes id first before).length detail)) ∧
    (∀ (es : List Entry) (tail : Bytes) (why : String), WellFormed first es → tail ≠ [] →
      parseEntry tail = .error (.unreadable why) → ∃ detail,
      readSegment first (segmentBytes id first es ++ tail) id false =
        .error (.corrupt first (segmentBytes id first es).length detail)) ∧
    ∀ (active : Bool) (read : SegmentRead),
      readSegment first (segmentBytes id first before ++ (damaged ++ frames after)) id active =
        .ok read → active = true ∧ after = [] := by
  have hbefore : WellFormed first before := h.append_left
  have hne : damaged ++ frames after ≠ [] := by
    intro hnil
    have := congrArg List.length hnil
    rw [List.length_append, hlen, length_frameOf, List.length_nil] at this
    omega
  have hfails : (active : Bool) → (active = true → after ≠ []) → ∃ detail,
      readSegment first (segmentBytes id first before ++ (damaged ++ frames after)) id active =
        .error (.corrupt first (segmentBytes id first before).length detail) := by
    intro active hafter
    refine readSegment_unreadable_corrupt hbefore id active hne hparse fun hactive => ?_
    obtain ⟨e', rest, rfl⟩ := List.exists_cons_of_ne_nil (hafter hactive)
    exact not_noValidFrame_append (h.valid e' (by simp)).fits damaged (frames rest)
  refine ⟨fun hafter active => hfails active fun _ => hafter, ?_, ?_⟩
  · intro es tail why hes htail hwhy
    exact readSegment_unreadable_corrupt hes id false htail hwhy (by simp)
  · intro active read hread
    by_contra hnot
    obtain ⟨detail, herror⟩ := hfails active fun hactive hafter => hnot ⟨hactive, hafter⟩
    rw [hread] at herror
    cases herror

omit [Digests] in
/-- Two deletes, the first one's frame zeroed. -/
theorem damage_is_never_a_torn_tail_zeroed :
    letI := Digests.standard
    let id : Uuid := ⟨List.replicate 16 7, by simp⟩
    let gone : Entry := ⟨1, id, .delete [1]⟩
    let kept : Entry := ⟨2, id, .delete [2]⟩
    ∃ detail, readSegment 1 (segmentBytes id 1 [] ++
      (List.replicate (frameOf gone.body).length 0 ++ frames [kept])) id true =
        .error (.corrupt 1 (segmentBytes id 1 []).length detail) := by
  intro id gone kept
  let _ := Digests.standard
  have hwell : WellFormed 1 ([] ++ gone :: [kept]) :=
    ⟨by decide, by simp only [List.nil_append, List.mem_cons, List.not_mem_nil, or_false,
      forall_eq_or_imp, forall_eq]; exact ⟨⟨by decide, by decide⟩, ⟨by decide, by decide⟩⟩, by decide⟩
  have hlen : (frameOf gone.body).length = 36 := by rw [length_frameOf]; rfl
  have hparse : parseEntry (List.replicate (frameOf gone.body).length 0 ++ frames [kept]) =
      .error (.unreadable "frame length out of range") := by
    rw [hlen]
    simp [parseEntry, frameLen, fromLeBytes, minFrameLen, List.replicate]
  exact (damage_is_never_a_torn_tail hwell id (by simp) hparse).1 (by simp) true

end Wal

end DistrHnsw
