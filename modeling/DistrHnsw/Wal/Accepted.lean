import DistrHnsw.Wal.Canonical
import DistrHnsw.Wal.TornTail

/-!
# What an accepted segment holds

Whatever bytes a segment is made of: when it is read, its entries are valid and numbered from the
segment's first sequence number, and the bytes in front of its torn tail are read as the same
entries without one, also as a sealed segment.
-/

namespace DistrHnsw

namespace Wal

/-- The numbers count up from `first` and wrap around. -/
def Numbered : ℕ → List Entry → Prop
  | _, [] => True
  | first, e :: es => e.seq = first ∧ Numbered (succ64 first) es

section Numbered

variable {first : ℕ} {e : Entry} {es : List Entry}

/-- Without a wrap the numbers are consecutive. -/
theorem Numbered.contiguous (h : Numbered first es) (hroom : first + es.length ≤ 2 ^ 64) :
    Contiguous first es := by
  induction es generalizing first with
  | nil => trivial
  | cons e es ih =>
    rw [List.length_cons] at hroom
    refine ⟨h.1, ?_⟩
    cases es with
    | nil => trivial
    | cons e' es =>
      rw [List.length_cons] at hroom
      have hnext : succ64 first = first + 1 := succ64_of_lt (by omega)
      have htail := h.2
      rw [hnext] at htail
      exact ih htail (by rw [List.length_cons]; omega)

/-- Numbers below the largest one do not wrap. -/
theorem Numbered.contiguous_of_lt (h : Numbered first es)
    (hlt : ∀ e ∈ es, e.seq + 1 < 2 ^ 64) : Contiguous first es := by
  induction es generalizing first with
  | nil => trivial
  | cons e es ih =>
    have hfirst := hlt e List.mem_cons_self
    rw [h.1] at hfirst
    have htail := h.2
    rw [succ64_of_lt hfirst] at htail
    exact ⟨h.1, ih htail fun x hx => hlt x (List.mem_cons_of_mem _ hx)⟩

/-- The first number of a segment that holds an entry. -/
theorem Numbered.head (h : Numbered first es) (hhead : es.head? = some e) : e.seq = first := by
  cases es with
  | nil => cases hhead
  | cons x es =>
    cases hhead
    exact h.1

end Numbered

section

variable [Digests] {path offset expected : ℕ} {active : Bool} {bytes : Bytes} {acc : List Entry}
  {read : SegmentRead}

/-- Where the read entries end. -/
def SegmentRead.stop (read : SegmentRead) (length : ℕ) : ℕ :=
  (read.tornTail.map Prod.fst).getD length

/-- A frame is read from its own bytes. -/
theorem parseEntry_take {e : Entry} {n stop : ℕ} (h : parseEntry (bytes.drop offset) = .ok (e, n))
    (hstop : offset + n ≤ stop) : parseEntry ((bytes.take stop).drop offset) = .ok (e, n) := by
  obtain ⟨hencode, hvalid⟩ := encode_of_parseEntry h
  have hframe := ((Entry.encode_ok_iff e _).1 hencode).2
  have hlen : (frameOf e.body).length = n := by
    rw [← hframe, List.length_take]
    exact Nat.min_eq_left (parseEntry_consumed h).2
  have hsplit : (bytes.take stop).drop offset =
      frameOf e.body ++ ((bytes.drop offset).take (stop - offset)).drop n := by
    conv_lhs => rw [List.drop_take, ← List.take_append_drop n (List.take _ _)]
    rw [List.take_take, Nat.min_eq_left (by omega), hframe]
  rw [hsplit, parseEntry_frameOf _ hvalid, hlen]

/-- What the read loop adds, and where it stops. -/
structure Accepted (bytes : Bytes) (offset expected : ℕ) (acc : List Entry) (active : Bool)
    (read : SegmentRead) : Prop where
  entries : ∃ es, read.entries = acc ++ es ∧ Numbered expected es ∧ ∀ e ∈ es, e.Valid
  le_stop : offset ≤ read.stop bytes.length
  stop_le : read.stop bytes.length ≤ bytes.length
  sealed : active = false → read.tornTail = none
  reread (path : ℕ) (active : Bool) :
    readFrames path active (bytes.take (read.stop bytes.length)) offset expected acc =
      .ok ⟨read.entries, none⟩

theorem accepted_of_readFrames (h : readFrames path active bytes offset expected acc = .ok read)
    (hle : offset ≤ bytes.length) : Accepted bytes offset expected acc active read := by
  induction offset, expected, acc using readFrames.induct active bytes with
  | case1 offset expected acc hlt entry consumed hparse hgap =>
    rw [readFrames_entry hlt hparse, if_pos hgap] at h
    cases h
  | case2 offset expected acc hlt entry consumed hparse hseq ih =>
    rw [readFrames_entry hlt hparse, if_neg hseq] at h
    have hconsumed := parseEntry_consumed hparse
    rw [List.length_drop] at hconsumed
    have hrest := ih h (by omega)
    have hnext := hrest.le_stop
    obtain ⟨es, hes, hnumbered, hvalid⟩ := hrest.entries
    refine ⟨⟨entry :: es, ?_, ⟨not_not.1 hseq, hnumbered⟩, ?_⟩, by omega, hrest.stop_le,
      hrest.sealed, fun path active => ?_⟩
    · rw [hes, List.append_assoc, List.singleton_append]
    · intro e he
      rcases List.mem_cons.1 he with rfl | he
      · exact (encode_of_parseEntry hparse).2
      · exact hvalid e he
    · have hmin := hconsumed.1
      have hin : offset < (bytes.take (read.stop bytes.length)).length := by
        rw [List.length_take, Nat.min_eq_left hrest.stop_le]
        unfold minFrameLen at hmin
        omega
      rw [readFrames_entry hin (parseEntry_take hparse hnext), if_neg hseq]
      exact hrest.reread path active
  | case3 offset expected acc hlt reason hparse =>
    rw [readFrames_corrupt hlt hparse] at h
    cases h
  | case4 offset expected acc hlt reason hparse hactive =>
    rw [readFrames_unreadable hlt hparse, if_pos hactive] at h
    cases h
  | case5 offset expected acc hlt reason hparse hactive found hfound =>
    rw [readFrames_unreadable hlt hparse, if_neg hactive, hfound] at h
    cases h
  | case6 offset expected acc hlt reason hparse hactive hfound =>
    rw [readFrames_unreadable hlt hparse, if_neg hactive, hfound] at h
    cases h
    refine ⟨⟨[], by simp, trivial, by simp⟩, Nat.le_refl _, hle, ?_, fun path active => ?_⟩
    · intro hsealed
      simp [hsealed] at hactive
    · apply readFrames_end
      rw [List.length_take]
      exact Nat.not_lt.2 (Nat.min_le_left _ _)
  | case7 offset expected acc hend =>
    rw [readFrames_end hend] at h
    cases h
    refine ⟨⟨[], by simp, trivial, by simp⟩, hle, Nat.le_refl _, fun _ => rfl, fun path active => ?_⟩
    apply readFrames_end
    simpa [SegmentRead.stop] using hend

/-- A header that was never written: the newest segment is short or all zero. -/
def Blank (bytes : Bytes) : Prop :=
  bytes.length < headerLen ∨ bytes.all (· == 0) = true

instance (bytes : Bytes) : Decidable (Blank bytes) := inferInstanceAs (Decidable (_ ∨ _))

omit [Digests] in
theorem magic_of_decodeHeader {id : Uuid} {first : ℕ} (h : decodeHeader bytes id path = .ok first) :
    headerLen ≤ bytes.length ∧ bytes.take 4 = walMagic := by
  unfold decodeHeader at h
  split at h
  case isTrue => cases h
  case isFalse hlen =>
    obtain ⟨hmagic, -⟩ := guard_eq_ok.1 h
    exact ⟨Nat.le_of_not_lt hlen, not_not.1 hmagic⟩

omit [Digests] in
/-- A header is read from its own bytes. -/
theorem decodeHeader_take {id : Uuid} {first stop : ℕ}
    (h : decodeHeader bytes id path = .ok first) (hstop : headerLen ≤ stop) :
    decodeHeader (bytes.take stop) id path = .ok first := by
  have hlen := (magic_of_decodeHeader h).1
  have hlen' : ¬ (bytes.take stop).length < headerLen := by
    rw [List.length_take]
    omega
  unfold headerLen at hstop
  have hpart (from_ n : ℕ) (hn : from_ + n ≤ 32) :
      ((bytes.take stop).drop from_).take n = (bytes.drop from_).take n := by
    rw [List.drop_take, List.take_take, Nat.min_eq_left (by omega)]
  have hmagic : (bytes.take stop).take 4 = bytes.take 4 := by
    rw [List.take_take, Nat.min_eq_left (by omega)]
  unfold decodeHeader at h ⊢
  rw [dif_neg (by omega)] at h
  rw [dif_neg hlen']
  simp only [hmagic, hpart 4 2 (by omega), hpart 8 16 (by omega), hpart 24 8 (by omega)]
  exact h

/-- What an accepted segment holds. -/
theorem accepted_of_readSegment {id : Uuid}
    (h : readSegment path bytes id active = .ok read) :
    (active = true ∧ Blank bytes ∧ read = ⟨[], some (0, bytes.length)⟩) ∨
      (¬ Blank bytes ∧ headerLen ≤ bytes.length ∧ path < 2 ^ 64 ∧
        Accepted bytes headerLen path [] active read ∧
        ∀ active, readSegment path (bytes.take (read.stop bytes.length)) id active =
          .ok ⟨read.entries, none⟩) := by
  unfold readSegment at h
  split at h
  case isTrue hblank =>
    cases h
    exact .inl ⟨hblank.1, hblank.2, rfl⟩
  case isFalse =>
    obtain ⟨first, hheader, h⟩ := bind_eq_ok.1 h
    obtain ⟨hname, h⟩ := guard_eq_ok.1 h
    obtain rfl : path = first := not_not.1 hname
    obtain ⟨hlen, hmagic⟩ := magic_of_decodeHeader hheader
    have haccepted := accepted_of_readFrames h hlen
    have hzero {bs : Bytes} (hbs : bs.take 4 = walMagic) : ¬ bs.all (· == 0) = true := by
      intro hall
      have : walMagic.all (· == 0) = true := by
        rw [← hbs]
        exact List.all_eq_true.2 fun b hb => List.all_eq_true.1 hall b (List.mem_of_mem_take hb)
      revert this
      decide
    have hnot {bs : Bytes} (hbs : bs.take 4 = walMagic) (hbs' : headerLen ≤ bs.length) :
        ¬ Blank bs := by
      rintro (hshort | hall)
      · omega
      · exact hzero hbs hall
    refine .inr ⟨hnot hmagic hlen, hlen, ?_, haccepted, fun active => ?_⟩
    · unfold decodeHeader at hheader
      rw [dif_neg (by omega)] at hheader
      obtain ⟨-, hheader⟩ := guard_eq_ok.1 hheader
      obtain ⟨-, hheader⟩ := guard_eq_ok.1 hheader
      obtain ⟨-, hheader⟩ := guard_eq_ok.1 hheader
      cases hheader
      refine Nat.lt_of_lt_of_le (fromLeBytes_lt _) ?_
      exact Nat.pow_le_pow_right (by decide) (List.length_take_le 8 _)
    · have hstop := haccepted.le_stop
      have hcut := haccepted.stop_le
      have hmagic' : (bytes.take (read.stop bytes.length)).take 4 = walMagic := by
        rw [List.take_take, Nat.min_eq_left (by unfold headerLen at hstop; omega), hmagic]
      have hlen' : headerLen ≤ (bytes.take (read.stop bytes.length)).length := by
        rw [List.length_take]
        omega
      have hblank := hnot hmagic' hlen'
      unfold readSegment
      rw [if_neg fun h => hblank h.2, decodeHeader_take hheader hstop, ok_bind,
        if_neg (not_not.2 rfl)]
      exact haccepted.reread path active

/-- The loop that reads nothing is at the end of the bytes. -/
theorem length_le_of_readFrames_nil
    (h : readFrames path active bytes offset expected acc = .ok ⟨acc, none⟩) :
    bytes.length ≤ offset := by
  by_contra hlt
  have hlt : offset < bytes.length := Nat.lt_of_not_le hlt
  cases hparse : parseEntry (bytes.drop offset) with
  | ok parsed =>
    obtain ⟨entry, consumed⟩ := parsed
    rw [readFrames_entry hlt hparse] at h
    obtain ⟨-, h⟩ := guard_eq_ok.1 h
    have hlen := (readFrames_extends h).length_le
    simp only [List.length_append, List.length_singleton] at hlen
    omega
  | error error =>
    cases error with
    | corrupt reason =>
      rw [readFrames_corrupt hlt hparse] at h
      cases h
    | unreadable reason =>
      rw [readFrames_unreadable hlt hparse] at h
      obtain ⟨-, h⟩ := guard_eq_ok.1 h
      split at h
      · cases h
      · cases h

/-- A segment without entries and without a torn tail is its header. -/
theorem length_le_of_readSegment_nil {id : Uuid}
    (h : readSegment path bytes id active = .ok ⟨[], none⟩) : bytes.length ≤ headerLen := by
  unfold readSegment at h
  split at h
  · cases h
  · obtain ⟨first, -, h⟩ := bind_eq_ok.1 h
    obtain ⟨-, h⟩ := guard_eq_ok.1 h
    exact length_le_of_readFrames_nil h

end

end Wal

end DistrHnsw
