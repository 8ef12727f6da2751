import DistrHnsw.Wal.Log

/-!
# One encoding for each entry

`Entry.encode` and `parseEntry` are inverse to each other.  What the encoder accepts is parsed back
whatever follows it, and a parsed frame is byte for byte what the encoder writes for the entry it
holds: no two frames decode to one entry.
-/

namespace DistrHnsw

namespace Wal

/-! ## Reading takes the encoding off the front -/

section Fields

variable {n w value : ℕ} {reader rest front : Bytes} {id : OpId}

theorem take_eq_ok (h : take n reader = .ok (front, rest)) :
    reader = front ++ rest ∧ front.length = n := by
  unfold take at h
  split at h
  case h_1 out hout =>
    cases h
    exact takeBytes_eq_some hout
  case h_2 => cases h

theorem word_eq_ok (h : word w reader = .ok (value, rest)) :
    reader = toLeBytes w value ++ rest ∧ value < 256 ^ w := by
  obtain ⟨⟨bytes, rest'⟩, htake, hvalue⟩ := bind_eq_ok.1 h
  cases hvalue
  obtain ⟨hreader, hlen⟩ := take_eq_ok htake
  constructor
  · rw [hreader, ← hlen, toLeBytes_fromLeBytes]
  · rw [← hlen]
    exact fromLeBytes_lt bytes

theorem takeId_eq_ok (h : takeId reader = .ok (id, rest)) : reader = id.1 ++ rest := by
  unfold takeId at h
  split at h
  case h_1 hid =>
    cases h
    exact (takeBytes_eq_some hid).1
  case h_2 => cases h

end Fields

/-- The fields behind the key are the ones the encoder writes there. -/
theorem decodeOperation_eq_ok {op : ℕ} {key reader rest : Bytes} {o : Operation}
    (h : decodeOperation op key reader = .ok (o, rest)) (hkey : checkKey key = .ok ()) :
    o.code = op ∧ o.key = key ∧ reader = o.rest ++ rest ∧ o.Fits := by
  rw [checkKey_ok_iff] at hkey
  unfold decodeOperation at h
  split at h
  case h_1 =>
    obtain ⟨⟨payloadLen, reader₁⟩, hlen, h⟩ := bind_eq_ok.1 h
    obtain ⟨hpayload_le, h⟩ := guard_eq_ok.1 h
    obtain ⟨⟨payload, reader₂⟩, hpayload, h⟩ := bind_eq_ok.1 h
    obtain ⟨⟨dims, reader₃⟩, hdims, h⟩ := bind_eq_ok.1 h
    obtain ⟨hdims_le, h⟩ := guard_eq_ok.1 h
    obtain ⟨⟨raw, reader₄⟩, hraw, h⟩ := bind_eq_ok.1 h
    cases h
    have hcount : (F32.manyOfLe raw).length = dims := by
      rw [F32.length_manyOfLe, (take_eq_ok hraw).2]
      omega
    refine ⟨rfl, rfl, ?_, hkey, ?_, ?_, ?_⟩
    · show reader = toLeBytes 4 payload.length ++ (payload ++
        (toLeBytes 4 (F32.manyOfLe raw).length ++ F32.manyToLe (F32.manyOfLe raw))) ++ rest
      rw [(word_eq_ok hlen).1, (take_eq_ok hpayload).1, (word_eq_ok hdims).1, (take_eq_ok hraw).1,
        hcount, F32.manyToLe_manyOfLe (take_eq_ok hraw).2, (take_eq_ok hpayload).2]
      simp only [List.append_assoc]
    · rw [(take_eq_ok hpayload).2]
      omega
    · omega
    · omega
  case h_2 =>
    cases h
    exact ⟨rfl, rfl, rfl, hkey⟩
  case h_3 => cases h

/-- A body that decodes is the body of the entry it decodes to. -/
theorem Entry.body_of_decode {body : Bytes} {e : Entry} (h : Entry.decode body = .ok e) :
    e.body = body ∧ e.Valid := by
  unfold Entry.decode at h
  obtain ⟨⟨seq, reader₁⟩, hseq, h⟩ := bind_eq_ok.1 h
  obtain ⟨⟨id, reader₂⟩, hid, h⟩ := bind_eq_ok.1 h
  obtain ⟨⟨op, reader₃⟩, hop, h⟩ := bind_eq_ok.1 h
  obtain ⟨⟨keyLen, reader₄⟩, hlen, h⟩ := bind_eq_ok.1 h
  obtain ⟨⟨key, reader₅⟩, hkey, h⟩ := bind_eq_ok.1 h
  obtain ⟨hcheck, h⟩ := check_bind_eq_ok.1 h
  obtain ⟨⟨o, reader₆⟩, ho, h⟩ := bind_eq_ok.1 h
  obtain ⟨hend, h⟩ := guard_eq_ok.1 h
  cases h
  obtain ⟨rfl, rfl, hrest, hfits⟩ := decodeOperation_eq_ok ho hcheck
  have hnil : reader₆ = [] := by simpa using hend
  constructor
  · simp only [Entry.body, Operation.body_eq]
    rw [(word_eq_ok hseq).1, takeId_eq_ok hid, (word_eq_ok hop).1, (word_eq_ok hlen).1,
      (take_eq_ok hkey).1, hrest, (take_eq_ok hkey).2, hnil]
    simp only [List.append_assoc, List.append_nil]
  · exact ⟨(word_eq_ok hseq).2, hfits⟩

/-! ## Frames -/

section

variable [Digests] {bytes : Bytes} {e : Entry} {n : ℕ}

/-- The length field of a frame. -/
theorem fromLeBytes_frameOf (h : e.operation.Fits) :
    fromLeBytes ((frameOf e.body).take 4) = e.body.length + 4 := by
  have hlt : e.body.length + 4 < 256 ^ 4 := by
    have := h.frame_len.2
    unfold maxFrameLen maxKeyLen maxPayloadLen maxDims at this
    omega
  rw [frameOf, List.append_assoc, List.take_left' (length_toLeBytes _ _),
    fromLeBytes_toLeBytes hlt]

/-- Length field, checksum and body put together again. -/
theorem frame_of_parts {len : ℕ} (hlen : frameLen bytes = some len)
    (hfit : ¬ bytes.length < 4 + len)
    (hcrc : (crc32c (frameBody bytes len)).toNat = storedCrc bytes) :
    frameOf (frameBody bytes len) = bytes.take (4 + len) := by
  have hmin := (frameLen_bounds hlen).1
  unfold minFrameLen at hmin
  unfold frameLen at hlen
  split at hlen
  case isTrue => cases hlen
  case isFalse h4 =>
    dsimp only at hlen
    split at hlen
    case isFalse => cases hlen
    case isTrue =>
      simp only [Option.some.injEq] at hlen
      have hbody : (frameBody bytes len).length + 4 = len := by
        rw [frameBody, List.length_take, List.length_drop]
        omega
      have hfront : toLeBytes 4 len = bytes.take 4 := by
        rw [← hlen]
        apply toLeBytes_fromLeBytes_of_length
        rw [List.length_take]
        omega
      have hsum : toLeBytes 4 (storedCrc bytes) = (bytes.drop 4).take 4 := by
        apply toLeBytes_fromLeBytes_of_length
        rw [List.length_take, List.length_drop]
        omega
      rw [frameOf, hbody, hcrc, hfront, hsum, frameBody]
      have hsplit : 4 + len = 4 + (4 + (len - 4)) := by omega
      rw [hsplit, List.take_add, List.take_add, List.drop_drop, List.append_assoc]

/-- A parsed frame is what the encoder writes for its entry. -/
theorem encode_of_parseEntry (h : parseEntry bytes = .ok (e, n)) :
    e.encode = .ok (bytes.take n) ∧ e.Valid := by
  unfold parseEntry at h
  obtain ⟨-, h⟩ := guard_eq_ok.1 h
  split at h
  case h_1 => cases h
  case h_2 len hlen =>
    obtain ⟨hfit, h⟩ := guard_eq_ok.1 h
    obtain ⟨hcrc, h⟩ := guard_eq_ok.1 h
    split at h
    case h_1 entry hdecode =>
      cases h
      obtain ⟨hbody, hvalid⟩ := Entry.body_of_decode hdecode
      refine ⟨?_, hvalid⟩
      rw [Entry.encode_ok_iff]
      refine ⟨hvalid.fits, ?_⟩
      rw [hbody, frame_of_parts hlen hfit (not_not.1 hcrc)]
    case h_2 => cases h
    case h_3 => cases h

/-- What the encoder accepts is parsed back to the last byte, whatever follows it, under a legal
length field; and what is parsed is the one encoding of the entry that comes out. -/
theorem entries_encode_canonically :
    (∀ (e : Entry) (frame rest : Bytes), e.seq < 2 ^ 64 → e.encode = .ok frame →
      parseEntry (frame ++ rest) = .ok (e, frame.length) ∧
        minFrameLen ≤ fromLeBytes (frame.take 4) ∧ fromLeBytes (frame.take 4) ≤ maxFrameLen) ∧
    ∀ (bytes : Bytes) (e : Entry) (n : ℕ), parseEntry bytes = .ok (e, n) →
      n ≤ bytes.length ∧ e.seq < 2 ^ 64 ∧ e.encode = .ok (bytes.take n) := by
  constructor
  · intro e frame rest hseq hencode
    obtain ⟨hfits, rfl⟩ := (Entry.encode_ok_iff e frame).1 hencode
    refine ⟨parseEntry_frameOf rest ⟨hseq, hfits⟩, ?_⟩
    rw [fromLeBytes_frameOf hfits]
    exact hfits.frame_len
  · intro bytes e n hparse
    obtain ⟨hencode, hvalid⟩ := encode_of_parseEntry hparse
    exact ⟨(parseEntry_consumed hparse).2, hvalid.seq_lt, hencode⟩

end

/-- A delete of the one-byte key `k`, with two more bytes behind its frame. -/
theorem entries_encode_canonically_delete :
    letI := Digests.standard
    let e : Entry := ⟨7, ⟨List.replicate 16 3, by simp⟩, .delete [0x6B]⟩
    parseEntry (frameOf e.body ++ [1, 2]) = .ok (e, 36) ∧
      e.encode = .ok ((frameOf e.body ++ [1, 2]).take 36) := by
  intro e
  let _ := Digests.standard
  have hencode : e.encode = .ok (frameOf e.body) :=
    (Entry.encode_ok_iff e _).2 ⟨by decide, rfl⟩
  have hlen : (frameOf e.body).length = 36 := by
    rw [length_frameOf]
    rfl
  have hparse := (entries_encode_canonically.1 e _ [1, 2] (by decide) hencode).1
  rw [hlen] at hparse
  exact ⟨hparse, (entries_encode_canonically.2 _ e 36 hparse).2.2⟩

end Wal

end DistrHnsw
