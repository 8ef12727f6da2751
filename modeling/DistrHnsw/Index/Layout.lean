import DistrHnsw.Index.Snapshot
import DistrHnsw.Lib.Returns

/-!
# The layout of a snapshot file

Reading the header and the section table of an encoded file gives back what was written, and every
section stands where its table entry says, with its digest.
-/

namespace DistrHnsw

namespace Index

open Reader

/-! ## Alignment -/

theorem le_alignUp (n : ℕ) : n ≤ alignUp n := by
  unfold alignUp align
  omega

theorem alignUp_mod (n : ℕ) : alignUp n % 64 = 0 := by
  unfold alignUp align
  omega

theorem alignUp_add {c : ℕ} (hc : c % 64 = 0) (n : ℕ) : alignUp (c + n) = c + alignUp n := by
  unfold alignUp align
  omega

@[simp] theorem length_padded (bytes : Bytes) : (padded bytes).length = alignUp bytes.length := by
  have := le_alignUp bytes.length
  simp only [padded, zeros, List.length_append, List.length_replicate]
  omega

/-! ## Reading what was written -/

section Steps

variable {α : Type} {rest : Bytes} {e : SnapshotError}

theorem take_append {front : Bytes} {n : ℕ} (h : front.length = n) :
    take e n (front ++ rest) = .ok (front, rest) := (inverts_take e n).read_write h rest

theorem word_append {w n : ℕ} (h : n < 256 ^ w) : word e w (toLeBytes w n ++ rest) = .ok (n, rest) :=
  (inverts_word e w).read_write h rest

theorem array_append {n : ℕ} (fixed : Fixed n) : array e n (fixed.1 ++ rest) = .ok (fixed, rest) :=
  (inverts_array e n).read_write trivial rest

theorem u8_append (byte : UInt8) : u8 e ([byte] ++ rest) = .ok (byte, rest) :=
  (inverts_u8 e).read_write trivial rest

theorem u32_append (n : UInt32) : u32 e (u32ToLe n ++ rest) = .ok (n, rest) :=
  (inverts_u32 e).read_write trivial rest

theorem u64_append (n : UInt64) : u64 e (u64ToLe n ++ rest) = .ok (n, rest) :=
  (inverts_u64 e).read_write trivial rest

theorem bytesAt_eq_ok {bytes content : Bytes} {start len : ℕ} :
    bytesAt bytes start len = .ok content ↔ slice bytes start len = some content := by
  unfold bytesAt range
  cases slice bytes start len <;> simp [Except.mapError]

end Steps

/-! ## The table -/

theorem length_toLe {entry : SectionEntry} (h : entry.digest.length = 32) :
    entry.toLe.length = sectionEntryLen := by
  simp only [SectionEntry.toLe, List.length_append, length_toLeBytes, h]
  rfl

/-- An entry that fits its fields is read back, when its section lies between table and footer. -/
theorem readEntry_eq {file : Bytes} {entry : SectionEntry} {tableOffset tableEnd footerAt i : ℕ}
    (hslice : slice file (tableOffset + i * sectionEntryLen) sectionEntryLen = some entry.toLe)
    (hdigest : entry.digest.length = 32) (hkind : entry.kind < 2 ^ 16)
    (hfits : footerAt < 2 ^ 64) (hlow : tableEnd ≤ entry.offset)
    (hhigh : entry.offset + entry.len ≤ footerAt) :
    readEntry file tableOffset tableEnd footerAt i = .ok entry := by
  have hoffset : entry.offset < 2 ^ 64 := by omega
  have hlen : entry.len < 2 ^ 64 := by omega
  have hsplit : entry.toLe = toLeBytes 2 entry.kind ++ (toLeBytes 2 0 ++ (toLeBytes 8 entry.offset ++
      (toLeBytes 8 entry.len ++ entry.digest))) := by
    simp only [SectionEntry.toLe, List.append_assoc]
  have hdrop₄ : entry.toLe.drop 4 = toLeBytes 8 entry.offset ++ (toLeBytes 8 entry.len ++
      entry.digest) := by
    rw [hsplit, ← List.append_assoc, List.drop_left' (by simp)]
  have hdrop₁₂ : entry.toLe.drop 12 = toLeBytes 8 entry.len ++ entry.digest := by
    rw [hsplit, ← List.append_assoc, ← List.append_assoc, List.drop_left' (by simp)]
  have hdrop₂₀ : entry.toLe.drop 20 = entry.digest := by
    rw [hsplit, ← List.append_assoc, ← List.append_assoc, ← List.append_assoc,
      List.drop_left' (by simp)]
  have htake : entry.toLe.take 2 = toLeBytes 2 entry.kind := by
    rw [hsplit, List.take_left' (length_toLeBytes 2 _)]
  have hadd : checkedAdd entry.offset entry.len = some (entry.offset + entry.len) :=
    if_pos (by omega)
  rw [readEntry, bytesAt_eq_ok.2 hslice, ok_bind, htake, hdrop₄, hdrop₁₂, hdrop₂₀,
    List.take_left' (length_toLeBytes 8 _), List.take_left' (length_toLeBytes 8 _),
    fromLeBytes_toLeBytes hkind, fromLeBytes_toLeBytes hoffset, fromLeBytes_toLeBytes hlen,
    ← hdigest, List.take_length]
  have hgood : ¬(entry.offset < tableEnd ∨
      (some (entry.offset + entry.len)).all (fun end_ => decide (end_ > footerAt)) = true) := by
    simp only [Option.all_some, decide_eq_true_eq]
    omega
  dsimp only
  rw [hadd, if_neg hgood]
  rfl

variable [Digests]

/-! ## Sections -/

/-- A section stands in the file where its entry says. -/
structure Stands (file : Bytes) (content : ℕ × Bytes) (entry : SectionEntry) : Prop where
  kind : entry.kind = content.1
  digest : entry.digest = (blake3 content.2).1
  bytes : slice file entry.offset entry.len = some content.2
  aligned : entry.offset % 64 = 0

theorem Stands.len {file : Bytes} {content : ℕ × Bytes} {entry : SectionEntry}
    (h : Stands file content entry) : entry.len = content.2.length := (slice_length h.bytes).symm

/-- Sections are laid out one after the other. -/
theorem stands_placed {front : Bytes} {cursor : ℕ} (hfront : front.length = cursor)
    (hcursor : cursor % 64 = 0) (sections : List (ℕ × Bytes)) (back : Bytes) :
    List.Forall₂ (fun content entry =>
        Stands (front ++ (sections.flatMap fun s => padded s.2) ++ back) content entry ∧
          cursor ≤ entry.offset ∧
            entry.offset + entry.len ≤ (front ++ sections.flatMap fun s => padded s.2).length)
      sections (placed cursor sections) := by
  induction sections generalizing front cursor with
  | nil => exact .nil
  | cons content rest ih =>
    obtain ⟨kind, bytes⟩ := content
    have hnext : (front ++ padded bytes).length = alignUp (cursor + bytes.length) := by
      rw [List.length_append, length_padded, hfront, alignUp_add hcursor]
    have hall : front ++ ((kind, bytes) :: rest).flatMap (fun s => padded s.2) =
        front ++ padded bytes ++ rest.flatMap fun s => padded s.2 := by
      rw [List.flatMap_cons, List.append_assoc]
    have hle : bytes.length ≤ (padded bytes).length := by
      rw [length_padded]
      exact le_alignUp _
    rw [hall]
    refine .cons ⟨⟨rfl, rfl, ?_, hcursor⟩, le_rfl, ?_⟩ ?_
    · have hslice := slice_append front bytes
        (zeros (alignUp bytes.length - bytes.length) ++ (rest.flatMap (fun s => padded s.2) ++ back))
      rw [hfront] at hslice
      simpa only [padded, List.append_assoc] using hslice
    · show cursor + bytes.length ≤ _
      rw [List.length_append, List.length_append, hfront]
      omega
    · refine (ih hnext (alignUp_mod _)).imp fun content entry hentry => ?_
      refine ⟨hentry.1, ?_, hentry.2.2⟩
      have := le_alignUp (cursor + bytes.length)
      omega

/-- The first section of a kind, when every kind stands once. -/
theorem findSection_eq {file : Bytes} {sections : List (ℕ × Bytes)} {entries : List SectionEntry}
    (h : List.Forall₂ (Stands file) sections entries) (hnodup : (sections.map Prod.fst).Nodup)
    {kind : ℕ} {bytes : Bytes} (hmem : (kind, bytes) ∈ sections) :
    ∃ entry, findSection entries kind = .ok entry ∧ Stands file (kind, bytes) entry := by
  unfold findSection
  induction h with
  | nil => exact absurd hmem List.not_mem_nil
  | @cons content entry contents entries hfirst _ ih =>
    rw [List.map_cons, List.nodup_cons] at hnodup
    rcases List.mem_cons.1 hmem with rfl | hmem
    · have hkind : (entry.kind == kind) = true := beq_iff_eq.2 hfirst.kind
      rw [List.find?_cons_of_pos (by exact hkind)]
      exact ⟨entry, rfl, hfirst⟩
    · have hne : content.1 ≠ kind := fun heq => hnodup.1 (heq ▸ List.mem_map_of_mem hmem)
      have hkind : ¬(entry.kind == kind) = true := by
        rw [beq_iff_eq, hfirst.kind]
        exact hne
      rw [List.find?_cons_of_neg (by exact hkind)]
      exact ih hnodup.2 hmem

theorem sectionBytes_eq {file : Bytes} {sections : List (ℕ × Bytes)} {entries : List SectionEntry}
    (h : List.Forall₂ (Stands file) sections entries) (hnodup : (sections.map Prod.fst).Nodup)
    {kind : ℕ} {bytes : Bytes} (hmem : (kind, bytes) ∈ sections) :
    sectionBytes file entries kind = .ok bytes := by
  obtain ⟨entry, hfind, hstands⟩ := findSection_eq h hnodup hmem
  rw [sectionBytes, hfind, ok_bind]
  exact bytesAt_eq_ok.2 hstands.bytes

/-! ## The header -/

/-- The header that is written for a snapshot. -/
def SnapshotInput.header (input : SnapshotInput) : Header where
  partitionId := input.partitionId
  dims := input.dims
  metric := input.metric
  highWater := input.highWater
  slotCount := input.slots.length
  keyCount := input.keys.length
  idemCount := input.idempotency.length
  sectionCount := sectionOrder.length
  tableOffset := headerLen

/-- The counts fit the fields of the header. -/
structure SnapshotInput.Countable (input : SnapshotInput) : Prop where
  slots : input.slots.length < 2 ^ 32
  keys : input.keys.length < 2 ^ 32
  idempotency : input.idempotency.length < 2 ^ 32

omit [Digests] in
theorem length_headerFields (input : SnapshotInput) : input.headerFields.length = 68 := by
  simp [SnapshotInput.headerFields, snapshotMagic, input.partitionId.2]

omit [Digests] in
@[simp] theorem length_headerBody (input : SnapshotInput) :
    input.headerBody.length = headerLen - 4 := by
  rw [SnapshotInput.headerBody, List.length_append, length_headerFields, zeros,
    List.length_replicate]
  rfl

/-- The header of a file. -/
def SnapshotInput.headerBytes (input : SnapshotInput) : Bytes :=
  input.headerBody ++ u32ToLe (crc32c input.headerBody)

@[simp] theorem length_headerBytes (input : SnapshotInput) :
    input.headerBytes.length = headerLen := by
  simp [SnapshotInput.headerBytes, u32ToLe, headerLen]

omit [Digests] in
@[simp] theorem metricFrom_metricCode (metric : Metric) : metricFrom (metricCode metric) = some metric := by
  cases metric <;> rfl

/-- The header is read back when its values fit their fields. -/
theorem readHeader_eq {input : SnapshotInput} (h : input.Countable) (hdims : 0 < input.dims)
    (hwidth : input.dims < 2 ^ 32) (hhigh : input.highWater < 2 ^ 64) {rest : Bytes}
    (hrest : footerLen ≤ rest.length) :
    readHeader (input.headerBytes ++ rest) input.partitionId = .ok input.header := by
  have hlong : ¬(input.headerBytes ++ rest).length < headerLen + footerLen := by
    rw [List.length_append, length_headerBytes]
    omega
  have hbody : input.headerBytes.take (headerLen - 4) = input.headerBody :=
    List.take_left' (length_headerBody input)
  have hcrc : (crc32c (input.headerBytes.take (headerLen - 4))).toNat =
      fromLeBytes (input.headerBytes.drop (headerLen - 4)) := by
    have hdrop : input.headerBytes.drop (headerLen - 4) = u32ToLe (crc32c input.headerBody) :=
      List.drop_left' (length_headerBody input)
    rw [hbody, hdrop, u32ToLe, fromLeBytes_toLeBytes (crc32c input.headerBody).toNat_lt]
  have hcode : metricCode input.metric < 256 ^ 1 := by cases input.metric <;> decide
  have hlive : (input.slots.filter fun slot => !slot.tombstone).length < 256 ^ 4 :=
    (List.length_filter_le _ _).trans_lt h.slots
  unfold readHeader
  rw [if_neg hlong, List.take_left' (length_headerBytes input)]
  dsimp only
  rw [if_neg (not_not.2 hcrc)]
  unfold SnapshotInput.headerBytes SnapshotInput.headerBody SnapshotInput.headerFields
  generalize zeros _ = pad
  generalize u32ToLe _ = crc
  simp only [List.append_assoc]
  rw [take_append (show snapshotMagic.length = 4 from rfl), ok_bind, if_neg (not_not.2 rfl),
    word_append (show snapshotVersion < 256 ^ 2 by decide), ok_bind, if_neg (not_not.2 rfl),
    word_append (show 0 < 256 ^ 2 by decide), ok_bind, array_append, ok_bind,
    if_neg (not_not.2 rfl), word_append (show input.dims < 256 ^ 4 from hwidth), ok_bind,
    word_append hcode, ok_bind]
  simp only [metricFrom_metricCode]
  rw [show ([1] : Bytes) = toLeBytes 1 1 from rfl, word_append (show 1 < 256 ^ 1 by decide), ok_bind,
    if_neg (not_not.2 rfl), take_append (show ([0, 0] : Bytes).length = 2 from rfl), ok_bind,
    word_append (show input.highWater < 256 ^ 8 from hhigh), ok_bind,
    word_append (show input.slots.length < 256 ^ 4 from h.slots), ok_bind, word_append hlive, ok_bind,
    word_append (show input.keys.length < 256 ^ 4 from h.keys), ok_bind,
    word_append (show input.idempotency.length < 256 ^ 4 from h.idempotency), ok_bind,
    word_append (show sectionOrder.length < 256 ^ 4 by decide), ok_bind,
    word_append (show headerLen < 256 ^ 8 by decide), ok_bind, if_neg (Nat.ne_of_gt hdims)]
  rfl

end Index

end DistrHnsw
