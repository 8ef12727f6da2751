import DistrHnsw.Index.Graph
import DistrHnsw.Index.Layout

/-!
# The sections of a snapshot

Every section is read back from the bytes that are written for it.
-/

namespace DistrHnsw

namespace Index

open Reader

/-- A whole section that is read back. -/
theorem readAll_eq {α : Type} {read : Reader SnapshotError α} {trailing : String} {bytes : Bytes}
    {a : α} (h : read bytes = .ok (a, [])) : readAll read trailing bytes = .ok a := by
  rw [readAll, h, ok_bind]
  rfl

theorem readAll_eq_ok {α : Type} {read : Reader SnapshotError α} {trailing : String} {bytes : Bytes}
    {a : α} : readAll read trailing bytes = .ok a ↔ read bytes = .ok (a, []) := by
  constructor
  · intro h
    obtain ⟨out, hout, h⟩ := DistrHnsw.bind_eq_ok.1 h
    obtain ⟨b, rest⟩ := out
    simp only [guard_eq_ok, not_not] at h
    obtain ⟨rfl, h⟩ := h
    cases h
    exact hout
  · exact readAll_eq

/-- Repeated values, up to the end of the section. -/
theorem readAll_many {α : Type} {read : Reader SnapshotError α} {write : α → Bytes}
    {trailing : String} {l : List α}
    (h : ∀ a ∈ l, ∀ rest, read (write a ++ rest) = .ok (a, rest)) :
    readAll (many read l.length) trailing (l.flatMap write) = .ok l := by
  have hmany := many_append h []
  rw [List.append_nil] at hmany
  exact readAll_eq hmany

/-! ## Keys and operation ids -/

theorem readKey_append {key : Bytes × Slot} (h : key.1.length < 2 ^ 16) (rest : Bytes) :
    readKey (keyToLe key ++ rest) = .ok (key, rest) := by
  have hlen : key.1.length < 256 ^ 2 := h
  simp only [readKey, keyToLe, List.append_assoc, word_append hlen, take_append rfl,
    u32_append, ok_bind, pure_eq_ok]

theorem readIdempotent_append {entry : OpId × ℕ} (h : entry.2 < 2 ^ 64) (rest : Bytes) :
    readIdempotent (idempotentToLe entry ++ rest) = .ok (entry, rest) := by
  have hseq : entry.2 < 256 ^ 8 := h
  simp only [readIdempotent, idempotentToLe, List.append_assoc, array_append, word_append hseq,
    ok_bind, pure_eq_ok]

/-! ## Slot records -/

theorem readTombstone_flag (tombstone : Bool) :
    readTombstone (if tombstone then 1 else 0) = .ok tombstone := by
  cases tombstone <;> rfl

/-- Records are read back with the payloads that were written. -/
theorem readRecords_append {slots : List SlotRecord} {front : Bytes}
    (hversion : ∀ record ∈ slots, record.version < 2 ^ 64)
    (hpayload : ∀ record ∈ slots, record.payload.length < 2 ^ 32)
    (hsize : (front ++ slots.flatMap SlotRecord.payload).length < 2 ^ 64) (back rest : Bytes) :
    many (readRecord (front ++ slots.flatMap SlotRecord.payload ++ back)) slots.length
      (recordsToLe front.length slots ++ rest) = .ok (slots, rest) := by
  induction slots generalizing front with
  | nil => rfl
  | cons record slots ih =>
    have hoffset : front.length < 256 ^ 8 := by
      rw [List.length_append] at hsize
      omega
    have hslice := slice_append front record.payload (slots.flatMap SlotRecord.payload ++ back)
    have hall : front ++ (record :: slots).flatMap SlotRecord.payload =
        front ++ record.payload ++ slots.flatMap SlotRecord.payload := by
      rw [List.flatMap_cons, List.append_assoc]
    rw [hall] at hsize ⊢
    have hrest := ih
      (fun r hr => hversion r (List.mem_cons_of_mem _ hr))
      (fun r hr => hpayload r (List.mem_cons_of_mem _ hr)) hsize
    rw [List.length_append] at hrest
    have hversion' : record.version < 256 ^ 8 := hversion record List.mem_cons_self
    have hpayload' : record.payload.length < 256 ^ 4 := hpayload record List.mem_cons_self
    simp only [List.append_assoc] at hslice hrest
    simp only [List.length_cons, many, readRecord, recordsToLe, List.append_assoc,
      word_append hversion', u8_append, readTombstone_flag, u32_append, word_append hoffset,
      word_append hpayload', hslice, hrest, ok_bind, pure_eq_ok]

/-! ## Vectors -/

theorem readF32_append (what : String) (x : F32) (rest : Bytes) :
    readF32 what (x.toLe ++ rest) = .ok (x, rest) := by
  have hle : x.toLe = u32ToLe x.bits := rfl
  simp only [readF32, Reader.convert, hle, u32_append, ok_bind, pure_eq_ok]

@[simp] theorem toInt8_toUInt8_map (codes : List Int8) :
    (codes.map Int8.toUInt8).map UInt8.toInt8 = codes := by
  rw [List.map_map]
  exact List.map_id _

theorem readQuantized_eq {quantized : QuantizedVectors} {dims slots : ℕ} (hdims : dims ≠ 0)
    (h : quantized.Shaped dims slots) :
    readQuantized slots dims (F32.manyToLe quantized.scales ++ F32.manyToLe quantized.normsSq ++
      quantized.data.map Int8.toUInt8) = .ok quantized := by
  have hcodes : take (SnapshotError.malformed "int8 codes") (slots * dims) (quantized.data.map Int8.toUInt8) =
      .ok (quantized.data.map Int8.toUInt8, []) := by
    have hlen : (quantized.data.map Int8.toUInt8).length = slots * dims := by
      rw [List.length_map, h.data]
    have hread : take (SnapshotError.malformed "int8 codes") (slots * dims)
        (quantized.data.map Int8.toUInt8 ++ []) = .ok (quantized.data.map Int8.toUInt8, []) :=
      take_append hlen
    rwa [List.append_nil] at hread
  have hscales (rest : Bytes) : many (readF32 "scale") slots (F32.manyToLe quantized.scales ++ rest) =
      .ok (quantized.scales, rest) := by
    rw [← h.scales]
    exact many_append (fun x _ => readF32_append "scale" x) rest
  have hnorms (rest : Bytes) : many (readF32 "norm") slots (F32.manyToLe quantized.normsSq ++ rest) =
      .ok (quantized.normsSq, rest) := by
    rw [← h.normsSq]
    exact many_append (fun x _ => readF32_append "norm" x) rest
  have hparts : QuantizedVectors.fromParts dims quantized.data quantized.scales quantized.normsSq =
      some quantized := by
    refine QuantizedVectors.fromParts_eq_some.2 ⟨hdims, ?_, ?_⟩
    · rw [← h.dims]
    · rwa [h.scales]
  unfold readQuantized
  rw [readAll_eq (a := (quantized.scales, quantized.normsSq, quantized.data)), ok_bind]
  · simp only [hparts, pure_eq_ok]
  · simp only [List.append_assoc, hscales, hnorms, hcodes, toInt8_toUInt8_map, ok_bind, pure_eq_ok]

/-- The rows are those that were written. -/
theorem mappedRows_eq {rows : List (List F32)} {dims : ℕ} (h : ∀ row ∈ rows, row.length = dims) :
    mappedRows rows.length dims (rows.flatMap F32.manyToLe) = rows := by
  unfold mappedRows
  apply List.ext_getElem
  · simp
  · intro i hi hi'
    have hblock := slice_flatMap (w := dims * 4) (l := rows)
      (fun row hrow => by rw [F32.length_manyToLe, h row hrow, Nat.mul_comm]) [] [] hi'
    rw [List.nil_append, List.append_nil, List.length_nil, Nat.zero_add] at hblock
    rw [List.getElem_map, List.getElem_range, ← (slice_eq_some hblock).2, F32.manyOfLe_manyToLe]

theorem length_flatMap_rows {rows : List (List F32)} {dims : ℕ}
    (h : ∀ row ∈ rows, row.length = dims) :
    (rows.flatMap F32.manyToLe).length = rows.length * dims * 4 := by
  induction rows with
  | nil => simp
  | cons row rows ih =>
    rw [List.flatMap_cons, List.length_append, F32.length_manyToLe, h row List.mem_cons_self,
      ih fun r hr => h r (List.mem_cons_of_mem _ hr), List.length_cons]
    ring

theorem mapRows_eq {file : Bytes} {vectors : FlatVectors} {offset : ℕ} (hdims : vectors.dims ≠ 0)
    (hslice : slice file offset (vectors.len * vectors.dims * 4) =
      some (vectors.rows.flatMap F32.manyToLe))
    (haligned : offset % 4 = 0) (hsize : file.length < 2 ^ 64) :
    mapRows file offset vectors.len vectors.dims =
      .ok (.fromMapped vectors.dims vectors.rows fun _ h => vectors.width_rows h) := by
  have hrows : mappedRows vectors.len vectors.dims (vectors.rows.flatMap F32.manyToLe) =
      vectors.rows := mappedRows_eq fun row hrow => vectors.width_rows hrow
  have hle := (slice_eq_some hslice).1
  have hgood : ¬(vectors.len * vectors.dims * 4 ≥ 2 ^ 64 ∨
      offset + vectors.len * vectors.dims * 4 > file.length ∨ offset % 4 ≠ 0) := by omega
  unfold mapRows
  dsimp only
  rw [if_neg hgood, if_neg hdims, bytesAt_eq_ok.2 hslice, ok_bind]
  simp only [hrows]
  rw [dif_pos fun row hrow => vectors.width_rows hrow]

/-! ## The graph -/

/-- The lists of a slot above level 0, as they are written. -/
def listsToLe (level : UInt8) (lists : List UInt8 × List Slot) : Bytes :=
  if level = 0 then [] else lists.1 ++ slotsToLe lists.2

theorem readUpper_append {m : ℕ} {level : UInt8} {lists : List UInt8 × List Slot}
    (hlens : lists.1.length = level.toNat) (hlinks : lists.2.length = level.toNat * m) (rest : Bytes) :
    readUpper m level (listsToLe level lists ++ rest) = .ok (lists, rest) := by
  unfold readUpper listsToLe
  split
  · rename_i hzero
    subst hzero
    have hnil : lists = ([], []) := by
      refine Prod.ext (List.length_eq_zero_iff.1 hlens) (List.length_eq_zero_iff.1 ?_)
      rw [hlinks]
      exact Nat.zero_mul m
    rw [hnil, List.nil_append]
  · rw [List.append_assoc, take_append hlens, ok_bind]
    dsimp only
    rw [← hlinks, slotsToLe, many_append (fun n _ rest => u32_append n) rest, ok_bind]
    rfl

theorem readUppers_append {m : ℕ} {levels : List UInt8} {lists : List (List UInt8 × List Slot)}
    (h : List.Forall₂ (fun level l => l.1.length = level.toNat ∧ l.2.length = level.toNat * m)
      levels lists) (rest : Bytes) :
    readUppers m levels ((levels.zipWith listsToLe lists).flatten ++ rest) = .ok (lists, rest) := by
  induction h with
  | nil => rfl
  | cons hfirst _ ih =>
    simp only [List.zipWith_cons_cons, List.flatten_cons, List.append_assoc, readUppers,
      readUpper_append hfirst.1 hfirst.2, ih, ok_bind, pure_eq_ok]

section Graph

variable {g : Hnsw}

/-- The lists above level 0 have the lengths of the levels. -/
theorem Hnsw.Shaped.uppers (h : g.Shaped) :
    List.Forall₂ (fun level l => l.1.length = level.toNat ∧ l.2.length = level.toNat * g.params.m)
      g.levels (g.upperLen.zip g.upper) := by
  apply List.forall₂_iff_get.2
  refine ⟨?_, fun i h₁ h₂ => ?_⟩
  · rw [List.length_zip, h.upperLen, h.upper, Nat.min_self]
    rfl
  · rw [List.length_zip] at h₂
    have hlens : i < g.upperLen.length := by omega
    have hlinks : i < g.upper.length := by omega
    have hlevel : g.levels[i]? = some g.levels[i] := List.getElem?_eq_getElem h₁
    simp only [List.get_eq_getElem, List.getElem_zip]
    exact ⟨h.lens hlevel (List.getElem?_eq_getElem hlens),
      h.links hlevel (List.getElem?_eq_getElem hlinks)⟩

theorem length_slotsToLe (slots : List Slot) : (slotsToLe slots).length = slots.length * 4 := by
  induction slots with
  | nil => rfl
  | cons slot slots ih =>
    rw [slotsToLe, List.flatMap_cons, List.length_append, u32ToLe, length_toLeBytes,
      List.length_cons]
    rw [slotsToLe] at ih
    omega

/-- The graph section of a graph whose buffers have the lengths of the slots. -/
theorem graphToLe_eq (h : g.Shaped) :
    graphToLe g.params g.len g.graphParts = .ok
      (toLeBytes 4 g.params.m ++ toLeBytes 4 g.params.m0 ++ toLeBytes 4 g.params.efConstruction ++
        u64ToLe g.params.seed ++ u32ToLe (g.entry.getD noSlot) ++ [g.maxLevel] ++
        toLeBytes 8 g.tombstoneCount ++ g.levels ++ g.level0Len ++ slotsToLe g.level0 ++
        g.tombstones.flatMap u64ToLe ++
        (g.levels.zipWith listsToLe (g.upperLen.zip g.upper)).flatten) := by
  have hlen : (g.levels.zipWith listsToLe (g.upperLen.zip g.upper)).length = g.len := by
    rw [List.length_zipWith, List.length_zip, h.upperLen, h.upper, Nat.min_self]
    exact Nat.min_self _
  have huppers : (List.range g.len).mapM (upperToLe g.graphParts) =
      .ok (g.levels.zipWith listsToLe (g.upperLen.zip g.upper)) := by
    rw [← hlen]
    refine mapM_range_eq_ok fun i hi => ?_
    have hi' : i < g.len := by rwa [hlen] at hi
    have hlens : i < g.upperLen.length := by rwa [h.upperLen]
    have hlinks : i < g.upper.length := by rwa [h.upper]
    have hlevel : index g.graphParts.levels i = .ok g.levels[i] := index_of_lt hi'
    have hlens' : index g.graphParts.upperLen i = .ok g.upperLen[i] := index_of_lt hlens
    have hlinks' : index g.graphParts.upper i = .ok g.upper[i] := index_of_lt hlinks
    rw [upperToLe, hlevel, ok_bind, List.getElem_zipWith, List.getElem_zip]
    by_cases hzero : g.levels[i] = 0
    · rw [if_pos hzero]
      exact congrArg Except.ok (if_pos hzero).symm
    · rw [if_neg hzero, hlens', ok_bind, hlinks', ok_bind]
      exact congrArg Except.ok (if_neg hzero).symm
  rw [graphToLe, huppers, ok_bind]
  rfl

/-- The values of the graph fit their fields. -/
structure Hnsw.Narrow (g : Hnsw) : Prop where
  m : 0 < g.params.m
  m0 : 0 < g.params.m0
  efConstruction : g.params.efConstruction < 2 ^ 32
  tombstoneCount : g.tombstoneCount < 2 ^ 64
  entry : g.entry ≠ some noSlot

theorem readGraph_eq (h : g.Shaped) (hn : g.Narrow) {bytes : Bytes}
    (hbytes : graphToLe g.params g.len g.graphParts = .ok bytes) :
    readGraph g.len bytes = .ok ((g.params, g.graphParts), []) := by
  rw [graphToLe_eq h] at hbytes
  cases hbytes
  have hm : g.params.m < 256 ^ 4 := h.m_le.trans_lt (by decide)
  have hm0 : g.params.m0 < 256 ^ 4 := h.m0_le.trans_lt (by decide)
  have hef : g.params.efConstruction < 256 ^ 4 := hn.efConstruction
  have hcount : g.tombstoneCount < 256 ^ 8 := hn.tombstoneCount
  have hlevels : g.levels.length = g.len := rfl
  have hgood : ¬(g.params.m = 0 ∨ g.params.m0 = 0 ∨ g.params.m > 255 ∨ g.params.m0 > 255) := by
    have := hn.m
    have := hn.m0
    have := h.m_le
    have := h.m0_le
    omega
  have hlevel0 (rest : Bytes) : many (u32 (.malformed "level0 links")) (g.len * g.params.m0)
      (slotsToLe g.level0 ++ rest) = (.ok (g.level0, rest) : Except SnapshotError _) := by
    rw [← h.level0]
    exact many_append (fun n _ rest => u32_append n) rest
  have hwords (rest : Bytes) : many (u64 (.malformed "tombstone words")) ((g.len + 63) / 64)
      (g.tombstones.flatMap u64ToLe ++ rest) = (.ok (g.tombstones, rest) : Except SnapshotError _) := by
    rw [← h.tombstones]
    exact many_append (fun n _ rest => u64_append n) rest
  have huppers := readUppers_append h.uppers []
  rw [List.append_nil] at huppers
  simp only [readGraph, List.append_assoc, word_append hm, word_append hm0, word_append hef,
    u64_append, u32_append, u8_append, word_append hcount, take_append hlevels,
    take_append h.level0Len, hlevel0, hwords, huppers, if_neg hgood, ok_bind, pure_eq_ok]
  have hentry : (if g.entry.getD noSlot = noSlot then none else some (g.entry.getD noSlot)) = g.entry := by
    cases he : g.entry with
    | none => rfl
    | some entry =>
      have hne : entry ≠ noSlot := fun heq => hn.entry (by rw [he, heq])
      exact if_neg hne
  have hlen : g.upperLen.length = g.upper.length := by rw [h.upperLen, h.upper]
  rw [hentry, List.map_snd_zip hlen.ge, List.map_fst_zip hlen.le]
  rfl

end Graph

end Index

end DistrHnsw
