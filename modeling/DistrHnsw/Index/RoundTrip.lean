import DistrHnsw.Index.Accepted
import DistrHnsw.Index.Insert
import DistrHnsw.Lib.Matched

/-!
# Encoding and loading are inverse

A consistent snapshot whose counts fit the header is loaded back from the file that is written for
it, with the same contents and the same rows.
-/

namespace DistrHnsw

namespace Index

open Reader

variable {input : SnapshotInput} {graph : Bytes}

/-- The sections with their kinds. -/
def SnapshotInput.sections (input : SnapshotInput) (graph : Bytes) : List (ℕ × Bytes) :=
  [(sectionKeys, input.keys.flatMap keyToLe), (sectionSlots, recordsToLe 0 input.slots),
    (sectionPayloads, input.slots.flatMap SlotRecord.payload),
    (sectionVectorsF32, input.vectors.rows.flatMap F32.manyToLe),
    (sectionVectorsI8, F32.manyToLe input.quantized.scales ++ F32.manyToLe input.quantized.normsSq ++
      input.quantized.data.map Int8.toUInt8),
    (sectionGraph, graph), (sectionIdempotency, input.idempotency.flatMap idempotentToLe)]

theorem sections_eq (h : graphToLe input.params input.slots.length input.graph = .ok graph) :
    (sectionOrder.mapM fun kind => do
      let bytes ← input.encodeSection kind
      return (kind, bytes)) = .ok (input.sections graph) := by
  simp only [sectionOrder, List.mapM_cons, List.mapM_nil, SnapshotInput.encodeSection, sectionKeys,
    sectionSlots, sectionPayloads, sectionVectorsF32, sectionVectorsI8, sectionGraph,
    sectionIdempotency, h, Except.mapError, SnapshotInput.sections]
  rfl

/-- What the representation invariant and the graph invariant say of a snapshot, as far as the format
needs it: the lengths of its buffers, the ranges of its values, and what the structural checks ask. -/
structure SnapshotInput.Encodable (input : SnapshotInput) : Prop extends input.Formed where
  key_pos (key : Bytes × Slot) : key ∈ input.keys → 0 < key.1.length
  key_le (key : Bytes × Slot) : key ∈ input.keys → key.1.length ≤ 65535

/-- The rows of a snapshot, served from its file. -/
def SnapshotInput.mapped (input : SnapshotInput) (hdims : input.vectors.dims = input.dims) :
    FlatVectors :=
  .fromMapped input.dims input.vectors.rows fun _ hrow => (input.vectors.width_rows hrow).trans hdims

/-- What a snapshot is loaded as. -/
def SnapshotInput.loaded (input : SnapshotInput) (hdims : input.vectors.dims = input.dims)
    (fileBytes : ℕ) : LoadedSnapshot :=
  { input with vectors := input.mapped hdims, fileBytes }

@[simp] theorem slotCount_header : input.header.slotCount = input.slots.length := rfl

@[simp] theorem keyCount_header : input.header.keyCount = input.keys.length := rfl

@[simp] theorem idemCount_header : input.header.idemCount = input.idempotency.length := rfl

@[simp] theorem dims_header : input.header.dims = input.dims := rfl

/-! ## Two slots -/

/-- Two slots with their keys; the first is on level 1, where its list names `upper` slots: none, or
the second. -/
def pair (upper : UInt8) : SnapshotInput where
  partitionId := sampleId
  dims := 1
  metric := .l2
  params := ⟨2, 2, 8, 0⟩
  highWater := 2
  keys := [([1], 0), ([2], 1)]
  slots := [⟨1, false, 0, [9]⟩, ⟨2, false, 1, []⟩]
  vectors := .fromMapped 1 [[F32.one], [F32.zero]] (by decide)
  quantized := ⟨1, [127, 0], [⟨0x3C010204⟩, F32.zero], [F32.one, F32.zero]⟩
  graph :=
    { levels := [1, 0], level0 := [1, 0, 0, 0], level0Len := [1, 1], upper := [[1, 0], []]
      upperLen := [[upper], []], tombstones := [0], tombstoneCount := 0, entry := some 0
      maxLevel := 1 }
  idempotency := [(⟨List.replicate 16 1, rfl⟩, 1), (⟨List.replicate 16 2, rfl⟩, 2)]

theorem shaped_pair (upper : UInt8) : (pair upper).index.Shaped where
  m_le := show 2 ≤ 255 by decide
  m0_le := show 2 ≤ 255 by decide
  len_le := show 2 ≤ 2 ^ 32 by decide
  vectors := rfl
  quantized := ⟨rfl, rfl, rfl, rfl⟩
  level0 := rfl
  level0Len := rfl
  upper := rfl
  upperLen := rfl
  links {s level links} hlevel hlinks := by
    match s with
    | 0 | 1 =>
      cases hlevel
      cases hlinks
      rfl
    | s + 2 => cases hlevel
  lens {s level lens} hlevel hlens := by
    match s with
    | 0 | 1 =>
      cases hlevel
      cases hlens
      rfl
    | s + 2 => cases hlevel
  tombstones := show 1 = (2 + 63) / 64 by decide

theorem encodable_pair {upper : UInt8}
    (h : validateStructure (pair upper).params 2 (pair upper).keys (pair upper).slots
      (pair upper).graph = .ok ()) : (pair upper).Encodable where
  shaped := shaped_pair upper
  slots := rfl
  dims := rfl
  dims_pos := show 0 < 1 by decide
  dims_lt := show 1 < 2 ^ 32 by decide
  m := show 0 < 2 by decide
  m0 := show 0 < 2 by decide
  efConstruction := show 8 < 2 ^ 32 by decide
  highWater := show 2 < 2 ^ 64 by decide
  version := by simp [pair]
  seq := by simp [pair]
  consistent := (validateStructure_eq_ok (shaped_pair upper)).1 h
  key_pos := by simp [pair]
  key_le := by simp [pair]

theorem countable_pair (upper : UInt8) : (pair upper).Countable  where
  slots := show 2 < 2 ^ 32 by decide
  keys := show 2 < 2 ^ 32 by decide
  idempotency := show 2 < 2 ^ 32 by decide

theorem short_pair (upper : UInt8) : (pair upper).Short := by
  simp [SnapshotInput.Short, pair]

/-! ## Deletes only -/

/-- The operation id that starts with the bytes of a number. -/
def opIdOf (i : ℕ) : OpId := ⟨toLeBytes 16 i, length_toLeBytes 16 i⟩

/-- A partition after `n` deletes of keys that it never had, with a window that holds them all. -/
def deletes (n : ℕ) : SnapshotInput where
  partitionId := sampleId
  dims := 1
  metric := .l2
  params := ⟨2, 2, 8, 0⟩
  highWater := n
  keys := []
  slots := []
  vectors := .new 1
  quantized := .new 1
  graph := (Hnsw.new 1 .l2 ⟨2, 2, 8, 0⟩).graphParts
  idempotency := (List.range n).map fun i => (opIdOf i, i + 1)

theorem length_deletes (n : ℕ) : (deletes n).idempotency.length = n :=
  (List.length_map _).trans List.length_range

/-- The ids are distinct. -/
theorem nodup_deletes {n : ℕ} (h : n < 2 ^ 64) : ((deletes n).idempotency.map Prod.fst).Nodup := by
  have hids : (deletes n).idempotency.map Prod.fst = (List.range n).map opIdOf := by
    simp only [deletes, List.map_map]
    rfl
  rw [hids]
  refine List.nodup_range.map_on fun i hi j hj heq => ?_
  have hlt (k : ℕ) (hk : k ∈ List.range n) : k < 256 ^ 16 :=
    ((List.mem_range.1 hk).trans h).trans (by decide)
  have hbytes : toLeBytes 16 i = toLeBytes 16 j := congrArg Subtype.val heq
  exact toLeBytes_inj (hlt i hi) (hlt j hj) hbytes

theorem encodable_deletes {n : ℕ} (h : n < 2 ^ 64) : (deletes n).Encodable where
  shaped := (Hnsw.valid_new (show 2 ≤ 255 by decide) (show 2 ≤ 255 by decide)).toShaped
  slots := rfl
  dims := rfl
  dims_pos := Nat.one_pos
  dims_lt := show 1 < 2 ^ 32 by decide
  m := show 0 < 2 by decide
  m0 := show 0 < 2 by decide
  efConstruction := show 8 < 2 ^ 32 by decide
  highWater := h
  version _ hrecord := absurd hrecord List.not_mem_nil
  seq entry hentry := by
    obtain ⟨i, hi, rfl⟩ := List.mem_map.1 hentry
    have := List.mem_range.1 hi
    show i + 1 < 2 ^ 64
    omega
  consistent := by
    refine (validateStructure_eq_ok ?_).1 rfl
    exact (Hnsw.valid_new (show 2 ≤ 255 by decide) (show 2 ≤ 255 by decide)).toShaped
  key_pos _ hkey := absurd hkey List.not_mem_nil
  key_le _ hkey := absurd hkey List.not_mem_nil

variable [Digests]

/-! ## The file -/

/-- The section table. -/
def SnapshotInput.table (input : SnapshotInput) (graph : Bytes) : List SectionEntry :=
  placed firstSection (input.sections graph)

/-- The file up to the first section. -/
def SnapshotInput.front (input : SnapshotInput) (graph : Bytes) : Bytes :=
  input.headerBytes ++ (input.table graph).flatMap SectionEntry.toLe ++
    zeros (firstSection - headerLen - ((input.table graph).flatMap SectionEntry.toLe).length)

/-- The file up to its digest. -/
def SnapshotInput.body (input : SnapshotInput) (graph : Bytes) : Bytes :=
  input.front graph ++ (input.sections graph).flatMap fun s => padded s.2

/-- The file. -/
def SnapshotInput.file (input : SnapshotInput) (graph : Bytes) : Bytes :=
  input.body graph ++ (blake3 (input.body graph)).1

/-- Encoding succeeds, with the file. -/
theorem encode_eq (h : input.Encodable) :
    ∃ graph, graphToLe input.params input.slots.length input.graph = .ok graph ∧
      encode input = .ok (input.file graph) := by
  have hgraph := graphToLe_eq h.shaped
  rw [← h.slots] at hgraph
  refine ⟨_, hgraph, ?_⟩
  have hcounts : ¬(input.vectors.len ≠ input.slots.length ∨
      input.quantized.len ≠ input.slots.length) := by
    rw [h.slots]
    simpa using ⟨h.shaped.vectors, h.shaped.quantized.scales⟩
  have hkeys : ¬(input.keys.any fun key => decide (key.1.length = 0 ∨ key.1.length > 65535)) = true := by
    intro hany
    obtain ⟨key, hkey, hbad⟩ := List.any_eq_true.1 hany
    have := h.key_pos key hkey
    have := h.key_le key hkey
    have := of_decide_eq_true hbad
    omega
  rw [encode, if_neg hcounts, if_neg hkeys, sections_eq hgraph]
  rfl

theorem length_digest_placed {cursor : ℕ} {sections : List (ℕ × Bytes)} :
    ∀ entry ∈ placed cursor sections, entry.digest.length = 32 := by
  induction sections generalizing cursor with
  | nil => exact fun _ h => absurd h List.not_mem_nil
  | cons content rest ih =>
    intro entry hentry
    rcases List.mem_cons.1 hentry with rfl | hentry
    · exact (blake3 content.2).2
    · exact ih entry hentry

theorem length_placed {cursor : ℕ} {sections : List (ℕ × Bytes)} :
    (placed cursor sections).length = sections.length := by
  induction sections generalizing cursor with
  | nil => rfl
  | cons content rest ih => exact congrArg (· + 1) ih

theorem length_table (input : SnapshotInput) (graph : Bytes) :
    ((input.table graph).flatMap SectionEntry.toLe).length = 364 := by
  have hentries : ∀ entry ∈ input.table graph, entry.toLe.length = sectionEntryLen :=
    fun entry hentry => length_toLe (length_digest_placed entry hentry)
  have hmap : (input.table graph).map (fun entry => entry.toLe.length) =
      List.replicate 7 sectionEntryLen := by
    refine List.eq_replicate_iff.2 ⟨?_, fun n hn => ?_⟩
    · rw [List.length_map, SnapshotInput.table, length_placed]
      rfl
    · obtain ⟨entry, hentry, rfl⟩ := List.mem_map.1 hn
      exact hentries entry hentry
  rw [List.length_flatMap, hmap]
  rfl

theorem length_front (input : SnapshotInput) (graph : Bytes) :
    (input.front graph).length = firstSection := by
  simp only [SnapshotInput.front, List.length_append, length_headerBytes, length_table, zeros,
    List.length_replicate]
  rfl

/-- Every section stands in the file, between the table and the digest. -/
theorem stands_file (input : SnapshotInput) (graph : Bytes) :
    List.Forall₂ (fun content entry => Stands (input.file graph) content entry ∧
        firstSection ≤ entry.offset ∧ entry.offset + entry.len ≤ (input.body graph).length)
      (input.sections graph) (input.table graph) := by
  have haligned : firstSection % 64 = 0 := by decide
  have hplaced := stands_placed (length_front input graph) haligned (input.sections graph)
    (blake3 (input.body graph)).1
  unfold SnapshotInput.file SnapshotInput.body
  exact hplaced

theorem length_file (input : SnapshotInput) (graph : Bytes) :
    (input.file graph).length = (input.body graph).length + footerLen := by
  rw [SnapshotInput.file, List.length_append, (blake3 _).2]
  rfl

/-- The length of the file follows from the lengths of the sections. -/
theorem length_file_eq_sum (input : SnapshotInput) (graph : Bytes) :
    (input.file graph).length = firstSection +
      (((input.sections graph).map fun s => s.2.length).map alignUp).sum + footerLen := by
  have hpadded : (input.sections graph).map (fun s => (padded s.2).length) =
      ((input.sections graph).map fun s => s.2.length).map alignUp := by
    rw [List.map_map]
    exact List.map_congr_left fun s _ => length_padded s.2
  rw [length_file, SnapshotInput.body, List.length_append, length_front, List.length_flatMap, hpadded]

/-- The file behind its header. -/
def SnapshotInput.behind (input : SnapshotInput) (graph : Bytes) : Bytes :=
  zeros (firstSection - headerLen - ((input.table graph).flatMap SectionEntry.toLe).length) ++
    ((input.sections graph).flatMap (fun s => padded s.2) ++ (blake3 (input.body graph)).1)

theorem file_eq (input : SnapshotInput) (graph : Bytes) :
    input.file graph = input.headerBytes ++ ((input.table graph).flatMap SectionEntry.toLe ++
      input.behind graph) := by
  unfold SnapshotInput.file SnapshotInput.behind
  generalize (blake3 (input.body graph)).1 = digest
  unfold SnapshotInput.body SnapshotInput.front
  simp only [List.append_assoc]

/-- The header of the file is read back. -/
theorem readHeader_file (h : input.Encodable) (hc : input.Countable) :
    readHeader (input.file graph) input.partitionId = .ok input.header := by
  have hrest : footerLen ≤ ((input.table graph).flatMap SectionEntry.toLe ++
      input.behind graph).length := by
    rw [List.length_append, length_table]
    exact (show footerLen ≤ 364 by decide).trans (Nat.le_add_right _ _)
  rw [file_eq]
  exact readHeader_eq hc h.dims_pos h.dims_lt h.highWater hrest

/-- The table of the file is read back. -/
theorem readTable_file (hsize : (input.file graph).length < 2 ^ 64) :
    readTable (input.file graph) input.header = .ok (input.table graph) := by
  have hlen := length_file input graph
  have hfooter : (input.file graph).length - footerLen = (input.body graph).length := by omega
  have hadd : checkedAdd (input.header.sectionCount * sectionEntryLen) input.header.tableOffset =
      some 492 := by
    show checkedAdd (7 * 52) 128 = some 492
    decide
  have hbody : firstSection ≤ (input.body graph).length := by
    rw [SnapshotInput.body, List.length_append, length_front]
    exact Nat.le_add_right _ _
  have hfirst : firstSection = 512 := rfl
  have hgood : ¬(input.header.tableOffset < headerLen ∨ 492 > (input.body graph).length) := by
    have : input.header.tableOffset = headerLen := rfl
    omega
  have hcount : input.header.sectionCount = (input.table graph).length := by
    rw [SnapshotInput.table, length_placed]
    rfl
  unfold readTable
  dsimp only
  rw [hadd, hfooter]
  dsimp only
  rw [if_neg hgood, hcount]
  refine mapM_range_eq_ok fun i hi => ?_
  have hmem : (input.table graph)[i] ∈ input.table graph := List.getElem_mem hi
  have hi' : i < (input.sections graph).length := by
    rwa [SnapshotInput.table, length_placed] at hi
  have hstands := (List.forall₂_iff_get.1 (stands_file input graph)).2 i hi' hi
  simp only [List.get_eq_getElem] at hstands
  obtain ⟨hstands, hlow, hhigh⟩ := hstands
  have hslice := slice_flatMap (w := sectionEntryLen)
    (l := input.table graph)
    (fun entry hentry => length_toLe (length_digest_placed entry hentry)) input.headerBytes
    (input.behind graph) hi
  rw [length_headerBytes] at hslice
  refine readEntry_eq ?_ (length_digest_placed _ hmem) ?_ (by omega) (by omega) hhigh
  · rw [file_eq, ← List.append_assoc]
    exact hslice
  · rw [hstands.kind]
    have hkinds : ∀ content ∈ input.sections graph, content.1 < 2 ^ 16 := by
      simp [SnapshotInput.sections, sectionKeys, sectionSlots, sectionPayloads, sectionVectorsF32,
        sectionVectorsI8, sectionGraph, sectionIdempotency]
    exact hkinds _ (List.getElem_mem hi')

/-! ## The sections of the file -/

theorem stands (input : SnapshotInput) (graph : Bytes) :
    List.Forall₂ (Stands (input.file graph)) (input.sections graph) (input.table graph) :=
  (stands_file input graph).imp fun _ _ h => h.1

omit [Digests] in
theorem nodup_sections (input : SnapshotInput) (graph : Bytes) :
    ((input.sections graph).map Prod.fst).Nodup := by
  show sectionOrder.Nodup
  decide

/-- The bytes of every section are found. -/
theorem sectionBytes_file {kind : ℕ} {bytes : Bytes} (h : (kind, bytes) ∈ input.sections graph) :
    sectionBytes (input.file graph) (input.table graph) kind = .ok bytes :=
  sectionBytes_eq (stands input graph) (nodup_sections input graph) h

theorem length_section_le {kind : ℕ} {bytes : Bytes} (h : (kind, bytes) ∈ input.sections graph) :
    bytes.length ≤ (input.file graph).length := by
  obtain ⟨entry, -, hstands⟩ := findSection_eq (stands input graph) (nodup_sections input graph) h
  have hle := (slice_eq_some hstands.bytes).1
  have hlen : bytes.length = entry.len := slice_length hstands.bytes
  omega

/-- Every section has its digest. -/
theorem checkSections_file (input : SnapshotInput) (graph : Bytes) :
    (input.table graph).forM (checkSection (input.file graph)) = .ok () := by
  refine forM_eq_ok.2 fun entry hentry => ?_
  obtain ⟨content, -, hstands⟩ := Matched.mem_right (stands input graph) entry hentry
  rw [checkSection, bytesAt_eq_ok.2 hstands.bytes, ok_bind]
  exact if_neg (not_not.2 hstands.digest.symm)

/-! ## Loading -/

/-- The digest at the end of the file is that of the bytes before it. -/
theorem footer_file (input : SnapshotInput) (graph : Bytes) :
    (blake3 ((input.file graph).take ((input.file graph).length - footerLen))).1 =
      (input.file graph).drop ((input.file graph).length - footerLen) := by
  have hend : (input.file graph).length - footerLen = (input.body graph).length := by
    rw [length_file]
    exact Nat.add_sub_cancel _ _
  rw [hend, SnapshotInput.file, List.take_left' rfl, List.drop_left' rfl]

/-- The `f32` section of the file, aligned for the map. -/
theorem findVectors_file (h : input.Encodable) :
    ∃ entry, findSection (input.table graph) sectionVectorsF32 = .ok entry ∧
      entry.len = input.slots.length * input.dims * 4 ∧ entry.offset % 4 = 0 ∧
      slice (input.file graph) entry.offset (input.slots.length * input.dims * 4) =
        some (input.vectors.rows.flatMap F32.manyToLe) ∧
      entry.digest = (blake3 (input.vectors.rows.flatMap F32.manyToLe)).1 := by
  have hmem : (sectionVectorsF32, input.vectors.rows.flatMap F32.manyToLe) ∈ input.sections graph := by
    simp [SnapshotInput.sections]
  obtain ⟨entry, hfind, hstands⟩ :=
    findSection_eq (stands input graph) (nodup_sections input graph) hmem
  have hlen : entry.len = input.slots.length * input.dims * 4 := by
    have hrows : input.vectors.rows.length = input.slots.length := by
      rw [h.slots]
      exact h.shaped.vectors
    rw [hstands.len, length_flatMap_rows, hrows]
    exact fun row hrow => (input.vectors.width_rows hrow).trans h.dims
  refine ⟨entry, hfind, hlen, ?_, ?_, hstands.digest⟩
  · have := hstands.aligned
    omega
  · rw [← hlen]
    exact hstands.bytes

theorem mapRows_file (h : input.Encodable) {offset : ℕ} (haligned : offset % 4 = 0)
    (hslice : slice (input.file graph) offset (input.slots.length * input.dims * 4) =
      some (input.vectors.rows.flatMap F32.manyToLe))
    (hsize : (input.file graph).length < 2 ^ 64) :
    mapRows (input.file graph) offset input.slots.length input.dims =
      .ok (input.mapped h.dims) := by
  have hrows : input.slots.length = input.vectors.len := h.slots.trans h.shaped.vectors.symm
  have hdims : input.vectors.dims ≠ 0 := by
    rw [h.dims]
    exact h.dims_pos.ne'
  unfold SnapshotInput.mapped
  rw [hrows] at hslice ⊢
  simp only [← h.dims] at hslice ⊢
  exact mapRows_eq hdims hslice haligned hsize

/-- Loading gives back what was encoded. -/
theorem load_encode (h : input.Encodable) (hc : input.Countable) (hshort : input.Short)
    {bytes : Bytes} (hencode : encode input = .ok bytes) (hsize : bytes.length < 2 ^ 64) :
    load bytes input.partitionId = .ok (input.loaded h.dims bytes.length) := by
  obtain ⟨graph, hgraph, hfile⟩ := encode_eq h
  cases hfile.symm.trans hencode
  have hkeys : sectionBytes (input.file graph) (input.table graph) sectionKeys =
      .ok (input.keys.flatMap keyToLe) := sectionBytes_file (by simp [SnapshotInput.sections])
  have hpayloads : sectionBytes (input.file graph) (input.table graph) sectionPayloads =
      .ok (input.slots.flatMap SlotRecord.payload) :=
    sectionBytes_file (by simp [SnapshotInput.sections])
  have hslots : sectionBytes (input.file graph) (input.table graph) sectionSlots =
      .ok (recordsToLe 0 input.slots) := sectionBytes_file (by simp [SnapshotInput.sections])
  have hcodes : sectionBytes (input.file graph) (input.table graph) sectionVectorsI8 =
      .ok (F32.manyToLe input.quantized.scales ++ F32.manyToLe input.quantized.normsSq ++
        input.quantized.data.map Int8.toUInt8) :=
    sectionBytes_file (by simp [SnapshotInput.sections])
  have hlinks : sectionBytes (input.file graph) (input.table graph) sectionGraph = .ok graph :=
    sectionBytes_file (by simp [SnapshotInput.sections])
  have hwindow : sectionBytes (input.file graph) (input.table graph) sectionIdempotency =
      .ok (input.idempotency.flatMap idempotentToLe) :=
    sectionBytes_file (by simp [SnapshotInput.sections])
  have hpayload : (input.slots.flatMap SlotRecord.payload).length < 2 ^ 64 :=
    (length_section_le (show (sectionPayloads, input.slots.flatMap SlotRecord.payload) ∈
      input.sections graph by simp [SnapshotInput.sections])).trans_lt hsize
  -- every section is read back
  have hkeys' : readAll (many readKey input.keys.length) "keys section trailing bytes"
      (input.keys.flatMap keyToLe) = .ok input.keys := by
    refine readAll_many fun key hkey rest => readKey_append ?_ rest
    have := h.key_le key hkey
    omega
  have hslots' : readAll (many (readRecord (input.slots.flatMap SlotRecord.payload))
      input.slots.length) "slots section trailing bytes" (recordsToLe 0 input.slots) =
        .ok input.slots := by
    have hrecords := @readRecords_append _ [] h.version hshort hpayload [] []
    simp only [List.nil_append, List.append_nil, List.length_nil] at hrecords
    exact readAll_eq hrecords
  obtain ⟨entry, hfind, hlen, haligned, hslice, -⟩ := findVectors_file h
  have hvectors := mapRows_file h haligned hslice hsize
  have hf32 : input.slots.length * input.dims * 4 < 2 ^ 64 :=
    ((Nat.le_add_left _ _).trans (slice_eq_some hslice).1).trans_lt hsize
  have hcodes' : readQuantized input.slots.length input.dims (F32.manyToLe input.quantized.scales ++
      F32.manyToLe input.quantized.normsSq ++ input.quantized.data.map Int8.toUInt8) =
        .ok input.quantized := by
    refine readQuantized_eq h.dims_pos.ne' ?_
    rw [h.slots, ← h.dims]
    exact h.shaped.quantized
  have hlinks' : readAll (readGraph input.slots.length) "graph section trailing bytes" graph =
      .ok (input.params, input.graph) := by
    rw [h.slots] at hgraph ⊢
    exact readAll_eq (readGraph_eq h.shaped (h.narrow hc) hgraph)
  have hvalid : validateStructure input.params input.slots.length input.keys input.slots
      input.graph = .ok () := by
    rw [h.slots]
    exact (validateStructure_eq_ok h.shaped).2 h.consistent
  have hwindow' : readAll (many readIdempotent input.idempotency.length)
      "idempotency section trailing bytes" (input.idempotency.flatMap idempotentToLe) =
        .ok input.idempotency :=
    readAll_many fun entry hentry rest => readIdempotent_append (h.seq entry hentry) rest
  have hlen' : ¬entry.len ≠ input.slots.length * input.dims * 4 % 2 ^ 64 := by
    rw [Nat.mod_eq_of_lt hf32]
    exact not_not.2 hlen
  rw [ne_eq] at hlen'
  unfold load
  simp only [readHeader_file h hc, ok_bind, footer_file, ne_eq, not_true_eq_false, if_false,
    readTable_file hsize, checkSections_file, hkeys, hpayloads, hslots, hcodes, hlinks, hwindow,
    hfind, slotCount_header, keyCount_header, idemCount_header, dims_header, hkeys', hslots',
    hvectors, hcodes', hlinks', hvalid, hwindow', hlen', pure_eq_ok]
  rfl

/-- The rows of the written file are those that were captured. -/
theorem mapVectors_encode (h : input.Encodable) (hc : input.Countable) {bytes : Bytes}
    (hencode : encode input = .ok bytes) (hsize : bytes.length < 2 ^ 64) :
    mapVectors bytes input.partitionId input.dims input.slots.length =
      .ok (input.mapped h.dims) := by
  obtain ⟨graph, -, hfile⟩ := encode_eq h
  cases hfile.symm.trans hencode
  obtain ⟨entry, hfind, hlen, haligned, hslice, hdigest⟩ := findVectors_file h
  have hf32 : input.slots.length * input.dims * 4 < 2 ^ 64 :=
    ((Nat.le_add_left _ _).trans (slice_eq_some hslice).1).trans_lt hsize
  have hlen' : ¬entry.len ≠ input.slots.length * input.dims * 4 % 2 ^ 64 := by
    rw [Nat.mod_eq_of_lt hf32]
    exact not_not.2 hlen
  have hcontent : bytesAt (input.file graph) entry.offset entry.len =
      .ok (input.vectors.rows.flatMap F32.manyToLe) := by
    rw [hlen]
    exact bytesAt_eq_ok.2 hslice
  unfold mapVectors
  simp only [readHeader_file h hc, ok_bind, slotCount_header, dims_header, ne_eq,
    not_true_eq_false, or_self, if_false, readTable_file hsize, hfind, hcontent]
  rw [if_neg hlen', if_neg (not_not.2 hdigest.symm)]
  exact mapRows_file h haligned hslice hsize

/-- The file of a snapshot is loaded as the snapshot, and its rows are mapped again. -/
def SnapshotInput.Reloads (input : SnapshotInput) (hdims : input.vectors.dims = input.dims) : Prop :=
  ∃ bytes, encode input = .ok bytes ∧
    load bytes input.partitionId = .ok (input.loaded hdims bytes.length) ∧
    mapVectors bytes input.partitionId input.dims input.slots.length = .ok (input.mapped hdims)

/-- The counts that are read back are those of the header. -/
theorem SnapshotInput.Reloads.counted {hdims : input.vectors.dims = input.dims}
    (h : input.Reloads hdims) : input.Countable ∧ input.Short := by
  obtain ⟨bytes, -, hload, -⟩ := h
  obtain ⟨-, hcountable, hshort, -⟩ := formed_of_load hload
  exact ⟨⟨hcountable.slots, hcountable.keys, hcountable.idempotency⟩, hshort⟩

/-- A file of less than 2⁶⁴ bytes reloads exactly when the counts of slots, keys and operation ids
and the lengths of the payloads fit four bytes. -/
theorem reloads_iff (h : input.Encodable)
    (hsize : ∀ bytes, encode input = .ok bytes → bytes.length < 2 ^ 64) :
    input.Reloads h.dims ↔ input.Countable ∧ input.Short := by
  refine ⟨SnapshotInput.Reloads.counted, ?_⟩
  rintro ⟨hcountable, hshort⟩
  obtain ⟨graph, -, hencode⟩ := encode_eq h
  exact ⟨_, hencode, load_encode h hcountable hshort hencode (hsize _ hencode),
    mapVectors_encode h hcountable hencode (hsize _ hencode)⟩

theorem length_pair {upper : UInt8} (h : (pair upper).Encodable) {bytes : Bytes}
    (hencode : encode (pair upper) = .ok bytes) : bytes.length < 2 ^ 64 := by
  obtain ⟨graph, hgraph, hfile⟩ := encode_eq h
  cases hfile.symm.trans hencode
  have hlen : graph.length = 70 := by
    cases hgraph
    rfl
  have hlens : ((pair upper).sections graph).map (fun s => s.2.length) =
      [14, 50, 1, 8, 18, graph.length, 48] := rfl
  rw [length_file_eq_sum, hlens, hlen]
  decide

omit [Digests] in
/-- A snapshot of two slots is loaded again. -/
theorem reloads_pair : @SnapshotInput.Reloads .standard (pair 0) rfl := by
  have h := @encodable_pair 0 (by decide)
  exact (@reloads_iff _ .standard h fun bytes => @length_pair .standard _ h bytes).2
    ⟨countable_pair 0, short_pair 0⟩

theorem length_encode_deletes {n : ℕ} (h : n < 2 ^ 64) {bytes : Bytes}
    (hencode : encode (deletes n) = .ok bytes) : bytes.length < 24 * n + 1024 := by
  obtain ⟨graph, hgraph, hfile⟩ := encode_eq (encodable_deletes h)
  cases hfile.symm.trans hencode
  have hlen : graph.length = 33 := by
    cases hgraph
    rfl
  have hids : ((deletes n).idempotency.flatMap idempotentToLe).length = n * 24 := by
    have hmap : (deletes n).idempotency.map (fun entry => (idempotentToLe entry).length) =
        List.replicate n 24 := by
      refine List.eq_replicate_iff.2 ⟨(List.length_map _).trans (length_deletes n), fun k hk => ?_⟩
      obtain ⟨entry, -, rfl⟩ := List.mem_map.1 hk
      rw [idempotentToLe, List.length_append, entry.1.2, length_toLeBytes]
    rw [List.length_flatMap, hmap, List.sum_replicate_nat]
  have hlens : ((deletes n).sections graph).map (fun s => s.2.length) =
      [0, 0, 0, 0, 0, graph.length, ((deletes n).idempotency.flatMap idempotentToLe).length] := rfl
  have hfooter : footerLen = 32 := rfl
  have hfirst : firstSection = 512 := by decide
  rw [length_file_eq_sum, hlens, hlen, hids]
  simp only [List.map_cons, List.map_nil, List.sum_cons, List.sum_nil, alignUp, align]
  omega

omit [Digests] in
/-- The operation ids of 2³² deletes are written with the count zero, and the file is rejected. -/
theorem many_deletes_not_reloaded : ((deletes (2 ^ 32)).idempotency.map Prod.fst).Nodup ∧
    ¬ ∀ (_ : Digests) (input : SnapshotInput) (h : input.Encodable),
      (∀ bytes, encode input = .ok bytes → bytes.length < 2 ^ 64) → input.Reloads h.dims := by
  have hn : 2 ^ 32 < 2 ^ 64 := by decide
  have hsize : 24 * 2 ^ 32 + 1024 < 2 ^ 64 := by decide
  refine ⟨nodup_deletes hn, fun hall => ?_⟩
  have hreloads := @hall .standard (deletes (2 ^ 32)) (encodable_deletes hn)
    fun bytes hencode => (@length_encode_deletes .standard _ hn bytes hencode).trans hsize
  have hcount := (@SnapshotInput.Reloads.counted _ .standard _ hreloads).1.idempotency
  rw [length_deletes] at hcount
  exact Nat.lt_irrefl _ hcount

end Index

end DistrHnsw
