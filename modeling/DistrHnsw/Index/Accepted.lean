import DistrHnsw.Index.Structure
import DistrHnsw.Lib.Matched

/-!
# What loading accepts

A file that is loaded gives a snapshot whose buffers have the lengths of its slots, whose values fit
the fields of the format, and which the structural checks accept.
-/

namespace DistrHnsw

namespace Index

open Reader

variable {input : SnapshotInput}

/-- The graph that a snapshot captures. -/
def SnapshotInput.index (input : SnapshotInput) : Hnsw :=
  ⟨input.graph, input.params, input.metric, input.vectors, input.quantized⟩

/-- The lengths of the buffers, the ranges of the values, and what the structural checks ask. -/
structure SnapshotInput.Formed (input : SnapshotInput) : Prop where
  shaped : input.index.Shaped
  slots : input.slots.length = input.index.len
  dims : input.vectors.dims = input.dims
  dims_pos : 0 < input.dims
  dims_lt : input.dims < 2 ^ 32
  m : 0 < input.params.m
  m0 : 0 < input.params.m0
  efConstruction : input.params.efConstruction < 2 ^ 32
  highWater : input.highWater < 2 ^ 64
  version (record : SlotRecord) : record ∈ input.slots → record.version < 2 ^ 64
  seq (entry : OpId × ℕ) : entry ∈ input.idempotency → entry.2 < 2 ^ 64
  consistent : Consistent input.index input.keys input.slots

/-- The payload lengths fit their fields. -/
def SnapshotInput.Short (input : SnapshotInput) : Prop :=
  ∀ record ∈ input.slots, record.payload.length < 2 ^ 32

theorem SnapshotInput.Formed.narrow (h : input.Formed) (hc : input.Countable) :
    input.index.Narrow where
  m := h.m
  m0 := h.m0
  efConstruction := h.efConstruction
  tombstoneCount := by
    rw [← h.consistent.count]
    have := List.length_filter_le SlotRecord.tombstone input.slots
    have := hc.slots
    omega
  entry heq := by
    have hlt := (h.consistent.entry noSlot heq).1
    rw [← h.slots] at hlt
    have hmax : noSlot.toNat = 2 ^ 32 - 1 := rfl
    have := hc.slots
    omega


/-! ## The values that are read -/

theorem readRecord_bounds {payloads bytes rest : Bytes} {record : SlotRecord}
    (h : readRecord payloads bytes = .ok (record, rest)) :
    record.version < 2 ^ 64 ∧ record.payload.length < 2 ^ 32 := by
  unfold readRecord at h
  obtain ⟨⟨version, c⟩, hversion, h⟩ := DistrHnsw.bind_eq_ok.1 h
  obtain ⟨⟨flag, c⟩, -, h⟩ := DistrHnsw.bind_eq_ok.1 h
  obtain ⟨tombstone, -, h⟩ := DistrHnsw.bind_eq_ok.1 h
  obtain ⟨⟨keyIndex, c⟩, -, h⟩ := DistrHnsw.bind_eq_ok.1 h
  obtain ⟨⟨offset, c⟩, -, h⟩ := DistrHnsw.bind_eq_ok.1 h
  obtain ⟨⟨len, c⟩, hlen, h⟩ := DistrHnsw.bind_eq_ok.1 h
  dsimp only at h
  split at h
  · cases h
  · rename_i payload hslice
    cases h
    refine ⟨lt_of_word hversion, ?_⟩
    rw [slice_length hslice]
    exact lt_of_word hlen

theorem readIdempotent_bounds {bytes rest : Bytes} {entry : OpId × ℕ}
    (h : readIdempotent bytes = .ok (entry, rest)) : entry.2 < 2 ^ 64 := by
  unfold readIdempotent at h
  obtain ⟨⟨opId, c⟩, -, h⟩ := DistrHnsw.bind_eq_ok.1 h
  obtain ⟨⟨seq, c⟩, hseq, h⟩ := DistrHnsw.bind_eq_ok.1 h
  cases h
  exact lt_of_word hseq

theorem readQuantized_shaped {slots dims : ℕ} {bytes : Bytes} {quantized : QuantizedVectors}
    (h : readQuantized slots dims bytes = .ok quantized) : quantized.Shaped dims slots := by
  unfold readQuantized at h
  obtain ⟨⟨scales, norms, codes⟩, hread, h⟩ := DistrHnsw.bind_eq_ok.1 h
  have hread := readAll_eq_ok.1 hread
  obtain ⟨⟨scales', c⟩, hscales, hread⟩ := DistrHnsw.bind_eq_ok.1 hread
  obtain ⟨⟨norms', c⟩, hnorms, hread⟩ := DistrHnsw.bind_eq_ok.1 hread
  obtain ⟨⟨codes', c⟩, hcodes, hread⟩ := DistrHnsw.bind_eq_ok.1 hread
  cases hread
  dsimp only at h
  split at h
  · cases h
  · rename_i parts hparts
    cases h
    unfold QuantizedVectors.fromParts at hparts
    split at hparts
    · cases hparts
    · cases hparts
      refine ⟨rfl, ?_, length_of_many hscales, length_of_many hnorms⟩
      exact (List.length_map _).trans (length_of_take hcodes)

theorem mapRows_shaped {bytes : Bytes} {offset rows dims : ℕ} {vectors : FlatVectors}
    (h : mapRows bytes offset rows dims = .ok vectors) : vectors.dims = dims ∧ vectors.len = rows := by
  unfold mapRows at h
  simp only [guard_eq_ok] at h
  obtain ⟨-, -, h⟩ := h
  obtain ⟨content, -, h⟩ := DistrHnsw.bind_eq_ok.1 h
  split at h
  · cases h
    refine ⟨rfl, ?_⟩
    rw [FlatVectors.len, FlatVectors.rows_fromMapped]
    simp [mappedRows]
  · cases h

/-! ## The graph that is read -/

theorem readUpper_shaped {m : ℕ} {level : UInt8} {bytes rest : Bytes}
    {lists : List UInt8 × List Slot} (h : readUpper m level bytes = .ok (lists, rest)) :
    lists.1.length = level.toNat ∧ lists.2.length = level.toNat * m := by
  unfold readUpper at h
  split at h
  · rename_i hzero
    cases h
    subst hzero
    exact ⟨rfl, (Nat.zero_mul m).symm⟩
  · obtain ⟨⟨lens, c⟩, hlens, h⟩ := DistrHnsw.bind_eq_ok.1 h
    obtain ⟨⟨links, c⟩, hlinks, h⟩ := DistrHnsw.bind_eq_ok.1 h
    cases h
    exact ⟨length_of_take hlens, length_of_many hlinks⟩

theorem readUppers_shaped {m : ℕ} {levels : List UInt8} {bytes rest : Bytes}
    {lists : List (List UInt8 × List Slot)} (h : readUppers m levels bytes = .ok (lists, rest)) :
    List.Forall₂ (fun level l => l.1.length = level.toNat ∧ l.2.length = level.toNat * m)
      levels lists := by
  induction levels generalizing bytes lists with
  | nil =>
    cases h
    exact .nil
  | cons level levels ih =>
    obtain ⟨⟨first, c⟩, hfirst, h⟩ := DistrHnsw.bind_eq_ok.1 h
    obtain ⟨⟨more, c⟩, hmore, h⟩ := DistrHnsw.bind_eq_ok.1 h
    cases h
    exact .cons (readUpper_shaped hfirst) (ih hmore)

/-- The buffers of a graph that is read. -/
structure GraphParts.Sized (parts : GraphParts) (params : HnswParams) (slots : ℕ) : Prop where
  m : 0 < params.m
  m_le : params.m ≤ 255
  m0 : 0 < params.m0
  m0_le : params.m0 ≤ 255
  efConstruction : params.efConstruction < 2 ^ 32
  levels : parts.levels.length = slots
  level0 : parts.level0.length = slots * params.m0
  level0Len : parts.level0Len.length = slots
  tombstones : parts.tombstones.length = (slots + 63) / 64
  uppers : ∃ lists : List (List UInt8 × List Slot),
    parts.upper = lists.map Prod.snd ∧ parts.upperLen = lists.map Prod.fst ∧
      List.Forall₂ (fun level l => l.1.length = level.toNat ∧ l.2.length = level.toNat * params.m)
        parts.levels lists

theorem readGraph_sized {slots : ℕ} {bytes rest : Bytes} {params : HnswParams} {parts : GraphParts}
    (h : readGraph slots bytes = .ok ((params, parts), rest)) : parts.Sized params slots := by
  unfold readGraph at h
  obtain ⟨⟨m, c⟩, -, h⟩ := DistrHnsw.bind_eq_ok.1 h
  obtain ⟨⟨m0, c⟩, -, h⟩ := DistrHnsw.bind_eq_ok.1 h
  obtain ⟨⟨efConstruction, c⟩, hef, h⟩ := DistrHnsw.bind_eq_ok.1 h
  obtain ⟨⟨seed, c⟩, -, h⟩ := DistrHnsw.bind_eq_ok.1 h
  obtain ⟨hparams, h⟩ := guard_eq_ok.1 h
  obtain ⟨⟨entryRaw, c⟩, -, h⟩ := DistrHnsw.bind_eq_ok.1 h
  obtain ⟨⟨maxLevel, c⟩, -, h⟩ := DistrHnsw.bind_eq_ok.1 h
  obtain ⟨⟨tombstoneCount, c⟩, -, h⟩ := DistrHnsw.bind_eq_ok.1 h
  obtain ⟨⟨levels, c⟩, hlevels, h⟩ := DistrHnsw.bind_eq_ok.1 h
  obtain ⟨⟨level0Len, c⟩, hlevel0Len, h⟩ := DistrHnsw.bind_eq_ok.1 h
  obtain ⟨⟨level0, c⟩, hlevel0, h⟩ := DistrHnsw.bind_eq_ok.1 h
  obtain ⟨⟨tombstones, c⟩, htombstones, h⟩ := DistrHnsw.bind_eq_ok.1 h
  obtain ⟨⟨uppers, c⟩, huppers, h⟩ := DistrHnsw.bind_eq_ok.1 h
  cases h
  exact {
    m := by dsimp only; omega
    m_le := by dsimp only; omega
    m0 := by dsimp only; omega
    m0_le := by dsimp only; omega
    efConstruction := lt_of_word hef
    levels := length_of_take hlevels
    level0 := length_of_many hlevel0
    level0Len := length_of_take hlevel0Len
    tombstones := length_of_many htombstones
    uppers := ⟨uppers, rfl, rfl, readUppers_shaped huppers⟩ }

/-- The graph over a graph section and vectors of its slots. -/
theorem GraphParts.Sized.shaped {parts : GraphParts} {params : HnswParams} {slots dims : ℕ}
    (h : parts.Sized params slots) (metric : Metric) {vectors : FlatVectors}
    {quantized : QuantizedVectors} (hslots : slots ≤ 2 ^ 32) (hlen : vectors.len = slots)
    (hdims : vectors.dims = dims) (hq : quantized.Shaped dims slots) :
    Hnsw.Shaped ⟨parts, params, metric, vectors, quantized⟩ := by
  obtain ⟨lists, hupper, hupperLen, hlists⟩ := h.uppers
  have hcount : lists.length = slots := by rw [← hlists.length_eq, h.levels]
  have hlists' {s : ℕ} {level : UInt8} (hs : parts.levels[s]? = some level) :
      ∃ l, lists[s]? = some l ∧ l.1.length = level.toNat ∧ l.2.length = level.toNat * params.m := by
    obtain ⟨hlt, rfl⟩ := List.getElem?_eq_some_iff.1 hs
    have hlt' : s < lists.length := by rwa [← hlists.length_eq]
    exact ⟨lists[s], List.getElem?_eq_getElem hlt', (List.forall₂_iff_get.1 hlists).2 s hlt hlt'⟩
  have hsize : Hnsw.len ⟨parts, params, metric, vectors, quantized⟩ = slots := h.levels
  refine ⟨h.m_le, h.m0_le, ?_, ?_, ?_, ?_, ?_, ?_, ?_, ?_, ?_, ?_⟩ <;> simp only [hsize]
  · exact hslots
  · exact hlen
  · rw [hdims]
    exact hq
  · exact h.level0
  · exact h.level0Len
  · rw [hupper, List.length_map, hcount]
  · rw [hupperLen, List.length_map, hcount]
  · intro s level links hs hlinks
    obtain ⟨l, hl, -, hlen⟩ := hlists' hs
    rw [hupper, List.getElem?_map, hl] at hlinks
    cases hlinks
    exact hlen
  · intro s level lens hs hlens
    obtain ⟨l, hl, hlen, -⟩ := hlists' hs
    rw [hupperLen, List.getElem?_map, hl] at hlens
    cases hlens
    exact hlen
  · exact h.tombstones

/-! ## The file that is loaded -/

variable [Digests] {bytes : Bytes} {id : Uuid}

theorem readHeader_bounds {header : Header} (h : readHeader bytes id = .ok header) :
    header.partitionId = id ∧ 0 < header.dims ∧ header.dims < 2 ^ 32 ∧ header.highWater < 2 ^ 64 ∧
      header.slotCount < 2 ^ 32 ∧ header.keyCount < 2 ^ 32 ∧ header.idemCount < 2 ^ 32 ∧
      header.sectionCount < 2 ^ 32 := by
  unfold readHeader at h
  obtain ⟨-, h⟩ := guard_eq_ok.1 h
  dsimp only at h
  obtain ⟨-, h⟩ := guard_eq_ok.1 h
  obtain ⟨⟨magic, c⟩, -, h⟩ := DistrHnsw.bind_eq_ok.1 h
  obtain ⟨-, h⟩ := guard_eq_ok.1 h
  obtain ⟨⟨version, c⟩, -, h⟩ := DistrHnsw.bind_eq_ok.1 h
  obtain ⟨-, h⟩ := guard_eq_ok.1 h
  obtain ⟨⟨flags, c⟩, -, h⟩ := DistrHnsw.bind_eq_ok.1 h
  obtain ⟨⟨partition, c⟩, -, h⟩ := DistrHnsw.bind_eq_ok.1 h
  obtain ⟨hid, h⟩ := guard_eq_ok.1 h
  obtain ⟨⟨dims, c⟩, hdims, h⟩ := DistrHnsw.bind_eq_ok.1 h
  obtain ⟨⟨code, c⟩, -, h⟩ := DistrHnsw.bind_eq_ok.1 h
  dsimp only at h
  split at h
  · cases h
  · obtain ⟨⟨quant, c⟩, -, h⟩ := DistrHnsw.bind_eq_ok.1 h
    obtain ⟨-, h⟩ := guard_eq_ok.1 h
    obtain ⟨⟨reserved, c⟩, -, h⟩ := DistrHnsw.bind_eq_ok.1 h
    obtain ⟨⟨highWater, c⟩, hhigh, h⟩ := DistrHnsw.bind_eq_ok.1 h
    obtain ⟨⟨slotCount, c⟩, hslots, h⟩ := DistrHnsw.bind_eq_ok.1 h
    obtain ⟨⟨liveCount, c⟩, -, h⟩ := DistrHnsw.bind_eq_ok.1 h
    obtain ⟨⟨keyCount, c⟩, hkeys, h⟩ := DistrHnsw.bind_eq_ok.1 h
    obtain ⟨⟨idemCount, c⟩, hidem, h⟩ := DistrHnsw.bind_eq_ok.1 h
    obtain ⟨⟨sectionCount, c⟩, hsections, h⟩ := DistrHnsw.bind_eq_ok.1 h
    obtain ⟨⟨tableOffset, c⟩, -, h⟩ := DistrHnsw.bind_eq_ok.1 h
    obtain ⟨hpos, h⟩ := guard_eq_ok.1 h
    cases h
    exact ⟨not_not.1 hid, Nat.pos_of_ne_zero hpos, lt_of_word hdims, lt_of_word hhigh,
      lt_of_word hslots, lt_of_word hkeys, lt_of_word hidem, lt_of_word hsections⟩

/-- A snapshot that is loaded is well formed, and its counts fit the header. -/
theorem formed_of_load {s : LoadedSnapshot} (h : load bytes id = .ok s) :
    s.Formed ∧ s.Countable ∧ s.Short ∧ s.partitionId = id := by
  unfold load at h
  obtain ⟨header, hheader, h⟩ := DistrHnsw.bind_eq_ok.1 h
  obtain ⟨hid, hpos, hwidth, hhigh, hslotCount, hkeyCount, hidemCount, -⟩ :=
    readHeader_bounds hheader
  obtain ⟨-, h⟩ := guard_eq_ok.1 h
  obtain ⟨sections, -, h⟩ := DistrHnsw.bind_eq_ok.1 h
  obtain ⟨-, h⟩ := check_bind_eq_ok.1 h
  obtain ⟨keysSection, -, h⟩ := DistrHnsw.bind_eq_ok.1 h
  obtain ⟨keys, hkeys, h⟩ := DistrHnsw.bind_eq_ok.1 h
  obtain ⟨payloads, -, h⟩ := DistrHnsw.bind_eq_ok.1 h
  obtain ⟨slotsSection, -, h⟩ := DistrHnsw.bind_eq_ok.1 h
  obtain ⟨slots, hslots, h⟩ := DistrHnsw.bind_eq_ok.1 h
  obtain ⟨f32, -, h⟩ := DistrHnsw.bind_eq_ok.1 h
  obtain ⟨-, h⟩ := guard_eq_ok.1 h
  obtain ⟨vectors, hvectors, h⟩ := DistrHnsw.bind_eq_ok.1 h
  obtain ⟨codesSection, -, h⟩ := DistrHnsw.bind_eq_ok.1 h
  obtain ⟨quantized, hquantized, h⟩ := DistrHnsw.bind_eq_ok.1 h
  obtain ⟨graphSection, -, h⟩ := DistrHnsw.bind_eq_ok.1 h
  obtain ⟨⟨params, graph⟩, hgraph, h⟩ := DistrHnsw.bind_eq_ok.1 h
  obtain ⟨hvalid, h⟩ := check_bind_eq_ok.1 h
  obtain ⟨idempotencySection, -, h⟩ := DistrHnsw.bind_eq_ok.1 h
  obtain ⟨idempotency, hidempotency, h⟩ := DistrHnsw.bind_eq_ok.1 h
  cases h
  have hkeys := length_of_many (readAll_eq_ok.1 hkeys)
  have hslots := readAll_eq_ok.1 hslots
  have hrecords := mem_of_many (fun hread => readRecord_bounds hread) hslots
  have hslots := length_of_many hslots
  have hidempotency := readAll_eq_ok.1 hidempotency
  have hseqs := mem_of_many (fun hread => readIdempotent_bounds hread) hidempotency
  have hidempotency := length_of_many hidempotency
  obtain ⟨hdims, hlen⟩ := mapRows_shaped hvectors
  have hsized := readGraph_sized (readAll_eq_ok.1 hgraph)
  have hshaped : Hnsw.Shaped ⟨graph, params, header.metric, vectors, quantized⟩ :=
    hsized.shaped header.metric hslotCount.le hlen hdims (readQuantized_shaped hquantized)
  have hcount : header.slotCount = Hnsw.len ⟨graph, params, header.metric, vectors, quantized⟩ :=
    hsized.levels.symm
  rw [hcount] at hvalid
  refine ⟨⟨hshaped, hslots.trans hcount, hdims, hpos, hwidth, hsized.m, hsized.m0,
    hsized.efConstruction, hhigh, fun record hrecord => (hrecords record hrecord).1, hseqs,
    (validateStructure_eq_ok hshaped).1 hvalid⟩, ⟨?_, ?_, ?_⟩,
    fun record hrecord => (hrecords record hrecord).2, hid⟩
  · exact hslots.trans_lt hslotCount
  · exact hkeys.trans_lt hkeyCount
  · exact hidempotency.trans_lt hidemCount

end Index

end DistrHnsw
