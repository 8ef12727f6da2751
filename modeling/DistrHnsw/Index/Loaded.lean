import DistrHnsw.Index.Query
import DistrHnsw.Index.RoundTrip

/-!
# Searching a loaded graph

The structural checks do not compare the level of a list with the levels of the slots it names.  A
loaded graph is searched and extended within its buffers exactly when every list names slots of its
level.
-/

namespace DistrHnsw

namespace Index

namespace Hnsw

variable {g : Hnsw}

/-- Queries and a following insertion access slots of the graph only, and every list names slots of
its level. -/
structure Guarded (g : Hnsw) : Prop where
  searchWith (query : List F32) (k ef : ℕ) (mode : SearchMode) (allow : Option (Slot → Bool)) :
    query.length = g.dims → Returns (g.searchWith query k ef mode allow) g.HitsIn
  searchFiltered (query : List F32) (k ef : ℕ) (mode : SearchMode) (allowed : Bitmap)
    (cutover : ℕ) : query.length = g.dims →
    Returns (g.searchFiltered query k ef mode allowed cutover) g.HitsIn
  insert (vector : List F32) : Returns (g.insert vector) (fun out => out.2.Valid) ∨
    ∃ error, g.insert vector = .error (.vector error)
  leveled : g.Leveled

theorem Valid.guarded (h : g.Valid) (hroom : g.len < 2 ^ 32) : g.Guarded where
  searchWith _ k ef mode allow hquery := h.returns_searchWith hquery k ef mode allow
  searchFiltered _ k ef mode allowed cutover hquery :=
    h.returns_searchFiltered hquery k ef mode allowed cutover
  insert vector := by
    by_cases hgood : vector.length = g.dims ∧ ∀ value ∈ vector, value.isFinite = true
    · exact .inl ((h.returns_insert hgood.1 hgood.2 hroom).mono fun _ hout => hout.valid)
    · apply Or.inr
      apply insert_refused
      by_cases hdims : vector.length = g.dims
      · right
        simpa [hdims] using hgood
      · exact .inl hdims
  leveled := h.toLinked.leveled

end Hnsw

theorem SnapshotInput.Formed.valid {input : SnapshotInput} (h : input.Formed)
    (hl : input.index.Leveled) : input.index.Valid where
  toLinked := Hnsw.linked_of h.shaped h.consistent.inRange hl
  entry slot hslot := ⟨(h.consistent.entry slot hslot).1, (h.consistent.entry slot hslot).2.ge⟩
  empty := h.consistent.empty

theorem fromParts_eq {input : SnapshotInput} {g : Hnsw}
    (h : Hnsw.fromParts input.params input.metric input.vectors input.quantized input.graph = some g) :
    g = input.index := by
  unfold Hnsw.fromParts at h
  split at h
  · cases h
    rfl
  · cases h

/-- The parts of a well-formed snapshot pass the shape checks. -/
theorem SnapshotInput.Formed.fromParts {input : SnapshotInput} (h : input.Formed) :
    Hnsw.fromParts input.params input.metric input.vectors input.quantized input.graph =
      some input.index := by
  have hs := h.shaped
  have hlen : input.index.len = input.vectors.len := hs.vectors.symm
  have hfit : Hnsw.partsFit input.params input.vectors input.quantized input.graph = true := by
    refine Bool.and_eq_true_iff.2 ⟨Bool.and_eq_true_iff.2 ⟨decide_eq_true ?_, ?_⟩, ?_⟩
    · rw [← hlen]
      exact ⟨hs.quantized.scales, rfl, hs.level0Len, hs.level0, hs.upper, hs.upperLen, hs.tombstones⟩
    · refine List.all_eq_true.2 ?_
      rintro ⟨level, links, lens⟩ hmem
      obtain ⟨s, hs'⟩ := List.mem_iff_getElem?.1 hmem
      obtain ⟨hlevel, hpair⟩ := List.getElem?_zip_eq_some.1 hs'
      obtain ⟨hlinks, hlens⟩ := List.getElem?_zip_eq_some.1 hpair
      exact decide_eq_true ⟨hs.links hlevel hlinks, hs.lens hlevel hlens⟩
    · rw [← hlen]
      cases he : input.graph.entry with
      | none => exact decide_eq_true (h.consistent.empty he)
      | some entry => exact decide_eq_true (h.consistent.entry entry he).1
  exact if_pos hfit

/-- A graph rebuilt from a file that is loaded is guarded exactly when every list of a level names
slots of that level. -/
theorem guarded_iff_leveled [Digests] {bytes : Bytes} {id : Uuid} {s : LoadedSnapshot} {g : Hnsw}
    (hload : load bytes id = .ok s)
    (hparts : Hnsw.fromParts s.params s.metric s.vectors s.quantized s.graph = some g) :
    g.Guarded ↔ g.Leveled := by
  obtain ⟨hformed, hcountable, -, -⟩ := formed_of_load hload
  cases fromParts_eq hparts
  refine ⟨fun h => h.leveled, fun hl => (hformed.valid hl).guarded ?_⟩
  rw [← hformed.slots]
  exact hcountable.slots

/-! ## The two slots -/

/-- The file of two slots is loaded, whatever the list on level 1 is. -/
theorem load_pair [Digests] {upper : UInt8} (h : (pair upper).Encodable) :
    ∃ bytes, load bytes (pair upper).partitionId = .ok ((pair upper).loaded rfl bytes.length) := by
  obtain ⟨graph, -, hencode⟩ := encode_eq h
  exact ⟨_, load_encode h (countable_pair upper) (short_pair upper) hencode (length_pair h hencode)⟩

theorem leveled_pair : (pair 0).index.Leveled := by
  intro level slot list hon hread n hn
  cases level with
  | zero => exact Nat.zero_le _
  | succ level =>
    obtain ⟨lens, hlens, len, hlen, links, hlinks, hslice⟩ := Hnsw.neighbours_succ_eq_ok.1 hread
    have hempty : ∀ lens ∈ (pair 0).index.upperLen, ∀ len ∈ lens, len = 0 := by decide +kernel
    have hzero : len = 0 := hempty lens (List.mem_of_getElem? hlens) len (List.mem_of_getElem? hlen)
    have hnil : list.length = 0 := by
      rw [slice_length hslice, hzero]
      rfl
    rw [List.length_eq_zero_iff.1 hnil] at hn
    exact absurd hn List.not_mem_nil

theorem guarded_pair : (pair 0).index.Guarded := by
  obtain ⟨bytes, hload⟩ := @load_pair .standard 0 (encodable_pair (by decide))
  exact (@guarded_iff_leveled .standard _ _ _ _ hload (@formed_of_load .standard _ _ _ hload).1.fromParts).2 leveled_pair

/-- The list of the first slot on level 1 names the second slot, which is on level 0 only; the descent
reaches it and reads its list on level 1. -/
theorem search_pair : (pair 1).index.searchWith [F32.zero] 1 1 .f32 none = .error .bounds := by
  decide +kernel

theorem loaded_pair_faults : ¬ ∀ (_ : Digests) (bytes : Bytes) (id : Uuid) (s : LoadedSnapshot)
    (g : Hnsw), load bytes id = .ok s →
      Hnsw.fromParts s.params s.metric s.vectors s.quantized s.graph = some g →
        ∀ query k ef mode allow, query.length = g.dims →
          Returns (g.searchWith query k ef mode allow) g.HitsIn := by
  intro hall
  obtain ⟨bytes, hload⟩ := @load_pair .standard 1 (encodable_pair (by decide))
  obtain ⟨hits, hsearch, -⟩ := hall .standard _ _ _ _ hload (@formed_of_load .standard _ _ _ hload).1.fromParts [F32.zero] 1 1 .f32
    none rfl
  cases search_pair.symm.trans hsearch

end Index

end DistrHnsw
