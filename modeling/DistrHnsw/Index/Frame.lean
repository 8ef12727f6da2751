import DistrHnsw.Index.Insert

/-!
# What an insertion leaves alone

Linking writes neighbour lists and nothing else, whatever the lists held before; so an insertion
that comes back has added one row, one level and empty lists to buffers that keep their shape.
-/

namespace DistrHnsw

namespace Index

namespace Hnsw

/-- Only the contents of the lists may differ. -/
structure Reshaped (g g' : Hnsw) : Prop extends g.Relinked g' where
  level0 : g'.level0.length = g.level0.length
  level0Len : g'.level0Len.length = g.level0Len.length
  upper : g'.upper.map List.length = g.upper.map List.length
  upperLen : g'.upperLen.map List.length = g.upperLen.map List.length

variable {g g' g'' : Hnsw} {slot : Slot} {level offset : ℕ} {list : List Slot} {query : List F32}

theorem Reshaped.refl (g : Hnsw) : g.Reshaped g := ⟨.refl g, rfl, rfl, rfl, rfl⟩

theorem Reshaped.trans (h : g.Reshaped g') (h' : g'.Reshaped g'') : g.Reshaped g'' :=
  ⟨h.toRelinked.trans h'.toRelinked, h'.level0.trans h.level0, h'.level0Len.trans h.level0Len,
    h'.upper.trans h.upper, h'.upperLen.trans h.upperLen⟩

/-- A list at a position, by its length. -/
theorem getElem?_of_map_length {α : Type} {xs ys : List (List α)}
    (h : ys.map List.length = xs.map List.length) {s : ℕ} {list : List α} (hs : ys[s]? = some list) :
    ∃ list', xs[s]? = some list' ∧ list.length = list'.length := by
  have hat := congrArg (·[s]?) h
  simp only [List.getElem?_map, hs, Option.map_some] at hat
  obtain ⟨list', hlist', heq⟩ := Option.map_eq_some_iff.1 hat.symm
  exact ⟨list', hlist', heq.symm⟩

theorem Reshaped.shaped (h : g.Reshaped g') (hs : g.Shaped) : g'.Shaped := by
  have hlen : g'.len = g.len := congrArg List.length h.levels
  exact {
    m_le := by rw [h.params]; exact hs.m_le
    m0_le := by rw [h.params]; exact hs.m0_le
    len_le := by rw [hlen]; exact hs.len_le
    vectors := by rw [h.vectors, hlen]; exact hs.vectors
    quantized := by rw [h.quantized, h.vectors, hlen]; exact hs.quantized
    level0 := by rw [h.level0, hlen, h.params]; exact hs.level0
    level0Len := by rw [h.level0Len, hlen]; exact hs.level0Len
    upper := by
      rw [hlen, ← hs.upper]
      simpa using congrArg List.length h.upper
    upperLen := by
      rw [hlen, ← hs.upperLen]
      simpa using congrArg List.length h.upperLen
    links := fun {s level links} hlevel hlinks => by
      obtain ⟨links', hlinks', heq⟩ := getElem?_of_map_length h.upper hlinks
      rw [h.levels] at hlevel
      rw [heq, h.params]
      exact hs.links hlevel hlinks'
    lens := fun {s level lens} hlevel hlens => by
      obtain ⟨lens', hlens', heq⟩ := getElem?_of_map_length h.upperLen hlens
      rw [h.levels] at hlevel
      rw [heq]
      exact hs.lens hlevel hlens'
    tombstones := by rw [h.tombstones, hlen]; exact hs.tombstones }

theorem setAt_eq_ok {α : Type} {xs xs' : List α} {i : ℕ} {a : α} :
    setAt xs i a = .ok xs' ↔ i < xs.length ∧ xs' = xs.set i a := by
  unfold setAt
  split <;> simp [*, eq_comm]

/-- Lists of which one is replaced by one of the same length. -/
theorem map_length_set {α : Type} {xs : List (List α)} {s : ℕ} {list list' : List α}
    (hs : xs[s]? = some list) (hlen : list'.length = list.length) :
    (xs.set s list').map List.length = xs.map List.length := by
  obtain ⟨hlt, rfl⟩ := List.getElem?_eq_some_iff.1 hs
  rw [List.map_set, hlen]
  apply List.ext_getElem (by simp)
  intro i hi _
  rw [List.getElem_set]
  split
  case isTrue heq => simp [← heq]
  case isFalse => rfl

theorem reshaped_of_writeLinks {len : UInt8} (h : g.writeLinks slot level offset list len = .ok g') :
    g.Reshaped g' := by
  unfold writeLinks at h
  split at h
  · obtain ⟨level0, hcopy, h⟩ := bind_eq_ok.1 h
    obtain ⟨level0Len, hset, h⟩ := bind_eq_ok.1 h
    cases h
    obtain ⟨-, rfl⟩ := setAt_eq_ok.1 hset
    exact ⟨⟨rfl, rfl, rfl, rfl, rfl, rfl, rfl, rfl, rfl⟩,
      length_of_overwrite (copyFromSlice_eq_ok.1 hcopy), List.length_set, rfl, rfl⟩
  · obtain ⟨links, hlinks, h⟩ := bind_eq_ok.1 h
    obtain ⟨links', hcopy, h⟩ := bind_eq_ok.1 h
    obtain ⟨upper, hupper, h⟩ := bind_eq_ok.1 h
    obtain ⟨lens, hlens, h⟩ := bind_eq_ok.1 h
    obtain ⟨lens', hset, h⟩ := bind_eq_ok.1 h
    obtain ⟨upperLen, hupperLen, h⟩ := bind_eq_ok.1 h
    cases h
    obtain ⟨-, rfl⟩ := setAt_eq_ok.1 hupper
    obtain ⟨-, rfl⟩ := setAt_eq_ok.1 hset
    obtain ⟨-, rfl⟩ := setAt_eq_ok.1 hupperLen
    exact ⟨⟨rfl, rfl, rfl, rfl, rfl, rfl, rfl, rfl, rfl⟩, rfl, rfl,
      map_length_set (index_eq_ok.1 hlinks) (length_of_overwrite (copyFromSlice_eq_ok.1 hcopy)),
      map_length_set (index_eq_ok.1 hlens) List.length_set⟩

theorem reshaped_of_linkBack {neighbour : Slot} (h : g.linkBack slot level neighbour = .ok g') :
    g.Reshaped g' := by
  unfold linkBack at h
  obtain ⟨current, -, h⟩ := bind_eq_ok.1 h
  split at h
  · exact reshaped_of_writeLinks h
  · obtain ⟨base, -, h⟩ := bind_eq_ok.1 h
    obtain ⟨candidates, -, h⟩ := bind_eq_ok.1 h
    obtain ⟨selected, -, h⟩ := bind_eq_ok.1 h
    exact reshaped_of_writeLinks h

theorem reshaped_of_linkLevel {state state' : Hnsw × List Slot}
    (h : linkLevel slot query state level = .ok state') : state.1.Reshaped state'.1 := by
  unfold linkLevel at h
  obtain ⟨candidates, -, h⟩ := bind_eq_ok.1 h
  obtain ⟨selected, -, h⟩ := bind_eq_ok.1 h
  obtain ⟨linked, hset, h⟩ := bind_eq_ok.1 h
  obtain ⟨linked', hback, h⟩ := bind_eq_ok.1 h
  cases h
  exact foldlM_ok_induct (fun _ _ _ hb hok => hb.trans (reshaped_of_linkBack hok))
    (reshaped_of_writeLinks hset) hback

/-- Linking a slot changes lists, the entry point and the maximum level. -/
theorem reshaped_of_link {top : UInt8} {entry : Slot} (h : g.link slot top entry query = .ok g') :
    ∃ e l, g.Reshaped { g' with entry := e, maxLevel := l } := by
  unfold link at h
  obtain ⟨start, -, h⟩ := bind_eq_ok.1 h
  obtain ⟨⟨linked, entries⟩, hlevels, h⟩ := bind_eq_ok.1 h
  have hreshaped : g.Reshaped linked :=
    foldlM_ok_induct (P := fun state : Hnsw × List Slot => g.Reshaped state.1)
      (fun _ _ _ hb hok => hb.trans (reshaped_of_linkLevel hok)) (.refl g) hlevels
  cases h
  refine ⟨linked.entry, linked.maxLevel, ?_⟩
  split <;> exact hreshaped

/-! ## Insertion -/

/-- What an insertion that comes back leaves. -/
structure Placed (g : Hnsw) (vector : List F32) (slot : Slot) (g' : Hnsw) : Prop where
  shaped : g'.Shaped
  slot : slot.toNat = g.len
  len : g'.len = g.len + 1
  params : g'.params = g.params
  metric : g'.metric = g.metric
  dims : g'.dims = g.dims
  rows : g'.vectors.rows = g.vectors.rows ++ [FlatVectors.stored vector g.metric]
  tombstones (s : ℕ) : testBit g'.tombstones s = testBit g.tombstones s
  tombstoneCount : g'.tombstoneCount = g.tombstoneCount

/-- What is taken in: finite values of the right width, while a slot is left. -/
def Takes (g : Hnsw) (vector : List F32) : Prop :=
  vector.length = g.dims ∧ (∀ value ∈ vector, value.isFinite = true) ∧ g.len < 2 ^ 32

theorem Shaped.takes_of_insert (h : g.Shaped) {vector : List F32} {out : Slot × Hnsw}
    (hok : g.insert vector = .ok out) : g.Takes vector := by
  unfold insert at hok
  obtain ⟨⟨id, vectors⟩, hpush, hok⟩ := bind_eq_ok.1 hok
  obtain ⟨slot, hslot, -⟩ := bind_eq_ok.1 hok
  obtain ⟨hdims, hfinite, rfl, -⟩ := FlatVectors.push_eq_ok.1 (mapError_eq_ok.1 hpush)
  refine ⟨hdims, hfinite, ?_⟩
  unfold toSlot at hslot
  split at hslot
  · rename_i hlt
    rwa [h.vectors] at hlt
  · cases hslot

theorem Shaped.placed_of_insert (h : g.Shaped) {vector : List F32} {out : Slot × Hnsw}
    (hok : g.insert vector = .ok out) : g.Placed vector out.1 out.2 := by
  obtain ⟨hdims, hfinite, hroom⟩ := h.takes_of_insert hok
  obtain ⟨vectors, row, happ, heq⟩ := insert_eq h hdims hfinite hroom
  have hslot : (UInt32.ofNat g.len).toNat = g.len := UInt32.toNat_ofNat_of_lt' hroom
  dsimp only at heq
  generalize levelFor g.params (.ofNat g.len) = level at heq
  have hgrown : (g.grow vectors row level).Shaped :=
    shaped_grow h hroom happ.len happ.dims happ.width
  have hcount : (g.grow vectors row level).len = g.len + 1 := len_grow
  have hbits (s : ℕ) : testBit (g.grow vectors row level).tombstones s =
      testBit g.tombstones s := by
    simp only [grow]
    split
    · exact testBit_append_zero _ s
    · rfl
  rw [heq] at hok
  cases hentry : g.entry with
  | none =>
    rw [hentry] at hok
    cases hok
    exact ⟨{ hgrown with }, hslot, hcount, rfl, rfl, happ.dims, happ.rows, hbits, rfl⟩
  | some entry =>
    rw [hentry] at hok
    obtain ⟨linked, hlink, hok⟩ := bind_eq_ok.1 hok
    cases hok
    obtain ⟨e, l, hre⟩ := reshaped_of_link hlink
    have hlevels : linked.levels = _ := hre.levels
    refine ⟨{ hre.shaped hgrown with }, hslot, ?_, hre.params, hre.metric, ?_, ?_, fun s => ?_,
      hre.tombstoneCount⟩
    · exact (congrArg List.length hlevels).trans hcount
    · exact (congrArg FlatVectors.dims hre.vectors).trans happ.dims
    · exact (congrArg FlatVectors.rows hre.vectors).trans happ.rows
    · exact (congrArg (testBit · s) hre.tombstones).trans (hbits s)

end Hnsw

end Index

end DistrHnsw
