import DistrHnsw.Index.Hnsw

/-!
# The graph invariant

A graph is linked when every list of every level its slots have lies inside its buffer, is no
longer than its capacity and names slots of at least that level.  Writing one list, appending a
slot and linking it keep this, and under it no search and no insertion leaves a buffer.
-/

namespace DistrHnsw

namespace Index

/-! ## Checked access that succeeds -/

section Access

variable {α : Type} {xs ys : List α} {i start len : ℕ} {a : α}

@[simp] theorem index_eq_ok : index xs i = .ok a ↔ xs[i]? = some a := by
  unfold index
  split <;> simp [*]

@[simp] theorem range_eq_ok : range xs start len = .ok ys ↔ slice xs start len = some ys := by
  unfold range
  split <;> simp [*]

@[simp] theorem copyFromSlice_eq_ok {xs' : List α} :
    copyFromSlice xs start ys = .ok xs' ↔ overwrite xs start ys = some xs' := by
  unfold copyFromSlice
  split <;> simp [*]

@[simp] theorem expect_eq_ok {what : String} {o : Option α} : expect what o = .ok a ↔ o = some a := by
  cases o <;> simp [expect]

theorem index_of_lt (h : i < xs.length) : index xs i = .ok xs[i] :=
  index_eq_ok.2 (List.getElem?_eq_getElem h)

theorem setAt_of_lt (h : i < xs.length) : setAt xs i a = .ok (xs.set i a) := if_pos h

theorem copyFromSlice_of_le (h : start + ys.length ≤ xs.length) :
    ∃ xs', copyFromSlice xs start ys = .ok xs' ∧ overwrite xs start ys = some xs' :=
  ⟨_, copyFromSlice_eq_ok.2 (overwrite_of_le h), overwrite_of_le h⟩

end Access

namespace Hnsw

/-- Level of a slot, 0 outside the graph. -/
def levelAt (g : Hnsw) (slot : Slot) : ℕ := ((g.levels[slot.toNat]?).map UInt8.toNat).getD 0

/-- The slots that a list of `level` may name. -/
def On (g : Hnsw) (level : ℕ) (slot : Slot) : Prop :=
  slot.toNat < g.len ∧ level ≤ g.levelAt slot

theorem levelAt_of_eq {g : Hnsw} {slot : Slot} {level : UInt8}
    (h : g.levels[slot.toNat]? = some level) : g.levelAt slot = level.toNat := by
  simp [levelAt, h]

theorem On.level {g : Hnsw} {level : ℕ} {slot : Slot} (h : g.On level slot) :
    ∃ top, g.levels[slot.toNat]? = some top ∧ level ≤ top.toNat :=
  ⟨_, List.getElem?_eq_getElem h.1, by
    have := h.2
    rwa [levelAt_of_eq (List.getElem?_eq_getElem h.1)] at this⟩

/-- The buffers have the lengths the slots need; list lengths fit a byte and slots four. -/
structure Shaped (g : Hnsw) : Prop where
  m_le : g.params.m ≤ 255
  m0_le : g.params.m0 ≤ 255
  len_le : g.len ≤ 2 ^ 32
  vectors : g.vectors.len = g.len
  quantized : g.quantized.Shaped g.vectors.dims g.len
  level0 : g.level0.length = g.len * g.params.m0
  level0Len : g.level0Len.length = g.len
  upper : g.upper.length = g.len
  upperLen : g.upperLen.length = g.len
  links {s : ℕ} {level : UInt8} {links : List Slot} : g.levels[s]? = some level →
    g.upper[s]? = some links → links.length = level.toNat * g.params.m
  lens {s : ℕ} {level : UInt8} {lens : List UInt8} : g.levels[s]? = some level →
    g.upperLen[s]? = some lens → lens.length = level.toNat
  tombstones : g.tombstones.length = (g.len + 63) / 64

/-- Every list is inside its buffer, within its capacity, and names slots of its level. -/
structure Linked (g : Hnsw) : Prop extends g.Shaped where
  lists (level : ℕ) (slot : Slot) : g.On level slot →
    Returns (g.neighbours slot level) fun list =>
      list.length ≤ g.capacity level ∧ ∀ n ∈ list, g.On level n

/-- Only the links may differ. -/
structure Relinked (g g' : Hnsw) : Prop where
  params : g'.params = g.params
  metric : g'.metric = g.metric
  vectors : g'.vectors = g.vectors
  quantized : g'.quantized = g.quantized
  levels : g'.levels = g.levels
  tombstones : g'.tombstones = g.tombstones
  tombstoneCount : g'.tombstoneCount = g.tombstoneCount
  entry : g'.entry = g.entry
  maxLevel : g'.maxLevel = g.maxLevel

variable {g g' g'' : Hnsw}

theorem Relinked.refl (g : Hnsw) : g.Relinked g := ⟨rfl, rfl, rfl, rfl, rfl, rfl, rfl, rfl, rfl⟩

theorem Relinked.trans (h : g.Relinked g') (h' : g'.Relinked g'') : g.Relinked g'' where
  params := h'.params.trans h.params
  metric := h'.metric.trans h.metric
  vectors := h'.vectors.trans h.vectors
  quantized := h'.quantized.trans h.quantized
  levels := h'.levels.trans h.levels
  tombstones := h'.tombstones.trans h.tombstones
  tombstoneCount := h'.tombstoneCount.trans h.tombstoneCount
  entry := h'.entry.trans h.entry
  maxLevel := h'.maxLevel.trans h.maxLevel

theorem Relinked.on_iff (h : g.Relinked g') {level : ℕ} {slot : Slot} :
    g'.On level slot ↔ g.On level slot := by
  unfold On levelAt len
  rw [h.levels]

theorem Relinked.capacity (h : g.Relinked g') (level : ℕ) : g'.capacity level = g.capacity level := by
  unfold Hnsw.capacity
  rw [h.params]

/-! ## Reading a list -/

theorem neighbours_zero_eq_ok {slot : Slot} {list : List Slot} :
    g.neighbours slot 0 = .ok list ↔ ∃ len, g.level0Len[slot.toNat]? = some len ∧
      slice g.level0 (slot.toNat * g.params.m0) len.toNat = some list := by
  simp only [neighbours, if_pos, bind_eq_ok, index_eq_ok, range_eq_ok]

theorem neighbours_succ_eq_ok {slot : Slot} {level : ℕ} {list : List Slot} :
    g.neighbours slot (level + 1) = .ok list ↔ ∃ lens, g.upperLen[slot.toNat]? = some lens ∧
      ∃ len, lens[level]? = some len ∧ ∃ links, g.upper[slot.toNat]? = some links ∧
      slice links (level * g.params.m) len.toNat = some list := by
  simp only [neighbours, if_neg (Nat.succ_ne_zero level), Nat.add_sub_cancel, bind_eq_ok,
    index_eq_ok, range_eq_ok]

/-! ## Writing a list -/

/-- The list of one slot on one level is now `list`; the other lists within their capacity stay. -/
structure Wrote (g : Hnsw) (slot : Slot) (level : ℕ) (list : List Slot) (g' : Hnsw) : Prop where
  relinked : g.Relinked g'
  shaped : g'.Shaped
  same : g'.neighbours slot level = .ok list
  other {slot' : Slot} {level' : ℕ} {list' : List Slot} : (slot', level') ≠ (slot, level) →
    g.neighbours slot' level' = .ok list' → list'.length ≤ g.capacity level' →
    g'.neighbours slot' level' = .ok list'

theorem toNat_ofNat_of_le {n : ℕ} (h : n ≤ 255) : (UInt8.ofNat n).toNat = n := by
  rw [UInt8.toNat_ofNat']
  omega

theorem slot_ne {slot slot' : Slot} (h : slot' ≠ slot) : slot'.toNat ≠ slot.toNat :=
  fun heq => h (UInt32.toNat_inj.1 heq)

variable {slot : Slot} {level offset : ℕ} {current list : List Slot}

theorem returns_writeLinks_zero (h : g.Shaped) (hslot : slot.toNat < g.len)
    (hcurrent : g.neighbours slot 0 = .ok current) (hoffset : offset ≤ current.length)
    (hcap : offset + list.length ≤ g.params.m0) :
    Returns (g.writeLinks slot 0 offset list (.ofNat (offset + list.length)))
      (g.Wrote slot 0 (current.take offset ++ list)) := by
  obtain ⟨len, hlen, hslice⟩ := neighbours_zero_eq_ok.1 hcurrent
  have hblock := block_le (w := g.params.m0) hslot
  obtain ⟨level0, hcopy, hover⟩ := copyFromSlice_of_le
    (show slot.toNat * g.params.m0 + offset + list.length ≤ g.level0.length by
      rw [h.level0]
      omega)
  have hlt : slot.toNat < g.level0Len.length := by rwa [h.level0Len]
  simp only [writeLinks, if_pos, hcopy, ok_bind, setAt_of_lt hlt, pure_eq_ok]
  refine returns_ok ⟨⟨rfl, rfl, rfl, rfl, rfl, rfl, rfl, rfl, rfl⟩, ?_, ?_, ?_⟩
  · exact { h with
      level0 := (length_of_overwrite hover).trans h.level0
      level0Len := List.length_set.trans h.level0Len }
  · refine neighbours_zero_eq_ok.2 ⟨_, List.getElem?_set_self hlt, ?_⟩
    have hle : offset ≤ len.toNat := by rwa [slice_length hslice] at hoffset
    rw [toNat_ofNat_of_le (hcap.trans h.m0_le), slice_overwrite_extend hover,
      (slice_eq_some hslice).2, List.take_take, Nat.min_eq_left hle]
  · rintro slot' (_ | level') list' hne hread hcap'
    · have hslots : slot' ≠ slot := fun heq => hne (by rw [heq])
      obtain ⟨len', hlen', hslice'⟩ := neighbours_zero_eq_ok.1 hread
      refine neighbours_zero_eq_ok.2 ⟨len', ?_, ?_⟩
      · rw [List.getElem?_set_ne (slot_ne hslots).symm, hlen']
      · have hk : len'.toNat ≤ g.params.m0 := by
          rw [← slice_length hslice']
          exact hcap'
        have hout : slot'.toNat * g.params.m0 + len'.toNat ≤ slot.toNat * g.params.m0 + offset ∨
            slot.toNat * g.params.m0 + offset + list.length ≤ slot'.toNat * g.params.m0 := by
          have := block_disjoint (slot_ne hslots) hk hcap
          omega
        exact (slice_overwrite_outside hover hout).trans hslice'
    · rwa [neighbours_succ_eq_ok] at hread ⊢

theorem returns_writeLinks_succ (h : g.Shaped) (hon : g.On (level + 1) slot)
    (hcurrent : g.neighbours slot (level + 1) = .ok current) (hoffset : offset ≤ current.length)
    (hcap : offset + list.length ≤ g.params.m) :
    Returns (g.writeLinks slot (level + 1) offset list (.ofNat (offset + list.length)))
      (g.Wrote slot (level + 1) (current.take offset ++ list)) := by
  obtain ⟨top, htop, hlevel⟩ := hon.level
  obtain ⟨lens, hlens, len, hlen, links, hlinks, hslice⟩ := neighbours_succ_eq_ok.1 hcurrent
  have hblock : level * g.params.m + g.params.m ≤ links.length := by
    rw [h.links htop hlinks]
    exact block_le hlevel
  obtain ⟨links', hcopy, hover⟩ := copyFromSlice_of_le
    (show level * g.params.m + offset + list.length ≤ links.length by omega)
  have hupper : slot.toNat < g.upper.length := by rw [h.upper]; exact hon.1
  have hupperLen : slot.toNat < g.upperLen.length := by rw [h.upperLen]; exact hon.1
  have hlt : level < lens.length := by rw [h.lens htop hlens]; exact hlevel
  simp only [writeLinks, if_neg (Nat.succ_ne_zero level), Nat.add_sub_cancel,
    index_eq_ok.2 hlinks, index_eq_ok.2 hlens, hcopy, ok_bind, setAt_of_lt hupper,
    setAt_of_lt hlt, setAt_of_lt hupperLen, pure_eq_ok]
  refine returns_ok ⟨⟨rfl, rfl, rfl, rfl, rfl, rfl, rfl, rfl, rfl⟩, ?_, ?_, ?_⟩
  · refine { h with
      upper := List.length_set.trans h.upper
      upperLen := List.length_set.trans h.upperLen
      links := ?_
      lens := ?_ }
    · intro s top' stored hs hstored
      by_cases heq : s = slot.toNat
      · subst heq
        rw [List.getElem?_set_self hupper] at hstored
        cases hstored
        rw [length_of_overwrite hover]
        exact h.links hs hlinks
      · rw [List.getElem?_set_ne (Ne.symm heq)] at hstored
        exact h.links hs hstored
    · intro s top' stored hs hstored
      by_cases heq : s = slot.toNat
      · subst heq
        rw [List.getElem?_set_self hupperLen] at hstored
        cases hstored
        rw [List.length_set]
        exact h.lens hs hlens
      · rw [List.getElem?_set_ne (Ne.symm heq)] at hstored
        exact h.lens hs hstored
  · refine neighbours_succ_eq_ok.2 ⟨_, List.getElem?_set_self hupperLen, _,
      List.getElem?_set_self hlt, _, List.getElem?_set_self hupper, ?_⟩
    have hle : offset ≤ len.toNat := by rwa [slice_length hslice] at hoffset
    rw [toNat_ofNat_of_le (hcap.trans h.m_le), slice_overwrite_extend hover,
      (slice_eq_some hslice).2, List.take_take, Nat.min_eq_left hle]
  · rintro slot' (_ | level') list' hne hread hcap'
    · rwa [neighbours_zero_eq_ok] at hread ⊢
    · obtain ⟨lens', hlens', len', hlen', stored, hstored, hslice'⟩ :=
        neighbours_succ_eq_ok.1 hread
      rw [neighbours_succ_eq_ok]
      by_cases hslots : slot' = slot
      · subst hslots
        have hlevels : level' ≠ level := fun heq => hne (by rw [heq])
        cases hlens.symm.trans hlens'
        cases hlinks.symm.trans hstored
        refine ⟨_, List.getElem?_set_self hupperLen, len', ?_, _, List.getElem?_set_self hupper, ?_⟩
        · rw [List.getElem?_set_ne hlevels.symm, hlen']
        · have hk : len'.toNat ≤ g.params.m := by
            rw [← slice_length hslice']
            exact hcap'
          have hout : level' * g.params.m + len'.toNat ≤ level * g.params.m + offset ∨
              level * g.params.m + offset + list.length ≤ level' * g.params.m := by
            have := block_disjoint hlevels hk hcap
            omega
          exact (slice_overwrite_outside hover hout).trans hslice'
      · refine ⟨lens', ?_, len', hlen', stored, ?_, hslice'⟩
        · rw [List.getElem?_set_ne (slot_ne hslots).symm, hlens']
        · rw [List.getElem?_set_ne (slot_ne hslots).symm, hstored]

/-- What a graph keeps when one of its lists is written. -/
def Kept (g g' : Hnsw) : Prop := g.Relinked g' ∧ g'.Linked

theorem Kept.refl (h : g.Linked) : g.Kept g := ⟨.refl g, h⟩

theorem Kept.trans (h : g.Kept g') (h' : g'.Kept g'') : g.Kept g'' :=
  ⟨h.1.trans h'.1, h'.2⟩

theorem returns_wrote (h : g.Shaped) (hon : g.On level slot)
    (hcurrent : g.neighbours slot level = .ok current) (hoffset : offset ≤ current.length)
    (hcap : offset + list.length ≤ g.capacity level) :
    Returns (g.writeLinks slot level offset list (.ofNat (offset + list.length)))
      (g.Wrote slot level (current.take offset ++ list)) := by
  cases level with
  | zero => exact returns_writeLinks_zero h hon.1 hcurrent hoffset hcap
  | succ level => exact returns_writeLinks_succ h hon hcurrent hoffset hcap

/-- Writing links of the level into a list keeps the graph linked. -/
theorem Wrote.kept (hw : g.Wrote slot level list g') (h : g.Linked)
    (hcap : list.length ≤ g.capacity level) (hlist : ∀ n ∈ list, g.On level n) : g.Kept g' := by
  refine ⟨hw.relinked, hw.shaped, fun level' slot' hon' => ?_⟩
  have hon'' := hw.relinked.on_iff.1 hon'
  rw [hw.relinked.capacity]
  simp only [hw.relinked.on_iff]
  by_cases heq : (slot', level') = (slot, level)
  · cases heq
    exact returns_iff.2 ⟨_, hw.same, hcap, hlist⟩
  · obtain ⟨list', hread, hlen, hmem⟩ := h.lists level' slot' hon''
    exact returns_iff.2 ⟨list', hw.other heq hread hlen, hlen, hmem⟩

theorem wrote_setNeighbours (h : g.Linked) (hon : g.On level slot)
    (hcap : list.length ≤ g.capacity level) :
    Returns (g.setNeighbours slot level list) (g.Wrote slot level list) := by
  obtain ⟨current, hcurrent, -⟩ := h.lists level slot hon
  have hwrote := returns_wrote h.toShaped hon hcurrent (Nat.zero_le current.length)
    (by rwa [Nat.zero_add])
  rwa [Nat.zero_add, List.take_zero, List.nil_append] at hwrote

theorem returns_setNeighbours (h : g.Linked) (hon : g.On level slot)
    (hcap : list.length ≤ g.capacity level) (hlist : ∀ n ∈ list, g.On level n) :
    Returns (g.setNeighbours slot level list) g.Kept :=
  (wrote_setNeighbours h hon hcap).mono fun _ hw => hw.kept h hcap hlist

/-! ## Selection -/

section Select

variable {metric : Metric} {vectors : FlatVectors}

theorem returns_rowOf {what : String} (h : slot.toNat < vectors.len) :
    Returns (rowOf vectors what slot) fun row => row.length = vectors.dims := by
  obtain ⟨row, hrow⟩ := FlatVectors.get_of_lt h
  exact returns_iff.2 ⟨row, expect_eq_ok.2 hrow,
    vectors.width_rows (List.mem_of_getElem? hrow)⟩

/-- The distance to a slot with a row. -/
def distanceAt (metric : Metric) (vectors : FlatVectors) (query : List F32) (slot : Slot) : F32 :=
  distance metric query ((vectors.get slot.toNat).getD [])

theorem returns_distanceTo {query : List F32} (h : slot.toNat < vectors.len) :
    Returns (distanceTo metric vectors query slot) (· = distanceAt metric vectors query slot) := by
  obtain ⟨row, hrow⟩ := FlatVectors.get_of_lt h
  simp only [distanceTo, rowOf, pure_eq_ok, distanceAt, hrow]
  exact returns_ok rfl

/-- The selection takes at most `m` of the candidates, in whatever order they are sorted, each at most
once. -/
theorem returns_selectSorted {candidates sorted : List Far} {m : ℕ} (hperm : sorted.Perm candidates)
    (h : ∀ c ∈ candidates, c.slot.toNat < vectors.len) :
    Returns (do
      let lists ← sorted.foldlM (selectStep metric vectors m) ([], [])
      return lists.1 ++ lists.2.take (m - lists.1.length)) fun selected =>
      selected.length ≤ m ∧ selected.Subperm (candidates.map Far.slot) := by
  have hloop : Returns (sorted.foldlM (selectStep metric vectors m) ([], []))
      fun lists => lists.1.length ≤ m ∧ (lists.1 ++ lists.2).Subperm (sorted.map Far.slot) := by
    refine returns_foldlM_done (J := fun (done : List Far) (lists : List Slot × List Slot) =>
      lists.1.length ≤ m ∧ (lists.1 ++ lists.2).Subperm (done.map Far.slot))
      (fun done c rest hl lists hlists => ?_) ⟨Nat.zero_le m, List.nil_subperm⟩
    have hin {s : Slot} (hs : s ∈ (done ++ [c]).map Far.slot) : s.toNat < vectors.len := by
      obtain ⟨c', hc', rfl⟩ := List.mem_map.1 hs
      apply h c'
      apply hperm.mem_iff.1
      rw [hl, ← List.singleton_append, ← List.append_assoc]
      exact List.mem_append_left _ hc'
    have hdone : (done.map Far.slot).Subperm ((done ++ [c]).map Far.slot) := by
      rw [List.map_append]
      exact (List.sublist_append_left _ _).subperm
    have hadd : (lists.1 ++ lists.2 ++ [c.slot]).Subperm ((done ++ [c]).map Far.slot) := by
      rw [List.map_append]
      exact hlists.2.append (List.Subperm.refl _)
    unfold selectStep
    split
    · exact returns_ok ⟨hlists.1, hlists.2.trans hdone⟩
    · rename_i hroom
      have hlast : c.slot ∈ (done ++ [c]).map Far.slot :=
        List.mem_map_of_mem (List.mem_append_right _ List.mem_cons_self)
      refine (returns_rowOf (hin hlast)).bind fun row _ => ?_
      refine Returns.bind (returns_anyM fun s hs => ?_) fun closer _ => returns_ok ?_
      · have hmem := (hlists.2.trans hdone).subset (List.mem_append_left _ hs)
        exact (returns_distanceTo (hin hmem)).bind fun d _ => returns_ok trivial
      · cases closer with
        | true =>
          refine ⟨hlists.1, ?_⟩
          rwa [if_pos rfl, ← List.append_assoc]
        | false =>
          rw [if_neg Bool.false_ne_true]
          refine ⟨?_, List.Subperm.trans ?_ hadd⟩
          · rw [List.length_append, List.length_singleton]
            omega
          · rw [List.append_assoc, List.append_assoc]
            exact (List.perm_append_comm.append_left lists.1).subperm
  refine hloop.bind fun lists hlists => returns_ok ⟨?_, ?_⟩
  · rw [List.length_append, List.length_take]
    have := hlists.1
    omega
  · have htake : (lists.1 ++ lists.2.take (m - lists.1.length)).Sublist (lists.1 ++ lists.2) :=
      (List.take_sublist _ _).append_left _
    exact (htake.subperm.trans hlists.2).trans (hperm.map Far.slot).subperm

theorem returns_selectHeuristic {candidates : List Far} {m : ℕ}
    (h : ∀ c ∈ candidates, c.slot.toNat < vectors.len) :
    Returns (selectHeuristic metric vectors candidates m) fun selected =>
      selected.length ≤ m ∧ selected.Subperm (candidates.map Far.slot) :=
  returns_selectSorted (List.mergeSort_perm candidates Far.le) h

end Select

end Hnsw

end Index

end DistrHnsw
