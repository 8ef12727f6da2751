import DistrHnsw.Index.Frame
import DistrHnsw.Index.Interleaved
import DistrHnsw.Index.Levels

/-!
# What the parallel builder returns

Whatever the interleaving of the insertions, the finished lists are linked; copying them into flat
buffers keeps them, the repair writes level-0 links only, and the entry point is on the highest level.
So a built graph satisfies the invariant of the engine.
-/

namespace DistrHnsw

namespace Index

namespace BuildCore

/-- A list that fits starts its buffer. -/
theorem slotBuffer_of_le {capacity : ℕ} {list : List Slot} (h : list.length ≤ capacity) :
    slotBuffer capacity list = .ok (list ++ List.replicate (capacity - list.length) 0) := by
  have hle : 0 + list.length ≤ (List.replicate capacity (0 : Slot)).length := by simpa using h
  unfold slotBuffer
  rw [copyFromSlice_eq_ok, overwrite_of_le hle]
  simp

/-- Lists that fit are put into buffers of one length. -/
theorem mapM_slotBuffer {capacity : ℕ} {lists : List (List Slot)}
    (h : ∀ list ∈ lists, list.length ≤ capacity) :
    lists.mapM (slotBuffer capacity) =
      .ok (lists.map fun list => list ++ List.replicate (capacity - list.length) 0) := by
  induction lists with
  | nil => rfl
  | cons list lists ih =>
    rw [List.mapM_cons, slotBuffer_of_le (h list List.mem_cons_self),
      ih fun l hl => h l (List.mem_cons_of_mem _ hl)]
    rfl

/-! ## The flat graph -/

variable {core : BuildCore} {levels : List UInt8} {links : LockedLinks} {entry : Slot} {maxLevel : UInt8}

/-- A list in its buffer. -/
def buffer (capacity : ℕ) (list : List Slot) : List Slot :=
  list ++ List.replicate (capacity - list.length) 0

theorem length_buffer {capacity : ℕ} {list : List Slot} (h : list.length ≤ capacity) :
    (buffer capacity list).length = capacity := by
  rw [buffer, List.length_append, List.length_replicate]
  omega

theorem Linked.level0_le (h : core.Linked levels links) (hlen : levels.length ≤ 2 ^ 32) :
    ∀ list ∈ links.level0, list.length ≤ core.params.m0 := by
  intro list hlist
  obtain ⟨i, hi⟩ := List.mem_iff_getElem?.1 hlist
  have hlt : i < levels.length := by
    rw [← h.level0]
    exact (List.getElem?_eq_some_iff.1 hi).1
  have hslot : (UInt32.ofNat i).toNat = i := UInt32.toNat_ofNat_of_lt' (hlt.trans_le hlen)
  have hread : links.list (.ofNat i) 0 = .ok list := LockedLinks.list_zero_eq_ok.2 (by rwa [hslot])
  have hon : On levels 0 (UInt32.ofNat i) := ⟨by rwa [hslot], Nat.zero_le _⟩
  simpa [capacity] using ((h.lists 0 _ hon).of_ok hread).1

/-- The lists of a slot above level 0, one for each level. -/
theorem Linked.upper_of (h : core.Linked levels links) {i : ℕ} {lists : List (List Slot)}
    (hi : links.upper[i]? = some lists) : ∃ level, levels[i]? = some level ∧
      lists.length = level.toNat := by
  have hat := congrArg (·[i]?) h.upper
  simp only [List.getElem?_map, hi, Option.map_some] at hat
  obtain ⟨level, hlevel, heq⟩ := Option.map_eq_some_iff.1 hat.symm
  exact ⟨level, hlevel, heq.symm⟩

theorem levelAt_of_eq {slot : Slot} {level : UInt8} (h : levels[slot.toNat]? = some level) :
    levelAt levels slot = level.toNat := by
  rw [levelAt, List.getD_eq_getElem?_getD, h, Option.getD_some]

theorem Linked.upper_le (h : core.Linked levels links) (hlen : levels.length ≤ 2 ^ 32) :
    ∀ lists ∈ links.upper, ∀ list ∈ lists, list.length ≤ core.params.m := by
  intro lists hlists list hlist
  obtain ⟨i, hi⟩ := List.mem_iff_getElem?.1 hlists
  obtain ⟨j, hj⟩ := List.mem_iff_getElem?.1 hlist
  obtain ⟨level, hlevel, hcount⟩ := h.upper_of hi
  have hlt := (List.getElem?_eq_some_iff.1 hlevel).1
  have hslot : (UInt32.ofNat i).toNat = i := UInt32.toNat_ofNat_of_lt' (hlt.trans_le hlen)
  have hread : links.list (.ofNat i) (j + 1) = .ok list :=
    LockedLinks.list_succ_eq_ok.2 ⟨lists, by rwa [hslot], hj⟩
  have hon : On levels (j + 1) (UInt32.ofNat i) := by
    refine ⟨by rwa [hslot], ?_⟩
    rw [levelAt_of_eq (by rwa [hslot]), ← hcount]
    exact (List.getElem?_eq_some_iff.1 hj).1
  simpa [capacity] using ((h.lists _ _ hon).of_ok hread).1

theorem shaped_quantized {rows : List (List F32)} {dims : ℕ} (h : ∀ row ∈ rows, row.length = dims)
    {q : QuantizedVectors} {slots : ℕ} (hq : q.Shaped dims slots) :
    (rows.foldl QuantizedVectors.push q).Shaped dims (slots + rows.length) := by
  induction rows generalizing q slots with
  | nil => exact hq
  | cons row rows ih =>
    rw [List.length_cons, Nat.add_comm rows.length, ← Nat.add_assoc]
    exact ih (fun r hr => h r (List.mem_cons_of_mem _ hr)) (hq.push (h row List.mem_cons_self))

/-- The graph that the finished lists are copied into. -/
def flat (core : BuildCore) (levels : List UInt8) (entry : Slot) (maxLevel : UInt8)
    (links : LockedLinks) : Hnsw where
  params := core.params
  metric := core.metric
  vectors := core.vectors
  quantized := core.vectors.rows.foldl QuantizedVectors.push (.new core.vectors.dims)
  levels := levels
  level0 := (links.level0.map (buffer core.params.m0)).flatten
  level0Len := links.level0.map fun list => .ofNat list.length
  upper := links.upper.map fun lists => (lists.map (buffer core.params.m)).flatten
  upperLen := links.upper.map fun lists => lists.map fun list => .ofNat list.length
  tombstones := List.replicate ((core.vectors.len + 63) / 64) 0
  tombstoneCount := 0
  entry := some entry
  maxLevel := maxLevel

theorem compact_eq (h : core.Linked levels links) (hlen : levels.length ≤ 2 ^ 32) :
    compact core levels entry maxLevel links = .ok (core.flat levels entry maxLevel links) := by
  have hupper : (links.upper.mapM fun lists => do
      let lists ← lists.mapM (slotBuffer core.params.m)
      return lists.flatten) =
        .ok (links.upper.map fun lists => (lists.map (buffer core.params.m)).flatten) := by
    have hall := h.upper_le hlen
    generalize links.upper = upper at hall
    induction upper with
    | nil => rfl
    | cons lists upper ih =>
      rw [List.mapM_cons, mapM_slotBuffer (hall lists List.mem_cons_self),
        ih fun l hl => hall l (List.mem_cons_of_mem _ hl)]
      rfl
  unfold compact
  rw [mapM_slotBuffer (h.level0_le hlen), ok_bind, hupper]
  rfl

theorem levelAt_flat (slot : Slot) :
    (core.flat levels entry maxLevel links).levelAt slot = levelAt levels slot := by
  show ((levels[slot.toNat]?).map UInt8.toNat).getD 0 = (levels.getD slot.toNat 0).toNat
  rw [List.getD_eq_getElem?_getD]
  cases levels[slot.toNat]? <;> rfl

theorem on_flat {level : ℕ} {slot : Slot} :
    (core.flat levels entry maxLevel links).On level slot ↔ On levels level slot := by
  unfold Hnsw.On On
  rw [levelAt_flat]
  rfl

section Shape

variable (h : core.Linked levels links) (hm : core.params.m ≤ 255) (hm0 : core.params.m0 ≤ 255)
  (hrows : core.vectors.len = levels.length) (hlen : levels.length ≤ 2 ^ 32)

include h hm hm0 hrows hlen

theorem shaped_flat : (core.flat levels entry maxLevel links).Shaped where
  m_le := hm
  m0_le := hm0
  len_le := hlen
  vectors := hrows
  quantized := by
    have hq := shaped_quantized (fun row (hrow : row ∈ core.vectors.rows) =>
      core.vectors.width_rows hrow) (QuantizedVectors.shaped_new core.vectors.dims)
    rwa [Nat.zero_add, show core.vectors.rows.length = levels.length from hrows] at hq
  level0 := by
    have hblocks : ∀ b ∈ links.level0.map (buffer core.params.m0), b.length = core.params.m0 := by
      intro b hb
      obtain ⟨list, hlist, rfl⟩ := List.mem_map.1 hb
      exact length_buffer (h.level0_le hlen list hlist)
    show (links.level0.map (buffer core.params.m0)).flatten.length = levels.length * core.params.m0
    rw [length_flatten_blocks hblocks, List.length_map, h.level0]
  level0Len := by
    show (links.level0.map _).length = levels.length
    rw [List.length_map, h.level0]
  upper := by
    show (links.upper.map _).length = levels.length
    rw [List.length_map]
    simpa using congrArg List.length h.upper
  upperLen := by
    show (links.upper.map _).length = levels.length
    rw [List.length_map]
    simpa using congrArg List.length h.upper
  links {s level stored} hlevel hstored := by
    change (links.upper.map _)[s]? = _ at hstored
    obtain ⟨lists, hlists, rfl⟩ := Option.map_eq_some_iff.1 (List.getElem?_map.symm.trans hstored)
    obtain ⟨level', hlevel', hcount⟩ := h.upper_of hlists
    cases hlevel.symm.trans hlevel'
    have hblocks : ∀ b ∈ lists.map (buffer core.params.m), b.length = core.params.m := by
      intro b hb
      obtain ⟨list, hlist, rfl⟩ := List.mem_map.1 hb
      exact length_buffer (h.upper_le hlen lists (List.mem_of_getElem? hlists) list hlist)
    rw [length_flatten_blocks hblocks, List.length_map, hcount]
    rfl
  lens {s level stored} hlevel hstored := by
    change (links.upper.map _)[s]? = _ at hstored
    obtain ⟨lists, hlists, rfl⟩ := Option.map_eq_some_iff.1 (List.getElem?_map.symm.trans hstored)
    obtain ⟨level', hlevel', hcount⟩ := h.upper_of hlists
    cases hlevel.symm.trans hlevel'
    rw [List.length_map, hcount]
  tombstones := by
    show (List.replicate _ _).length = (levels.length + 63) / 64
    rw [List.length_replicate, hrows]

omit hrows in
/-- The flat graph has the lists that were copied. -/
theorem neighbours_flat {level : ℕ} {slot : Slot} {list : List Slot} (hon : On levels level slot)
    (hlist : links.list slot level = .ok list) :
    (core.flat levels entry maxLevel links).neighbours slot level = .ok list := by
  have hcap := ((h.lists level slot hon).of_ok hlist).1
  cases level with
  | zero =>
    have hat := LockedLinks.list_zero_eq_ok.1 hlist
    have hle : list.length ≤ core.params.m0 := hcap
    refine Hnsw.neighbours_zero_eq_ok.2 ⟨.ofNat list.length, ?_, ?_⟩
    · show (links.level0.map _)[slot.toNat]? = _
      rw [List.getElem?_map, hat, Option.map_some]
    · rw [Hnsw.toNat_ofNat_of_le (hle.trans hm0)]
      refine @slice_flatten _ _ _ _ (fun b hb => ?_) _ (List.replicate (core.params.m0 - list.length) 0) ?_
      · obtain ⟨stored, hstored, rfl⟩ := List.mem_map.1 hb
        exact length_buffer (h.level0_le hlen stored hstored)
      · rw [List.getElem?_map, hat, Option.map_some]
        rfl
  | succ level =>
    obtain ⟨lists, hlists, hat⟩ := LockedLinks.list_succ_eq_ok.1 hlist
    have hle : list.length ≤ core.params.m := hcap
    refine Hnsw.neighbours_succ_eq_ok.2 ⟨lists.map fun list => .ofNat list.length, ?_,
      .ofNat list.length, ?_, (lists.map (buffer core.params.m)).flatten, ?_, ?_⟩
    · show (links.upper.map _)[slot.toNat]? = _
      rw [List.getElem?_map, hlists, Option.map_some]
    · rw [List.getElem?_map, hat, Option.map_some]
    · show (links.upper.map _)[slot.toNat]? = _
      rw [List.getElem?_map, hlists, Option.map_some]
    · rw [Hnsw.toNat_ofNat_of_le (hle.trans hm)]
      refine @slice_flatten _ _ _ _ (fun b hb => ?_) _ (List.replicate (core.params.m - list.length) 0) ?_
      · obtain ⟨stored, hstored, rfl⟩ := List.mem_map.1 hb
        exact length_buffer (h.upper_le hlen lists (List.mem_of_getElem? hlists) stored hstored)
      · rw [List.getElem?_map, hat, Option.map_some]
        rfl

theorem linked_flat : (core.flat levels entry maxLevel links).Linked where
  toShaped := shaped_flat h hm hm0 hrows hlen
  lists level slot hon := by
    obtain ⟨list, hlist, hcap, hmem⟩ := h.lists level slot (on_flat.1 hon)
    exact returns_iff.2 ⟨list, neighbours_flat h hm hm0 hlen (on_flat.1 hon) hlist, hcap,
      fun n hn => on_flat.2 (hmem n hn)⟩

end Shape

/-! ## Whole runs -/

/-- Chunks of insertions keep the lists. -/
theorem Inserted.linked {maxLevel : ℕ} (hrows : core.vectors.len = levels.length)
    (hentry : On levels maxLevel entry) {chunks : List (List Slot)} {links' : LockedLinks}
    (hchunks : ∀ chunk ∈ chunks, ∀ s ∈ chunk, s.toNat < levels.length)
    (run : core.Inserted levels entry maxLevel chunks links links') (h : core.Linked levels links) :
    core.Linked levels links' := by
  induction run with
  | done links => exact h
  | chunk run later ih =>
    have hends (s : Slot) : Ends hrows (core.threads levels entry maxLevel _ s) fun _ => True :=
      ends_threads (hchunks _ List.mem_cons_self) hentry s
    exact ih (fun c hc => hchunks c (List.mem_cons_of_mem _ hc)) (Program.Lasting.together hends run h).1

end BuildCore

theorem mem_slotRange {slots : ℕ} {slot : Slot} (h : slot ∈ slotRange slots) : slot.toNat < slots := by
  obtain ⟨i, hi, rfl⟩ := List.mem_map.1 h
  have hlt := List.mem_range.1 hi
  have hmod := Nat.mod_le slots (2 ^ 32)
  have hpow := Nat.mod_lt slots (show 0 < 2 ^ 32 by decide)
  rw [UInt32.toNat_ofNat_of_lt' (hlt.trans hpow)]
  exact hlt.trans_le hmod

theorem chunksOf_subset {fuel size : ℕ} {order chunk : List Slot} (h : chunk ∈ chunksOf fuel size order) :
    chunk ⊆ order := by
  induction fuel generalizing size order with
  | zero => cases order <;> cases h
  | succ fuel ih =>
    cases order with
    | nil => cases h
    | cons slot order =>
      rcases List.mem_cons.1 h with rfl | h
      · exact List.take_subset _ _
      · exact fun s hs => List.drop_subset _ _ (ih h hs)

/-! ## The entry point -/

theorem highest_concat (levels : List UInt8) (level : UInt8) :
    highest (levels ++ [level]) = match highest levels with
      | some (first, top) =>
        if level > top then some (.ofNat levels.length, level) else some (first, top)
      | none => some (.ofNat levels.length, level) := by
  unfold highest
  rw [List.zipIdx_append, List.foldl_append, List.zipIdx_singleton, Nat.zero_add]
  rfl

theorem highest_eq_none {levels : List UInt8} : highest levels = none ↔ levels = [] := by
  cases levels using List.reverseRecOn with
  | nil => simp [highest]
  | append_singleton levels level =>
    rw [highest_concat]
    refine ⟨fun h => ?_, fun h => by simp at h⟩
    split at h
    · split at h <;> cases h
    · cases h

theorem highest_eq_some {levels : List UInt8} (hlen : levels.length ≤ 2 ^ 32) {entry : Slot}
    {top : UInt8} (h : highest levels = some (entry, top)) :
    levels[entry.toNat]? = some top ∧ ∀ level ∈ levels, level.toNat ≤ top.toNat := by
  induction levels using List.reverseRecOn generalizing entry top with
  | nil => cases h
  | append_singleton levels level ih =>
    rw [List.length_append, List.length_singleton] at hlen
    have hlast : (UInt32.ofNat levels.length).toNat = levels.length :=
      UInt32.toNat_ofNat_of_lt' (show levels.length < 2 ^ 32 by omega)
    rw [highest_concat] at h
    split at h
    · rename_i first best hbest
      obtain ⟨hat, hmax⟩ := ih (by omega) hbest
      split at h
      · rename_i hgt
        cases h
        refine ⟨by rw [hlast, List.getElem?_concat_length], fun l hl => ?_⟩
        rcases List.mem_append.1 hl with hl | hl
        · exact (hmax l hl).trans (UInt8.lt_iff_toNat_lt.1 hgt).le
        · rw [List.mem_singleton.1 hl]
      · rename_i hle
        cases h
        refine ⟨?_, fun l hl => ?_⟩
        · rw [List.getElem?_append_left (List.getElem?_eq_some_iff.1 hat).1, hat]
        · rcases List.mem_append.1 hl with hl | hl
          · exact hmax l hl
          · rw [List.mem_singleton.1 hl]
            exact UInt8.le_iff_toNat_le.1 (UInt8.not_lt.1 hle)
    · rename_i hnone
      cases h
      obtain rfl := highest_eq_none.1 hnone
      refine ⟨by simp, fun l hl => ?_⟩
      rw [List.nil_append, List.mem_singleton] at hl
      rw [hl]

end Index

end DistrHnsw
