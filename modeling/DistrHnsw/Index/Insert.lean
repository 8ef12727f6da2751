import DistrHnsw.Index.Graph
import DistrHnsw.Lib.Matched

/-!
# Insertion and tombstones keep the graph

Under the invariant an insertion of a finite vector of the right width succeeds: the descent and
the searches stay on slots of the level at hand, and every list that is written keeps its capacity.
It adds one slot and leaves rows, levels and tombstones of the others.
-/

namespace DistrHnsw

namespace Index

namespace Hnsw

/-- The invariant of the engine: the graph is linked, and its entry point is on the top level. -/
structure Valid (g : Hnsw) : Prop extends g.Linked where
  entry (slot : Slot) : g.entry = some slot → g.On g.maxLevel.toNat slot
  empty : g.entry = none → g.len = 0

variable {g g' : Hnsw} {slot neighbour entry : Slot} {level : ℕ} {query : List F32}

theorem On.mono {level' : ℕ} (h : g.On level slot) (hle : level' ≤ level) : g.On level' slot :=
  ⟨h.1, hle.trans h.2⟩

theorem Linked.on_lt (h : g.Linked) (hon : g.On level slot) : slot.toNat < g.vectors.len := by
  rw [h.vectors]
  exact hon.1

/-! ## Linking -/

/-- Adding a link to a list, or selecting a new list from it and the link when it is full. -/
theorem wrote_linkBack (h : g.Linked) (hslot : g.On level slot)
    (hneighbour : g.On level neighbour) {current : List Slot}
    (hcurrent : g.neighbours neighbour level = .ok current) :
    Returns (g.linkBack slot level neighbour) fun g' => ∃ list,
      g.Wrote neighbour level list g' ∧ list.length ≤ g.capacity level ∧
        list.Subperm (current ++ [slot]) := by
  have hmem := ((h.lists level neighbour hneighbour).of_ok hcurrent).2
  unfold linkBack
  rw [hcurrent, ok_bind]
  split
  · rename_i hroom
    have hone : current.length + [slot].length ≤ g.capacity level := hroom
    refine (returns_wrote h.toShaped hneighbour hcurrent le_rfl hone).mono fun g' hw => ?_
    rw [List.take_length] at hw
    refine ⟨current ++ [slot], hw, ?_, List.Subperm.refl _⟩
    rwa [List.length_append]
  · refine (returns_rowOf (h.on_lt hneighbour)).bind fun base _ => ?_
    have hall : ∀ s ∈ current ++ [slot], g.On level s := by
      intro s hs
      rcases List.mem_append.1 hs with hs | hs
      · exact hmem s hs
      · rwa [List.mem_singleton.1 hs]
    have hcandidates : Returns ((current ++ [slot]).mapM fun s => do
        let d ← distanceTo g.metric g.vectors base s
        return (⟨d, s⟩ : Far)) fun found => found.map Far.slot = current ++ [slot] := by
      refine (returns_mapM (R := fun s c => s = c.slot) fun s hs => ?_).mono fun found hfound => ?_
      · exact (returns_distanceTo (h.on_lt (hall s hs))).bind fun d _ => returns_ok rfl
      · exact ((Matched.map_eq hfound fun _ _ h => h).symm.trans (List.map_id _))
    refine hcandidates.bind fun found hfound => ?_
    have hon : ∀ c ∈ found, g.On level c.slot := by
      intro c hc
      apply hall
      rw [← hfound]
      exact List.mem_map_of_mem hc
    refine (returns_selectHeuristic fun c hc => h.on_lt (hon c hc)).bind fun selected hsel => ?_
    refine (wrote_setNeighbours h hneighbour hsel.1).mono fun g' hw => ?_
    exact ⟨selected, hw, hsel.1, hfound ▸ hsel.2⟩

theorem returns_linkBack (h : g.Linked) (hslot : g.On level slot)
    (hneighbour : g.On level neighbour) : Returns (g.linkBack slot level neighbour) g.Kept := by
  obtain ⟨current, hcurrent, -, hmem⟩ := h.lists level neighbour hneighbour
  refine (wrote_linkBack h hslot hneighbour hcurrent).mono fun g' hg' => ?_
  obtain ⟨list, hw, hcap, hsub⟩ := hg'
  refine hw.kept h hcap fun n hn => ?_
  rcases List.mem_append.1 (hsub.subset hn) with hn | hn
  · exact hmem n hn
  · rwa [List.mem_singleton.1 hn]

/-- The lists read by a search on one level name slots of that level. -/
theorem Linked.returns_neighbours (h : g.Linked) (hon : g.On level slot) :
    Returns (g.neighbours slot level) fun list => ∀ n ∈ list, g.On level n :=
  (h.lists level slot hon).mono fun _ hlist => hlist.2

theorem returns_linkLevel (h : g.Linked) (hslot : g.On level slot) {entries : List Slot}
    (hentries : ∀ e ∈ entries, g.On level e) :
    Returns (linkLevel slot query (g, entries) level) fun state =>
      g.Kept state.1 ∧ ∀ e ∈ state.2, g.On level e := by
  have hsearch : Returns (searchLayer (g.neighbours · level)
      (distanceTo g.metric g.vectors query) g.len entries g.params.efConstruction fun _ => true)
      fun found => ∀ r ∈ found, g.On level r.slot :=
    (returns_searchLayer (fun s hs => hs.1) (fun s hs => h.returns_neighbours hs)
      (fun s hs => returns_distanceTo (h.on_lt hs)) hentries).mono
      fun found hfound r hr => (hfound.2 r hr).1
  unfold linkLevel
  refine hsearch.bind fun found hfound => ?_
  refine (returns_selectHeuristic fun c hc => h.on_lt (hfound c hc)).bind fun selected hsel => ?_
  have hselected : ∀ n ∈ selected, g.On level n := by
    intro n hn
    obtain ⟨c, hc, rfl⟩ := List.mem_map.1 (hsel.2.subset hn)
    exact hfound c hc
  refine (returns_setNeighbours h hslot hsel.1 hselected).bind fun g₁ hkept => ?_
  have hback : Returns (selected.foldlM (fun g neighbour => g.linkBack slot level neighbour) g₁)
      g.Kept := by
    refine returns_foldlM (fun n hn g' hg' => ?_) hkept
    exact (returns_linkBack hg'.2 (hg'.1.on_iff.2 hslot) (hg'.1.on_iff.2 (hselected n hn))).mono
      fun g'' hg'' => hg'.trans hg''
  refine hback.bind fun g₂ hg₂ => returns_ok ⟨hg₂, fun e he => ?_⟩
  obtain ⟨r, hr, rfl⟩ := List.mem_map.1 he
  exact hfound r hr

/-- Linking on the levels below `top`, from entry points on the highest of them. -/
theorem returns_linkLevels (h : g.Linked) {top : ℕ} (hslot : g.On top slot) {entries : List Slot}
    (hentries : ∀ e ∈ entries, g.On top e) :
    Returns ((List.range (top + 1)).reverse.foldlM (linkLevel slot query) (g, entries))
      fun state => g.Kept state.1 := by
  induction top generalizing g entries with
  | zero =>
    rw [List.range_one, List.reverse_singleton, List.foldlM_cons]
    refine (returns_linkLevel h hslot hentries).bind fun state hstate => ?_
    exact returns_ok hstate.1
  | succ top ih =>
    rw [List.range_succ, List.reverse_concat, List.foldlM_cons]
    refine (returns_linkLevel h hslot hentries).bind fun state hstate => ?_
    obtain ⟨hkept, hon⟩ := hstate
    have hdown {s : Slot} (hs : g.On (top + 1) s) : state.1.On top s :=
      hkept.1.on_iff.2 (hs.mono (Nat.le_succ top))
    exact (ih hkept.2 (hdown hslot) fun e he => hdown (hon e he)).mono
      fun _ hlater => hkept.trans hlater

/-- The descent ends above `level`, or where it started when no level is above. -/
theorem returns_descend (h : g.Linked) {dist : Slot → Checked F32} {f : Slot → F32}
    (hdist : ∀ s, s.toNat < g.len → Returns (dist s) (· = f s))
    (hentry : g.On g.maxLevel.toNat entry) :
    Returns (g.descend dist entry level) fun start =>
      g.On (min (level + 1) g.maxLevel.toNat) start ∧
        (g.maxLevel.toNat ≤ level → start = entry) := by
  have hgreedy {l : ℕ} {entry : Slot} (hon : g.On l entry) :
      Returns (greedyClosest (g.neighbours · l) dist g.len entry) (g.On l) :=
    returns_greedyClosest (fun s hs => hs.1) (fun s hs => h.returns_neighbours hs)
      (fun s hs => hdist s hs.1) hon
  have hwalk : ∀ k entry, g.On (level + 1 + k) entry →
      Returns ((List.range' (level + 1) (k + 1)).reverse.foldlM
        (fun entry level => greedyClosest (g.neighbours · level) dist g.len entry) entry)
        (g.On (level + 1)) := by
    intro k
    induction k with
    | zero =>
      intro entry hon
      refine (hgreedy hon).bind fun next hnext => returns_ok hnext
    | succ k ih =>
      intro entry hon
      rw [List.range'_1_concat, List.reverse_concat, List.foldlM_cons]
      refine (hgreedy hon).bind fun next hnext => ?_
      exact ih next (hnext.mono (Nat.le_succ _))
  unfold descend
  by_cases hle : g.maxLevel.toNat ≤ level
  · rw [Nat.sub_eq_zero_of_le hle]
    exact returns_ok ⟨hentry.mono (Nat.min_le_right _ _), fun _ => rfl⟩
  · obtain ⟨k, hk⟩ : ∃ k, g.maxLevel.toNat = level + 1 + k := ⟨g.maxLevel.toNat - (level + 1), by omega⟩
    have hcount : g.maxLevel.toNat - level = k + 1 := by omega
    rw [hcount, Nat.min_eq_left (by omega)]
    exact (hwalk k entry (hk ▸ hentry)).mono fun start hstart => ⟨hstart, fun hle' => absurd hle' hle⟩

/-- Linking a slot keeps the graph; the slot becomes the entry point when its level is new. -/
theorem returns_link (h : g.Linked) {top : UInt8} (hslot : g.On top.toNat slot)
    (hentry : g.On g.maxLevel.toNat entry) (hsome : g.entry = some entry) :
    Returns (g.link slot top entry query) fun g' =>
      g'.Valid ∧ ∃ e l, g.Relinked { g' with entry := e, maxLevel := l } := by
  unfold link
  have hdist (s : Slot) (hs : s.toNat < g.len) :
      Returns (distanceTo g.metric g.vectors query s) (· = distanceAt g.metric g.vectors query s) :=
    returns_distanceTo (by rwa [h.vectors])
  refine (returns_descend h hdist hentry).bind fun start hstart => ?_
  have hone : ∀ e ∈ [start], g.On (min top.toNat g.maxLevel.toNat) e := by
    simpa using hstart.1.mono (show min top.toNat g.maxLevel.toNat ≤ _ by omega)
  refine (returns_linkLevels h (hslot.mono (Nat.min_le_left _ _)) hone).bind
    fun state hkept => ?_
  obtain ⟨hre, hlinked⟩ := hkept
  refine returns_ok ?_
  split
  · refine ⟨⟨⟨{ hlinked.toShaped with }, hlinked.lists⟩, fun e he => ?_, nofun⟩,
      g.entry, g.maxLevel, ⟨hre.params, hre.metric, hre.vectors, hre.quantized, hre.levels,
        hre.tombstones, hre.tombstoneCount, rfl, rfl⟩⟩
    cases he
    exact hre.on_iff.2 hslot
  · refine ⟨⟨hlinked, fun e he => ?_, fun hnone => ?_⟩, state.1.entry, state.1.maxLevel, hre⟩
    · rw [hre.entry, hsome] at he
      cases he
      rw [hre.maxLevel]
      exact hre.on_iff.2 hentry
    · rw [hre.entry, hsome] at hnone
      cases hnone

/-! ## Appending a slot -/

section Grow

variable {vectors : FlatVectors} {row : List F32} {top : UInt8}

theorem len_grow : (g.grow vectors row top).len = g.len + 1 := by simp [grow, len]

theorem levels_grow_old {s : ℕ} (hs : s < g.len) :
    (g.grow vectors row top).levels[s]? = g.levels[s]? := List.getElem?_append_left hs

theorem levels_grow_new : (g.grow vectors row top).levels[g.len]? = some top :=
  List.getElem?_concat_length

theorem levelAt_grow_old (hs : slot.toNat < g.len) :
    (g.grow vectors row top).levelAt slot = g.levelAt slot := by
  unfold levelAt
  rw [levels_grow_old hs]

theorem levelAt_grow_new (hs : slot.toNat = g.len) :
    (g.grow vectors row top).levelAt slot = top.toNat := by
  apply levelAt_of_eq
  rw [hs]
  exact levels_grow_new

theorem On.grow (h : g.On level slot) : (g.grow vectors row top).On level slot :=
  ⟨by rw [len_grow]; exact Nat.lt_succ_of_lt h.1, by rw [levelAt_grow_old h.1]; exact h.2⟩

/-- A list of the buffers before is read from the grown ones. -/
theorem neighbours_grow {list : List Slot} (hread : g.neighbours slot level = .ok list) :
    (g.grow vectors row top).neighbours slot level = .ok list := by
  cases level with
  | zero =>
    obtain ⟨len, hlen, hslice⟩ := neighbours_zero_eq_ok.1 hread
    refine neighbours_zero_eq_ok.2 ⟨len, ?_, ?_⟩
    · exact (List.getElem?_append_left (List.getElem?_eq_some_iff.1 hlen).1).trans hlen
    · exact (slice_append_left (slice_eq_some hslice).1 _).trans hslice
  | succ level =>
    obtain ⟨lens, hlens, len, hlen, links, hlinks, hslice⟩ := neighbours_succ_eq_ok.1 hread
    refine neighbours_succ_eq_ok.2 ⟨lens, ?_, len, hlen, links, ?_, hslice⟩
    · exact (List.getElem?_append_left (List.getElem?_eq_some_iff.1 hlens).1).trans hlens
    · exact (List.getElem?_append_left (List.getElem?_eq_some_iff.1 hlinks).1).trans hlinks

theorem shaped_grow (h : g.Shaped) (hroom : g.len < 2 ^ 32) (hlen : vectors.len = g.len + 1)
    (hdims : vectors.dims = g.vectors.dims) (hrow : row.length = g.vectors.dims) :
    (g.grow vectors row top).Shaped where
  m_le := h.m_le
  m0_le := h.m0_le
  len_le := by rw [len_grow]; exact hroom
  vectors := by rw [len_grow]; exact hlen
  quantized := by
    rw [len_grow]
    show (g.quantized.push row).Shaped vectors.dims _
    rw [hdims]
    exact h.quantized.push hrow
  level0 := by
    rw [len_grow]
    simp [grow, h.level0, Nat.succ_mul]
  level0Len := by
    rw [len_grow]
    simp [grow, h.level0Len]
  upper := by
    rw [len_grow]
    simp [grow, h.upper]
  upperLen := by
    rw [len_grow]
    simp [grow, h.upperLen]
  links {s level links} hs hlinks := by
    by_cases hold : s < g.len
    · rw [levels_grow_old hold] at hs
      have : s < g.upper.length := by rwa [h.upper]
      exact h.links hs ((List.getElem?_append_left this).symm.trans hlinks)
    · have hlast : s = g.len := by
        have := (List.getElem?_eq_some_iff.1 hs).1
        simp only [grow, List.length_append, List.length_singleton] at this
        unfold len at hold ⊢
        omega
      subst hlast
      rw [levels_grow_new] at hs
      cases hs
      simp only [grow, ← h.upper, List.getElem?_concat_length, Option.some.injEq] at hlinks
      rw [← hlinks, List.length_replicate]
      rfl
  lens {s level lens} hs hlens := by
    by_cases hold : s < g.len
    · rw [levels_grow_old hold] at hs
      have : s < g.upperLen.length := by rwa [h.upperLen]
      exact h.lens hs ((List.getElem?_append_left this).symm.trans hlens)
    · have hlast : s = g.len := by
        have := (List.getElem?_eq_some_iff.1 hs).1
        simp only [grow, List.length_append, List.length_singleton] at this
        unfold len at hold ⊢
        omega
      subst hlast
      rw [levels_grow_new] at hs
      cases hs
      simp only [grow, ← h.upperLen, List.getElem?_concat_length, Option.some.injEq] at hlens
      rw [← hlens, List.length_replicate]
  tombstones := by
    rw [len_grow]
    have := h.tombstones
    simp only [grow]
    unfold len at this ⊢
    split
    · rw [List.length_append, List.length_singleton]
      omega
    · omega

/-- The new slot has an empty list on each of its levels. -/
theorem neighbours_grow_new (h : g.Shaped) (hslot : slot.toNat = g.len) (hlevel : level ≤ top.toNat) :
    (g.grow vectors row top).neighbours slot level = .ok [] := by
  cases level with
  | zero =>
    refine neighbours_zero_eq_ok.2 ⟨0, ?_, ?_⟩
    · rw [hslot, ← h.level0Len]
      exact List.getElem?_concat_length
    · show slice _ (slot.toNat * g.params.m0) 0 = _
      rw [slice_of_le, List.take_zero]
      simp [grow, h.level0, hslot]
  | succ level =>
    refine neighbours_succ_eq_ok.2 ⟨List.replicate top.toNat 0, ?_, 0, ?_,
      List.replicate (top.toNat * g.params.m) 0, ?_, ?_⟩
    · rw [hslot, ← h.upperLen]
      exact List.getElem?_concat_length
    · exact List.getElem?_replicate_of_lt hlevel
    · rw [hslot, ← h.upper]
      exact List.getElem?_concat_length
    · show slice _ (level * g.params.m) 0 = _
      rw [slice_of_le, List.take_zero]
      have := block_le (w := g.params.m) hlevel
      rw [List.length_replicate]
      omega

theorem linked_grow (h : g.Linked) (hroom : g.len < 2 ^ 32) (hlen : vectors.len = g.len + 1)
    (hdims : vectors.dims = g.vectors.dims) (hrow : row.length = g.vectors.dims) :
    (g.grow vectors row top).Linked where
  toShaped := shaped_grow h.toShaped hroom hlen hdims hrow
  lists level slot hon := by
    by_cases hold : slot.toNat < g.len
    · have hon' : g.On level slot := ⟨hold, by rw [← levelAt_grow_old hold]; exact hon.2⟩
      obtain ⟨list, hread, hcap, hmem⟩ := h.lists level slot hon'
      exact returns_iff.2 ⟨list, neighbours_grow hread, hcap,
        fun n hn => (hmem n hn).grow⟩
    · have hslot : slot.toNat = g.len := by
        have := hon.1
        rw [len_grow] at this
        omega
      have hlevel : level ≤ top.toNat := by
        rw [← levelAt_grow_new hslot]
        exact hon.2
      exact returns_iff.2 ⟨[], neighbours_grow_new h.toShaped hslot hlevel, by simp, by simp⟩

end Grow

/-! ## Tombstone bits -/

/-- A new word of bits is clear. -/
theorem testBit_append_zero (words : List UInt64) (s : ℕ) :
    testBit (words ++ [0]) s = testBit words s := by
  unfold testBit
  by_cases hlt : s / 64 < words.length
  · rw [List.getElem?_append_left hlt]
  · rw [List.getElem?_eq_none (Nat.le_of_not_lt hlt)]
    by_cases heq : s / 64 = words.length
    · rw [heq, List.getElem?_concat_length]
      simp
    · rw [List.getElem?_eq_none (by rw [List.length_append, List.length_singleton]; omega)]

theorem testBit_setBit (word : UInt64) (s i : ℕ) :
    (setBit word s).toNat.testBit i = (word.toNat.testBit i || decide (i = s % 64)) := by
  have hlt : s % 64 < 64 := Nat.mod_lt s (by decide)
  have hshift : (UInt64.ofNat (s % 64)).toNat % 64 = s % 64 := by
    rw [UInt64.toNat_ofNat']
    omega
  have hpow : 2 ^ (s % 64) < 2 ^ 64 := Nat.pow_lt_pow_right (by decide) hlt
  rw [setBit, UInt64.toNat_or, UInt64.toNat_shiftLeft, hshift, UInt64.toNat_one, Nat.one_shiftLeft,
    Nat.mod_eq_of_lt hpow, Nat.testBit_or, Nat.testBit_two_pow]
  simp [eq_comm]

/-- Setting one bit of the words. -/
theorem testBit_set {words : List UInt64} {s : ℕ} {word : UInt64}
    (hword : words[s / 64]? = some word) (i : ℕ) :
    testBit (words.set (s / 64) (setBit word s)) i = (testBit words i || decide (i = s)) := by
  have hlt := (List.getElem?_eq_some_iff.1 hword).1
  unfold testBit
  by_cases hsame : i / 64 = s / 64
  · rw [hsame, List.getElem?_set_self hlt, hword]
    have : i % 64 = s % 64 ↔ i = s := by omega
    simp only [testBit_setBit, this]
  · rw [List.getElem?_set_ne (Ne.symm hsame)]
    have : i ≠ s := fun heq => hsame (by rw [heq])
    simp [this]

/-! ## The two operations -/

/-- What an insertion leaves. -/
structure Inserted (g : Hnsw) (vector : List F32) (slot : Slot) (g' : Hnsw) : Prop where
  valid : g'.Valid
  slot : slot.toNat = g.len
  len : g'.len = g.len + 1
  params : g'.params = g.params
  metric : g'.metric = g.metric
  dims : g'.dims = g.dims
  rows : g'.vectors.rows = g.vectors.rows ++ [FlatVectors.stored vector g.metric]
  tombstones (s : ℕ) : testBit g'.tombstones s = testBit g.tombstones s
  tombstoneCount : g'.tombstoneCount = g.tombstoneCount

/-- What is appended before the new slot is linked. -/
structure Appended (g : Hnsw) (vector : List F32) (vectors : FlatVectors) (row : List F32) :
    Prop where
  len : vectors.len = g.len + 1
  dims : vectors.dims = g.vectors.dims
  rows : vectors.rows = g.vectors.rows ++ [FlatVectors.stored vector g.metric]
  width : row.length = g.vectors.dims

/-- A finite vector of the right width is appended, and linked when the graph has an entry point. -/
theorem insert_eq (h : g.Shaped) {vector : List F32} (hdims : vector.length = g.dims)
    (hfinite : ∀ value ∈ vector, value.isFinite = true) (hroom : g.len < 2 ^ 32) :
    ∃ vectors row, g.Appended vector vectors row ∧
      let slot := UInt32.ofNat g.len
      let grown := g.grow vectors row (levelFor g.params slot)
      g.insert vector = match g.entry with
        | none => .ok (slot, { grown with entry := some slot, maxLevel := levelFor g.params slot })
        | some entry => do
          let linked ← grown.link slot (levelFor g.params slot) entry row
          return (slot, linked) := by
  obtain ⟨vectors, hpush⟩ := g.vectors.exists_push g.metric hdims hfinite
  obtain ⟨-, hd, hrows⟩ := FlatVectors.rows_of_push hpush
  have hlen : vectors.len = g.len + 1 := by
    rw [← h.vectors]
    simp [FlatVectors.len, hrows]
  have hslot : (UInt32.ofNat g.len).toNat = g.len := UInt32.toNat_ofNat_of_lt' hroom
  have hpushed : Returns (rowOf vectors "just pushed" (.ofNat g.len)) fun row =>
      row.length = vectors.dims := by
    apply returns_rowOf
    rw [hslot, hlen]
    exact Nat.lt_succ_self _
  obtain ⟨row, hrow, hwidth⟩ := hpushed
  refine ⟨vectors, row, ⟨hlen, hd, hrows, hwidth.trans hd⟩, ?_⟩
  cases hentry : g.entry <;>
    simp only [insert, hpush, Except.mapError, ok_bind, toSlot, h.vectors, if_pos hroom, hrow, hentry]

/-- A finite vector of the right width is inserted as the next slot. -/
theorem Valid.returns_insert (h : g.Valid) {vector : List F32} (hdims : vector.length = g.dims)
    (hfinite : ∀ value ∈ vector, value.isFinite = true) (hroom : g.len < 2 ^ 32) :
    Returns (g.insert vector) fun out => g.Inserted vector out.1 out.2 := by
  obtain ⟨vectors, row, happ, heq⟩ := insert_eq h.toShaped hdims hfinite hroom
  have hslot : (UInt32.ofNat g.len).toNat = g.len := UInt32.toNat_ofNat_of_lt' hroom
  have hgrown : (g.grow vectors row (levelFor g.params (.ofNat g.len))).Linked :=
    linked_grow h.toLinked hroom happ.len happ.dims happ.width
  have hcount : (g.grow vectors row (levelFor g.params (.ofNat g.len))).len = g.len + 1 := len_grow
  have hbits (s : ℕ) : testBit (g.grow vectors row (levelFor g.params (.ofNat g.len))).tombstones s =
      testBit g.tombstones s := by
    simp only [grow]
    split
    · exact testBit_append_zero _ s
    · rfl
  have hon : (g.grow vectors row (levelFor g.params (.ofNat g.len))).On
      (levelFor g.params (.ofNat g.len)).toNat (.ofNat g.len) := by
    refine ⟨?_, ?_⟩
    · rw [hslot, hcount]
      exact Nat.lt_succ_self _
    · rw [levelAt_grow_new hslot]
  rw [heq]
  cases hentry : g.entry with
  | none =>
    refine returns_ok ⟨⟨⟨{ hgrown.toShaped with }, hgrown.lists⟩, fun e he => ?_, nofun⟩, hslot,
      hcount, rfl, rfl, happ.dims, happ.rows, hbits, rfl⟩
    cases he
    exact hon
  | some entry =>
    have hold : g.On g.maxLevel.toNat entry := h.entry entry hentry
    refine (returns_link hgrown hon hold.grow hentry).bind fun g' hg' => ?_
    obtain ⟨hvalid, e, l, hre⟩ := hg'
    refine returns_ok ⟨hvalid, hslot, ?_, hre.params, hre.metric, ?_, ?_, fun s => ?_,
      hre.tombstoneCount⟩
    · have : g'.levels = _ := hre.levels
      exact (congrArg List.length this).trans hcount
    · exact (congrArg FlatVectors.dims hre.vectors).trans happ.dims
    · exact (congrArg FlatVectors.rows hre.vectors).trans happ.rows
    · exact (congrArg (testBit · s) hre.tombstones).trans (hbits s)

/-- A vector of another width or with a value that is not finite is refused before anything
changes. -/
theorem insert_refused {vector : List F32}
    (h : vector.length ≠ g.dims ∨ ∃ value ∈ vector, value.isFinite = false) :
    ∃ error, g.insert vector = .error (.vector error) := by
  have hpush : ∃ error, g.vectors.push vector g.metric = .error error := by
    cases hp : g.vectors.push vector g.metric with
    | error error => exact ⟨error, rfl⟩
    | ok out =>
      obtain ⟨hdims, hfinite, -⟩ := FlatVectors.push_eq_ok.1 hp
      rcases h with h | ⟨value, hmem, hvalue⟩
      · exact absurd hdims h
      · rw [hfinite value hmem] at hvalue
        cases hvalue
  obtain ⟨error, hpush⟩ := hpush
  exact ⟨error, by simp [insert, hpush, Except.mapError]⟩

/-- What masking a slot leaves. -/
structure Hidden (g : Hnsw) (slot : Slot) (g' : Hnsw) : Prop where
  parts : g' = { g with tombstones := g'.tombstones, tombstoneCount := g'.tombstoneCount }
  shaped : g'.Shaped
  tombstones (s : ℕ) : testBit g'.tombstones s = (testBit g.tombstones s || decide (s = slot.toNat))
  tombstoneCount : g'.tombstoneCount =
    g.tombstoneCount + if testBit g.tombstones slot.toNat then 0 else 1

theorem Shaped.returns_tombstone (h : g.Shaped) (hslot : slot.toNat < g.len) :
    Returns (g.tombstone slot) fun out => g.Hidden slot out.2 := by
  have hlt : slot.toNat / 64 < g.tombstones.length := by
    rw [h.tombstones]
    omega
  have hword : g.tombstones[slot.toNat / 64]? = some g.tombstones[slot.toNat / 64] :=
    List.getElem?_eq_getElem hlt
  have hbit : testBit g.tombstones slot.toNat =
      g.tombstones[slot.toNat / 64].toNat.testBit (slot.toNat % 64) := by
    simp only [testBit, hword]
  unfold tombstone
  rw [if_pos hslot, index_eq_ok.2 hword, ok_bind, ← hbit]
  split
  · rename_i hset
    refine returns_ok ⟨rfl, h, fun s => ?_, by rw [if_pos hset, Nat.add_zero]⟩
    by_cases hs : s = slot.toNat
    · simp [hs, hset]
    · simp [hs]
  · rename_i hclear
    rw [setAt_of_lt hlt, ok_bind]
    exact returns_ok ⟨rfl, { h with tombstones := List.length_set.trans h.tombstones },
      testBit_set hword, by rw [if_neg hclear]⟩

theorem Hidden.params (h : g.Hidden slot g') : g'.params = g.params := by rw [h.parts]

theorem Hidden.metric (h : g.Hidden slot g') : g'.metric = g.metric := by rw [h.parts]

theorem Hidden.vectors (h : g.Hidden slot g') : g'.vectors = g.vectors := by rw [h.parts]

theorem Hidden.len (h : g.Hidden slot g') : g'.len = g.len := by
  rw [h.parts]
  rfl

/-- What masking a slot leaves of a valid graph. -/
structure Masked (g : Hnsw) (slot : Slot) (g' : Hnsw) : Prop where
  valid : g'.Valid
  len : g'.len = g.len
  params : g'.params = g.params
  metric : g'.metric = g.metric
  vectors : g'.vectors = g.vectors
  tombstones (s : ℕ) : testBit g'.tombstones s = (testBit g.tombstones s || decide (s = slot.toNat))
  tombstoneCount : g'.tombstoneCount =
    g.tombstoneCount + if testBit g.tombstones slot.toNat then 0 else 1

/-- Only bits change, so lists and levels are as before. -/
theorem Hidden.masked (hh : g.Hidden slot g') (h : g.Valid) : g.Masked slot g' := by
  obtain ⟨hparts, hshaped, hbits, hcount⟩ := hh
  generalize g'.tombstones = words at hparts hbits
  generalize g'.tombstoneCount = count at hparts hcount
  subst hparts
  exact ⟨⟨⟨hshaped, h.lists⟩, h.entry, h.empty⟩, rfl, rfl, rfl, rfl, hbits, hcount⟩

theorem Valid.returns_tombstone (h : g.Valid) (hslot : slot.toNat < g.len) :
    Returns (g.tombstone slot) fun out => g.Masked slot out.2 :=
  (h.toShaped.returns_tombstone hslot).mono fun _ hh => hh.masked h

theorem valid_new {dims : ℕ} {metric : Metric} {params : HnswParams} (hm : params.m ≤ 255)
    (hm0 : params.m0 ≤ 255) : (new dims metric params).Valid where
  m_le := hm
  m0_le := hm0
  len_le := Nat.zero_le _
  vectors := rfl
  quantized := QuantizedVectors.shaped_new dims
  level0 := by simp [new, len]
  level0Len := rfl
  upper := rfl
  upperLen := rfl
  links := nofun
  lens := nofun
  tombstones := by simp [new, len]
  lists _ _ hon := absurd hon.1 (Nat.not_lt_zero _)
  entry := nofun
  empty _ := rfl

end Hnsw

end Index

end DistrHnsw
