import DistrHnsw.Index.Insert

/-!
# The top level

The entry point is on the highest level of the graph, and no level is above what a file may hold.
-/

namespace DistrHnsw

namespace Index

namespace Hnsw

variable {g : Hnsw} {slot : Slot} {query : List F32}

/-- No level is above the maximum. -/
def Capped (g : Hnsw) : Prop :=
  ∀ slot : Slot, slot.toNat < g.len → g.levelAt slot ≤ g.maxLevel.toNat

/-- A valid graph whose entry point is on the maximum of its levels. -/
structure Topped (g : Hnsw) : Prop extends g.Valid where
  top : g.Capped
  levels (level : UInt8) : level ∈ g.levels → level.toNat ≤ 31

/-- The levels after a slot was appended. -/
theorem top_grow {vectors : FlatVectors} {row : List F32} {level : UInt8} {top : ℕ}
    (hold : ∀ slot : Slot, slot.toNat < g.len → g.levelAt slot ≤ top) (hnew : level.toNat ≤ top)
    (hslot : slot.toNat < (g.grow vectors row level).len) :
    (g.grow vectors row level).levelAt slot ≤ top := by
  rw [len_grow] at hslot
  by_cases hlt : slot.toNat < g.len
  · rw [levelAt_grow_old hlt]
    exact hold slot hlt
  · rw [levelAt_grow_new (show slot.toNat = g.len by omega)]
    exact hnew

/-- Linking leaves the levels and raises their maximum to that of the slot. -/
theorem returns_link_levels (h : g.Linked) {top : UInt8} (hslot : g.On top.toNat slot) {entry : Slot}
    (hentry : g.On g.maxLevel.toNat entry) :
    Returns (g.link slot top entry query) fun g' =>
      g'.levels = g.levels ∧ g'.maxLevel.toNat = max top.toNat g.maxLevel.toNat := by
  unfold link
  have hdist (s : Slot) (hs : s.toNat < g.len) :
      Returns (distanceTo g.metric g.vectors query s) (· = distanceAt g.metric g.vectors query s) :=
    returns_distanceTo (by rwa [h.vectors])
  refine (returns_descend h hdist hentry).bind fun start hstart => ?_
  have hone : ∀ e ∈ [start], g.On (min top.toNat g.maxLevel.toNat) e := by
    simpa using hstart.1.mono (show min top.toNat g.maxLevel.toNat ≤ _ by omega)
  refine (returns_linkLevels h (hslot.mono (Nat.min_le_left _ _)) hone).bind
    fun state hkept => ?_
  refine returns_ok ?_
  split
  · rename_i hgt
    have : g.maxLevel.toNat < top.toNat := hgt
    exact ⟨hkept.1.levels, (Nat.max_eq_left (Nat.le_of_lt this)).symm⟩
  · rename_i hle
    have : top.toNat ≤ g.maxLevel.toNat := Nat.le_of_not_lt hle
    rw [Nat.max_eq_right this]
    exact ⟨hkept.1.levels, congrArg UInt8.toNat hkept.1.maxLevel⟩

/-- An insertion appends the level drawn for the slot and keeps the maximum above all levels. -/
theorem Valid.returns_insert_levels (h : g.Valid) (htop : g.Capped) {vector : List F32}
    (hdims : vector.length = g.dims) (hfinite : ∀ value ∈ vector, value.isFinite = true)
    (hroom : g.len < 2 ^ 32) :
    Returns (g.insert vector) fun out =>
      out.2.Capped ∧ out.2.levels = g.levels ++ [levelFor g.params (.ofNat g.len)] := by
  obtain ⟨vectors, row, happ, heq⟩ := insert_eq h.toShaped hdims hfinite hroom
  have hslot : (UInt32.ofNat g.len).toNat = g.len := UInt32.toNat_ofNat_of_lt' hroom
  dsimp only at heq
  generalize levelFor g.params (.ofNat g.len) = level at heq ⊢
  have hgrown : (g.grow vectors row level).Linked :=
    linked_grow h.toLinked hroom happ.len happ.dims happ.width
  rw [heq]
  cases hentry : g.entry with
  | none =>
    refine returns_ok ⟨fun slot hslot => ?_, rfl⟩
    have hin : slot.toNat < (g.grow vectors row level).len := hslot
    refine top_grow (fun s hs => ?_) (le_refl level.toNat) hin
    rw [h.empty hentry] at hs
    omega
  | some entry =>
    have hon : g.On g.maxLevel.toNat entry := h.entry entry hentry
    have hlt : (UInt32.ofNat g.len).toNat < (g.grow vectors row level).len := by
      rw [hslot, len_grow]
      exact Nat.lt_succ_self _
    refine (returns_link_levels hgrown
      (show (g.grow vectors row level).On level.toNat (.ofNat g.len) from
        ⟨hlt, (levelAt_grow_new hslot).ge⟩) hon.grow).bind fun g' hg' => ?_
    obtain ⟨hlevels, hmax⟩ := hg'
    refine returns_ok ⟨fun slot hslot => ?_, hlevels⟩
    have hlen : g'.len = (g.grow vectors row level).len := congrArg List.length hlevels
    have hat : g'.levelAt slot = (g.grow vectors row level).levelAt slot := by
      unfold levelAt
      rw [hlevels]
    rw [hat, hmax]
    rw [hlen] at hslot
    exact top_grow (fun s hs => (htop s hs).trans (Nat.le_max_right _ _)) (Nat.le_max_left _ _) hslot

theorem Topped.returns_insert (h : g.Topped) {vector : List F32} (hdims : vector.length = g.dims)
    (hfinite : ∀ value ∈ vector, value.isFinite = true) (hroom : g.len < 2 ^ 32) :
    Returns (g.insert vector) fun out => g.Inserted vector out.1 out.2 ∧ out.2.Topped := by
  refine ((h.toValid.returns_insert hdims hfinite hroom).and
    (h.toValid.returns_insert_levels h.top hdims hfinite hroom)).mono fun out hout => ?_
  obtain ⟨hinserted, htop, hlevels⟩ := hout
  refine ⟨hinserted, hinserted.valid, htop, fun level hlevel => ?_⟩
  rw [hlevels, List.mem_append, List.mem_singleton] at hlevel
  rcases hlevel with hold | rfl
  · exact h.levels level hold
  · exact levelFor_le _ _

theorem Topped.returns_tombstone (h : g.Topped) (hslot : slot.toNat < g.len) :
    Returns (g.tombstone slot) fun out => g.Masked slot out.2 ∧ out.2.Topped := by
  refine (h.toShaped.returns_tombstone hslot).mono fun out hh => ?_
  refine ⟨hh.masked h.toValid, (hh.masked h.toValid).valid, ?_, ?_⟩
  · rw [hh.parts]
    exact h.top
  · rw [hh.parts]
    exact h.levels

theorem topped_new {dims : ℕ} {metric : Metric} {params : HnswParams} (hm : params.m ≤ 255)
    (hm0 : params.m0 ≤ 255) : (new dims metric params).Topped where
  toValid := valid_new hm hm0
  top _ hlt := absurd hlt (Nat.not_lt_zero _)
  levels := nofun

end Hnsw

end Index

end DistrHnsw
