import DistrHnsw.Index.Insert

/-!
# Lists without repeats

No list names a slot twice or its own slot.  While a slot is being linked, no list of a level that
is still to come names it, so a search never finds it, and each of its neighbours takes it in once.
-/

namespace DistrHnsw

namespace Index

namespace Hnsw

/-- No list names a slot twice, or its own slot. -/
def Simple (g : Hnsw) : Prop :=
  ∀ level slot, g.On level slot →
    Returns (g.neighbours slot level) fun list => list.Nodup ∧ slot ∉ list

/-- No list of the level names the slot. -/
def Unnamed (g : Hnsw) (slot : Slot) (level : ℕ) : Prop :=
  ∀ other, g.On level other → Returns (g.neighbours other level) (slot ∉ ·)

variable {g g' : Hnsw} {slot entry : Slot} {level : ℕ} {list : List Slot} {query : List F32}

/-! ## Writing one list -/

/-- The lists after one was written: that one, and the others as they were. -/
theorem Wrote.read (hw : g.Wrote slot level list g') (h : g.Linked) {slot' : Slot} {level' : ℕ}
    (hon : g'.On level' slot') : ∃ list', g'.neighbours slot' level' = .ok list' ∧
      (slot' = slot ∧ level' = level ∧ list' = list ∨
        ¬(slot' = slot ∧ level' = level) ∧ g.neighbours slot' level' = .ok list') := by
  by_cases heq : slot' = slot ∧ level' = level
  · obtain ⟨rfl, rfl⟩ := heq
    exact ⟨list, hw.same, .inl ⟨rfl, rfl, rfl⟩⟩
  · obtain ⟨list', hread, hlen, -⟩ := h.lists level' slot' (hw.relinked.on_iff.1 hon)
    have hne : (slot', level') ≠ (slot, level) := by simpa using heq
    exact ⟨list', hw.other hne hread hlen, .inr ⟨heq, hread⟩⟩

theorem Wrote.simple (hw : g.Wrote slot level list g') (h : g.Linked) (hs : g.Simple)
    (hnodup : list.Nodup) (hown : slot ∉ list) : g'.Simple := by
  intro level' slot' hon
  obtain ⟨list', hread, ⟨rfl, rfl, rfl⟩ | ⟨-, hold⟩⟩ := hw.read h hon
  · exact returns_iff.2 ⟨list', hread, hnodup, hown⟩
  · exact returns_iff.2 ⟨list', hread, (hs level' slot' (hw.relinked.on_iff.1 hon)).of_ok hold⟩

theorem Wrote.unnamed (hw : g.Wrote slot level list g') (h : g.Linked) {new : Slot} {level' : ℕ}
    (hu : g.Unnamed new level') (hlist : level' = level → new ∉ list) : g'.Unnamed new level' := by
  intro slot' hon
  obtain ⟨list', hread, ⟨-, hlevel, rfl⟩ | ⟨-, hold⟩⟩ := hw.read h hon
  · exact returns_iff.2 ⟨list', hread, hlist hlevel⟩
  · exact returns_iff.2 ⟨list', hread, (hu slot' (hw.relinked.on_iff.1 hon)).of_ok hold⟩

/-! ## Linking one slot -/

/-- The slot is being linked: no list of a level below `level` names it. -/
structure Linking (g : Hnsw) (slot : Slot) (level : ℕ) : Prop where
  linked : g.Linked
  simple : g.Simple
  unnamed {l : ℕ} : l < level → g.Unnamed slot l

/-- One neighbour takes the slot in. -/
theorem Linking.returns_linkBack (h : g.Linking slot level) (hslot : g.On level slot)
    {neighbour : Slot} (hon : g.On level neighbour) (hne : neighbour ≠ slot)
    (hfresh : Returns (g.neighbours neighbour level) (slot ∉ ·)) :
    Returns (g.linkBack slot level neighbour) fun g' =>
      g.Kept g' ∧ g'.Linking slot level ∧ ∀ other, other ≠ neighbour → g.On level other →
        Returns (g.neighbours other level) (slot ∉ ·) →
        Returns (g'.neighbours other level) (slot ∉ ·) := by
  obtain ⟨current, hcurrent, hnodup, hown⟩ := h.simple level neighbour hon
  have hmem := ((h.linked.lists level neighbour hon).of_ok hcurrent).2
  refine (wrote_linkBack h.linked hslot hon hcurrent).mono fun g' hg' => ?_
  obtain ⟨list, hw, hcap, hsub⟩ := hg'
  have hlist : ∀ n ∈ list, n ∈ current ∨ n = slot := fun n hn => by
    simpa using List.mem_append.1 (hsub.subset hn)
  have hkept : g.Kept g' := by
    refine hw.kept h.linked hcap fun n hn => ?_
    rcases hlist n hn with hn | rfl
    · exact hmem n hn
    · exact hslot
  have hall : (current ++ [slot]).Nodup := by
    rw [← List.concat_eq_append]
    exact hnodup.concat (hfresh.of_ok hcurrent)
  have hown' : neighbour ∉ list := by
    intro hn
    rcases hlist neighbour hn with hn | hn
    · exact hown hn
    · exact hne hn
  refine ⟨hkept, ⟨hkept.2, ?_, fun {l} hl => ?_⟩, fun other hother hon' hread => ?_⟩
  · exact hw.simple h.linked h.simple (nodup_of_subperm hsub hall) hown'
  · exact hw.unnamed h.linked (h.unnamed hl) fun heq => absurd heq (Nat.ne_of_lt hl)
  · obtain ⟨list', hread', ⟨heq, -⟩ | ⟨-, hold⟩⟩ := hw.read h.linked (hw.relinked.on_iff.2 hon')
    · exact absurd heq hother
    · exact returns_iff.2 ⟨list', hread', hread.of_ok hold⟩

/-- Linking on one level, from entry points that are other slots. -/
theorem Linking.returns_linkLevel (h : g.Linking slot (level + 1)) (hslot : g.On level slot)
    {entries : List Slot} (hentries : ∀ e ∈ entries, g.On level e ∧ e ≠ slot) :
    Returns (linkLevel slot query (g, entries) level) fun state =>
      g.Kept state.1 ∧ state.1.Linking slot level ∧ ∀ e ∈ state.2, g.On level e ∧ e ≠ slot := by
  have hunnamed : g.Unnamed slot level := h.unnamed (Nat.lt_succ_self level)
  have hneighbours (s : Slot) (hs : g.On level s ∧ s ≠ slot) :
      Returns (g.neighbours s level) fun list => ∀ n ∈ list, g.On level n ∧ n ≠ slot := by
    refine ((h.linked.returns_neighbours hs.1).and (hunnamed s hs.1)).mono fun list hlist => ?_
    exact fun n hn => ⟨hlist.1 n hn, fun heq => hlist.2 (heq ▸ hn)⟩
  unfold linkLevel
  refine (returns_searchLayer (fun s hs => hs.1.1) hneighbours
    (fun s hs => returns_distanceTo (h.linked.on_lt hs.1)) hentries).bind fun found hfound => ?_
  refine (returns_selectHeuristic fun c hc => h.linked.on_lt (hfound.2 c hc).1.1).bind
    fun selected hsel => ?_
  have hselected : ∀ n ∈ selected, g.On level n ∧ n ≠ slot := by
    intro n hn
    obtain ⟨c, hc, rfl⟩ := List.mem_map.1 (hsel.2.subset hn)
    exact (hfound.2 c hc).1
  have hnodup : selected.Nodup := nodup_of_subperm hsel.2 hfound.1
  have hown : slot ∉ selected := fun hn => (hselected slot hn).2 rfl
  refine (wrote_setNeighbours h.linked hslot hsel.1).bind fun g₁ hw => ?_
  have hkept : g.Kept g₁ := hw.kept h.linked hsel.1 fun n hn => (hselected n hn).1
  have hlinking : g₁.Linking slot level :=
    ⟨hkept.2, hw.simple h.linked h.simple hnodup hown, fun hl =>
      hw.unnamed h.linked (h.unnamed (Nat.lt_succ_of_lt hl)) fun heq => absurd heq (Nat.ne_of_lt hl)⟩
  have hunnamed₁ : g₁.Unnamed slot level := hw.unnamed h.linked hunnamed fun _ => hown
  -- the neighbours that are still to come do not name the slot yet
  have hback : Returns (selected.foldlM (fun g neighbour => g.linkBack slot level neighbour) g₁)
      fun g₂ => g.Kept g₂ ∧ g₂.Linking slot level ∧ ∀ n ∈ selected, n ∉ selected →
        Returns (g₂.neighbours n level) (slot ∉ ·) := by
    refine returns_foldlM_done (J := fun done (g₂ : Hnsw) =>
      g.Kept g₂ ∧ g₂.Linking slot level ∧ ∀ n ∈ selected, n ∉ done →
        Returns (g₂.neighbours n level) (slot ∉ ·)) (fun done c rest hl g₂ hg₂ => ?_)
      ⟨hkept, hlinking, fun n hn _ => hunnamed₁ n (hkept.1.on_iff.2 (hselected n hn).1)⟩
    obtain ⟨hkept₂, hlinking₂, hrest⟩ := hg₂
    have hc : c ∈ selected := by
      rw [hl]
      exact List.mem_append_right _ List.mem_cons_self
    have hnew : c ∉ done := by
      rw [hl] at hnodup
      exact fun hmem => (List.nodup_append.1 hnodup).2.2 c hmem c List.mem_cons_self rfl
    refine (hlinking₂.returns_linkBack (hkept₂.1.on_iff.2 hslot)
      (hkept₂.1.on_iff.2 (hselected c hc).1) (hselected c hc).2 (hrest c hc hnew)).mono
      fun g₃ hg₃ => ?_
    obtain ⟨hkept₃, hlinking₃, hothers⟩ := hg₃
    refine ⟨hkept₂.trans hkept₃, hlinking₃, fun n hn hdone => ?_⟩
    simp only [List.mem_append, List.mem_singleton, not_or] at hdone
    exact hothers n hdone.2 (hkept₂.1.on_iff.2 (hselected n hn).1) (hrest n hn hdone.1)
  refine hback.bind fun g₂ hg₂ => returns_ok ⟨hg₂.1, hg₂.2.1, fun e he => ?_⟩
  obtain ⟨r, hr, rfl⟩ := List.mem_map.1 he
  exact (hfound.2 r hr).1

theorem Linking.returns_linkLevels {top : ℕ} (h : g.Linking slot (top + 1)) (hslot : g.On top slot)
    {entries : List Slot} (hentries : ∀ e ∈ entries, g.On top e ∧ e ≠ slot) :
    Returns ((List.range (top + 1)).reverse.foldlM (linkLevel slot query) (g, entries))
      fun state => state.1.Simple := by
  induction top generalizing g entries with
  | zero =>
    rw [List.range_one, List.reverse_singleton, List.foldlM_cons]
    refine (h.returns_linkLevel hslot hentries).bind fun state hstate => ?_
    exact returns_ok hstate.2.1.simple
  | succ top ih =>
    rw [List.range_succ, List.reverse_concat, List.foldlM_cons]
    refine (h.returns_linkLevel hslot hentries).bind fun state hstate => ?_
    obtain ⟨hkept, hlinking, hon⟩ := hstate
    have hdown {s : Slot} (hs : g.On (top + 1) s) : state.1.On top s :=
      hkept.1.on_iff.2 (hs.mono (Nat.le_succ top))
    exact ih hlinking (hdown hslot) fun e he => ⟨hdown (hon e he).1, (hon e he).2⟩

/-- Linking a slot that no list names yet. -/
theorem Linking.returns_link {levels : ℕ} (h : g.Linking slot levels) {top : UInt8}
    (htop : top.toNat < levels) (hslot : slot.toNat < g.len) (hlevel : g.levelAt slot = top.toNat)
    (hentry : g.On g.maxLevel.toNat entry) (hne : entry ≠ slot) :
    Returns (g.link slot top entry query) Simple := by
  have hdist (s : Slot) (hs : s.toNat < g.len) :
      Returns (distanceTo g.metric g.vectors query s) (· = distanceAt g.metric g.vectors query s) :=
    returns_distanceTo (by rwa [h.linked.vectors])
  unfold link
  refine (returns_descend h.linked hdist hentry).bind fun start hstart => ?_
  have hother : start ≠ slot := by
    intro heq
    by_cases hle : g.maxLevel.toNat ≤ top.toNat
    · exact hne ((hstart.2 hle).symm.trans heq)
    · have := hstart.1.2
      rw [heq, hlevel] at this
      omega
  have hstarts : ∀ e ∈ [start], g.On (min top.toNat g.maxLevel.toNat) e ∧ e ≠ slot := by
    simpa using ⟨hstart.1.mono (by omega), hother⟩
  have hbelow : g.Linking slot (min top.toNat g.maxLevel.toNat + 1) :=
    ⟨h.linked, h.simple, fun hl => h.unnamed (by omega)⟩
  have hon : g.On (min top.toNat g.maxLevel.toNat) slot := ⟨hslot, by omega⟩
  refine (hbelow.returns_linkLevels hon hstarts).bind fun state hsimple => returns_ok ?_
  split <;> exact hsimple

/-! ## Appending a slot -/

/-- The lists of a graph to which a slot was appended: the old ones, and empty ones. -/
theorem neighbours_of_grow (h : g.Linked) {vectors : FlatVectors} {row : List F32} {top : UInt8}
    (hon : (g.grow vectors row top).On level slot) :
    (g.On level slot ∧ ∃ list, g.neighbours slot level = .ok list ∧
        (g.grow vectors row top).neighbours slot level = .ok list) ∨
      (g.grow vectors row top).neighbours slot level = .ok [] := by
  by_cases hold : slot.toNat < g.len
  · have hon' : g.On level slot := ⟨hold, by rw [← levelAt_grow_old hold]; exact hon.2⟩
    obtain ⟨list, hread, -⟩ := h.lists level slot hon'
    exact .inl ⟨hon', list, hread, neighbours_grow hread⟩
  · have hslot : slot.toNat = g.len := by
      have := hon.1
      rw [len_grow] at this
      omega
    have hlevel : level ≤ top.toNat := by
      rw [← levelAt_grow_new hslot]
      exact hon.2
    exact .inr (neighbours_grow_new h.toShaped hslot hlevel)

theorem linking_grow (h : g.Linked) (hs : g.Simple) {vectors : FlatVectors} {row : List F32}
    {top : UInt8} (hgrown : (g.grow vectors row top).Linked) (hslot : slot.toNat = g.len)
    (levels : ℕ) : (g.grow vectors row top).Linking slot levels where
  linked := hgrown
  simple level other hon := by
    obtain ⟨hon', list, hold, hread⟩ | hread := neighbours_of_grow h hon
    · exact returns_iff.2 ⟨list, hread, (hs level other hon').of_ok hold⟩
    · exact returns_iff.2 ⟨[], hread, by simp⟩
  unnamed {l} _ other hon := by
    obtain ⟨hon', list, hold, hread⟩ | hread := neighbours_of_grow h hon
    · refine returns_iff.2 ⟨list, hread, fun hmem => ?_⟩
      have hlt := (((h.lists l other hon').of_ok hold).2 slot hmem).1
      omega
    · exact returns_iff.2 ⟨[], hread, List.not_mem_nil⟩

end Hnsw

end Index

end DistrHnsw
