import DistrHnsw.Index.Exact
import DistrHnsw.Index.Loaded
import Mathlib.Logic.Relation

/-!
# Exhaustive beams

A beam with room for every slot takes in each slot that it meets and drops none, so it ends with
every accepted slot that the links reach.  Such a search returns what the oracle does.
-/

namespace DistrHnsw

namespace Index

/-! ## A beam with room -/

section Beam

variable {m : Type → Type} [Monad m] [MonadExceptOf Fault m] [MonadReturns m]
  {good : Slot → Prop} {f : Slot → F32} {accepts : Slot → Bool} {links : Slot → List Slot}
  {slots expanded ef : ℕ} {exempt : List Slot} {b : Beam}

/-- A beam that has lost nothing: every accepted slot that it visited is among the results, and
every visited slot outside `exempt` waits to be expanded or has only visited neighbours. -/
structure Lossless (good : Slot → Prop) (f : Slot → F32) (accepts : Slot → Bool)
    (links : Slot → List Slot) (slots expanded : ℕ) (exempt : List Slot) (b : Beam) : Prop
    extends Beamed good f accepts slots expanded b where
  kept (s : Slot) : s ∈ b.visited.slots → accepts s = true → s ∈ b.results.map Far.slot
  explored (s : Slot) : s ∈ b.visited.slots →
    s ∈ exempt ∨ s ∈ b.candidates.map Far.slot ∨ ∀ n ∈ links s, n ∈ b.visited.slots

/-- The results are visited slots. -/
theorem Beamed.length_results_le (h : Beamed good f accepts slots expanded b) :
    b.results.length ≤ b.visited.slots.length := by
  have hsub : b.results.map Far.slot ⊆ b.visited.slots := by
    intro s hs
    obtain ⟨r, hr, rfl⟩ := List.mem_map.1 hs
    exact (h.found r hr).1
  simpa using (h.once.subperm hsub).length_le

/-- A beam whose results are as many as the slots holds every slot. -/
theorem Beamed.mem_of_length (h : Beamed good f accepts slots expanded b)
    (hfull : slots ≤ b.results.length) {s : Slot} (hs : s.toNat < slots) :
    s ∈ b.results.map Far.slot := by
  have hnodup : ((b.results.map Far.slot).map UInt32.toNat).Nodup :=
    h.once.map fun _ _ => UInt32.toNat_inj.1
  have hsub : (b.results.map Far.slot).map UInt32.toNat ⊆ List.range slots := by
    intro n hn
    obtain ⟨slot, hslot, rfl⟩ := List.mem_map.1 hn
    obtain ⟨r, hr, rfl⟩ := List.mem_map.1 hslot
    exact List.mem_range.2 (h.inside _ (h.found r hr).1)
  have hall := (hnodup.subperm hsub).perm_of_length_le (by simpa using hfull)
  obtain ⟨slot, hslot, heq⟩ := List.mem_map.1 (hall.mem_iff.2 (List.mem_range.2 hs))
  rwa [← UInt32.toNat_inj.1 heq]

/-- A fresh slot is taken in. -/
theorem Lossless.push (h : Lossless good f accepts links slots expanded exempt b) {slot : Slot}
    (hgood : good slot) (hslot : slot.toNat < slots) {visited : Visited}
    (hwords : visited.words = b.visited.words) (hslots : visited.slots = slot :: b.visited.slots)
    (hfresh : slot ∉ b.visited.slots) :
    Lossless good f accepts links slots expanded exempt
      ({ b with visited }.push accepts ⟨f slot, slot⟩) where
  toBeamed := h.toBeamed.push hgood hslot hwords hslots hfresh
  kept s hs haccepts := by
    change s ∈ visited.slots at hs
    rw [hslots] at hs
    simp only [Beam.push]
    rcases List.mem_cons.1 hs with rfl | hs
    · rw [if_pos haccepts]
      exact List.mem_cons_self
    · have hkept := h.kept s hs haccepts
      split
      · exact List.mem_cons_of_mem _ hkept
      · exact hkept
  explored s hs := by
    change s ∈ visited.slots at hs
    rw [hslots] at hs
    show s ∈ exempt ∨ s ∈ slot :: b.candidates.map Far.slot ∨ ∀ n ∈ links s, n ∈ visited.slots
    rw [hslots]
    rcases List.mem_cons.1 hs with rfl | hs
    · exact .inr (.inl List.mem_cons_self)
    · rcases h.explored s hs with hexempt | hwaits | hclosed
      · exact .inl hexempt
      · exact .inr (.inl (List.mem_cons_of_mem _ hwaits))
      · exact .inr (.inr fun n hn => List.mem_cons_of_mem _ (hclosed n hn))

/-- Visiting a slot tells whether it is new. -/
theorem BeamInv.insert_eq (h : BeamInv good slots expanded b) {slot : Slot}
    (hslot : slot.toNat < slots) : b.visited.insert slot =
      if slot ∈ b.visited.slots then .ok (false, b.visited)
      else .ok (true, { b.visited with slots := slot :: b.visited.slots }) := by
  have hword : slot.toNat / 64 < b.visited.words := by
    rw [h.words]
    omega
  exact if_pos hword

/-- Starting from an entry point visits it. -/
theorem Lossless.returns_enter {dist : Slot → m F32} (hslots : ∀ s, good s → s.toNat < slots)
    (hdist : ∀ s, good s → Returns (dist s) (· = f s))
    (h : Lossless good f accepts links slots expanded exempt b) {entry : Slot}
    (hgood : good entry) :
    Returns (b.enter dist accepts entry) fun b' =>
      Lossless good f accepts links slots expanded exempt b' ∧
        entry ∈ b'.visited.slots ∧ ∀ s ∈ b.visited.slots, s ∈ b'.visited.slots := by
  have hslot := hslots entry hgood
  unfold Beam.enter
  rw [h.insert_eq hslot]
  by_cases hseen : entry ∈ b.visited.slots
  · rw [if_pos hseen]
    refine (returns_check (returns_ok rfl)).bind fun out hout => ?_
    subst hout
    exact returns_pure ⟨h, hseen, fun _ hs => hs⟩
  · rw [if_neg hseen]
    refine (returns_check (returns_ok rfl)).bind fun out hout => ?_
    subst hout
    refine (hdist entry hgood).bind fun d hd => returns_pure ?_
    subst hd
    exact ⟨h.push hgood hslot rfl rfl hseen, List.mem_cons_self,
      fun s hs => List.mem_cons_of_mem _ hs⟩

/-- Looking at a neighbour visits it and takes it in when it is new. -/
theorem Lossless.returns_look {dist : Slot → m F32} (hslots : ∀ s, good s → s.toNat < slots)
    (hdist : ∀ s, good s → Returns (dist s) (· = f s)) (hef : slots ≤ ef)
    (h : Lossless good f accepts links slots expanded exempt b) {neighbour : Slot}
    (hgood : good neighbour) :
    Returns (b.look dist ef accepts neighbour) fun b' =>
      Lossless good f accepts links slots expanded exempt b' ∧
        neighbour ∈ b'.visited.slots ∧ ∀ s ∈ b.visited.slots, s ∈ b'.visited.slots := by
  have hslot := hslots neighbour hgood
  unfold Beam.look
  rw [h.insert_eq hslot]
  by_cases hseen : neighbour ∈ b.visited.slots
  · rw [if_pos hseen]
    refine (returns_check (returns_ok rfl)).bind fun out hout => ?_
    subst hout
    exact returns_pure ⟨h, hseen, fun _ hs => hs⟩
  · rw [if_neg hseen]
    refine (returns_check (returns_ok rfl)).bind fun out hout => ?_
    subst hout
    refine (hdist neighbour hgood).bind fun d hd => returns_pure ?_
    subst hd
    have hpushed := @Lossless.push _ _ _ _ _ _ _ _ h _ hgood hslot
      { b.visited with slots := neighbour :: b.visited.slots } rfl rfl hseen
    -- there is room for one more: the results are visited slots, and this slot was not
    have hvisited := hpushed.length_le
    have hresults := h.length_results_le
    have hlength := hpushed.length_results_le
    have hroom : b.results.length < ef := by
      change b.visited.slots.length + 1 ≤ slots at hvisited
      omega
    unfold Beam.admitted
    rw [if_pos (.inl hroom)]
    dsimp only
    rw [Beam.trim, if_neg (Nat.not_lt.2 (hlength.trans (hvisited.trans hef)))]
    exact ⟨hpushed, List.mem_cons_self, fun s hs => List.mem_cons_of_mem _ hs⟩

/-- The found slots are good, pass the test and carry their distances, each once; and no accepted slot
that the links reach from an entry point is missing. -/
def FoundAll (good : Slot → Prop) (f : Slot → F32) (accepts : Slot → Bool)
    (links : Slot → List Slot) (entries : List Slot) (found : List Far) : Prop :=
  Found good f accepts found ∧ ∀ s, good s → accepts s = true →
    (∃ entry ∈ entries, Relation.ReflTransGen (fun a b => b ∈ links a) entry s) →
      s ∈ found.map Far.slot

/-- When nothing waits any more, everything that the links reach was found. -/
theorem Lossless.foundAll {entries : List Slot}
    (h : Lossless good f accepts links slots expanded [] b)
    (hempty : b.candidates = []) (hentries : ∀ s ∈ entries, s ∈ b.visited.slots) :
    FoundAll good f accepts links entries b.results := by
  have hall {entry s : Slot} (hentry : entry ∈ entries)
      (hreach : Relation.ReflTransGen (fun a b => b ∈ links a) entry s) :
      s ∈ b.visited.slots := by
    induction hreach with
    | refl => exact hentries entry hentry
    | tail _ hlink ih =>
      rcases h.explored _ ih with hexempt | hwaits | hclosed
      · exact absurd hexempt List.not_mem_nil
      · rw [hempty] at hwaits
        exact absurd hwaits List.not_mem_nil
      · exact hclosed _ hlink
  refine ⟨h.results_found, fun s _ haccepts ⟨entry, hentry, hreach⟩ => ?_⟩
  exact h.kept s (hall hentry hreach) haccepts

/-- A search with room for every slot finds every accepted slot that the links reach. -/
theorem returns_searchLayer_all {neighbours : Slot → m (List Slot)} {dist : Slot → m F32}
    (hslots : ∀ s, good s → s.toNat < slots)
    (hneighbours : ∀ s, good s → Returns (neighbours s) fun list =>
      list = links s ∧ ∀ n ∈ list, good n)
    (hdist : ∀ s, good s → Returns (dist s) (· = f s)) (hef : slots ≤ ef) {entries : List Slot}
    (hentries : ∀ s ∈ entries, good s) :
    Returns (searchLayer neighbours dist slots entries ef accepts)
      (FoundAll good f accepts links entries) := by
  have hexpand : ∀ fuel expanded b, fuel + expanded = slots + 1 →
      Lossless good f accepts links slots expanded [] b →
      (∀ s ∈ entries, s ∈ b.visited.slots) →
      Returns (b.expand dist ef accepts neighbours fuel)
        (FoundAll good f accepts links entries) := by
    intro fuel
    induction fuel with
    | zero =>
      intro expanded b hfuel h hvisited
      have hle := h.length_le
      have hcount := h.count
      omega
    | succ fuel ih =>
      intro expanded b hfuel h hvisited
      unfold Beam.expand
      split
      · rename_i hpop
        exact returns_pure (h.foundAll (popMax_eq_none.1 hpop) hvisited)
      · rename_i current rest hpop
        split
        · rename_i hfinished
          -- a full beam that may stop holds every slot already
          have hfull : ef ≤ b.results.length := by
            rw [Beam.finished, Bool.and_eq_true, decide_eq_true_eq] at hfinished
            exact hfinished.1
          refine returns_pure ⟨h.results_found, fun s hgood _ _ => ?_⟩
          exact h.mem_of_length (hef.trans hfull) (hslots s hgood)
        · have hmem (c : Far) := mem_of_popMax (a := c) hpop
          have hcurrent : good current.slot := h.candidates _ ((hmem current).2 (.inl rfl))
          have hpopped : Lossless good f accepts links slots (expanded + 1) [current.slot]
              { b with candidates := rest } :=
            { h with
              candidates := fun c hc => h.candidates c ((hmem c).2 (.inr hc))
              count := by
                have := h.count
                rw [length_of_popMax hpop] at this
                show rest.length + (expanded + 1) ≤ b.visited.slots.length
                omega
              explored := fun s hs => by
                rcases h.explored s hs with hexempt | hwaits | hclosed
                · exact absurd hexempt List.not_mem_nil
                · obtain ⟨c, hc, rfl⟩ := List.mem_map.1 hwaits
                  rcases (hmem c).1 hc with rfl | hc
                  · exact .inl List.mem_cons_self
                  · exact .inr (.inl (List.mem_map_of_mem hc))
                · exact .inr (.inr hclosed) }
          refine (hneighbours _ hcurrent).bind fun list hlist => ?_
          refine Returns.bind (returns_foldlM_done (J := fun done b' =>
            Lossless good f accepts links slots (expanded + 1) [current.slot] b' ∧
              (∀ n ∈ done, n ∈ b'.visited.slots) ∧ ∀ s ∈ b.visited.slots, s ∈ b'.visited.slots)
            (fun done n left heq b' hb' => ?_) ⟨hpopped, by simp, fun s hs => hs⟩)
            fun b' hb' => ?_
          · have hgood : good n := hlist.2 n (heq ▸ List.mem_append_right _ List.mem_cons_self)
            refine (hb'.1.returns_look hslots hdist hef hgood).mono fun b'' hb'' => ?_
            refine ⟨hb''.1, fun x hx => ?_, fun s hs => hb''.2.2 s (hb'.2.2 s hs)⟩
            rcases List.mem_append.1 hx with hx | hx
            · exact hb''.2.2 x (hb'.2.1 x hx)
            · rw [List.mem_singleton.1 hx]
              exact hb''.2.1
          · obtain ⟨hlossless, hdone, hgrown⟩ := hb'
            refine ih (expanded + 1) b' (by omega) ?_ fun s hs => hgrown s (hvisited s hs)
            refine { hlossless with explored := fun s hs => ?_ }
            rcases hlossless.explored s hs with hexempt | hrest
            · rw [List.mem_singleton.1 hexempt, ← hlist.1]
              exact .inr (.inr hdone)
            · exact .inr hrest
  have hstart : Lossless good f accepts links slots 0 [] ⟨.reset slots, [], []⟩ :=
    ⟨⟨⟨rfl, List.nodup_nil, by simp [Visited.reset], by simp, by simp, by simp [Visited.reset]⟩,
      List.nodup_nil, by simp⟩, by simp [Visited.reset], by simp [Visited.reset]⟩
  unfold searchLayer
  refine Returns.bind (returns_foldlM_done (J := fun done b =>
    Lossless good f accepts links slots 0 [] b ∧ ∀ s ∈ done, s ∈ b.visited.slots)
    (fun done s rest heq b hb => ?_) ⟨hstart, by simp⟩) fun b hb => ?_
  · have hgood : good s := hentries s (heq ▸ List.mem_append_right _ List.mem_cons_self)
    refine (hb.1.returns_enter hslots hdist hgood).mono fun b' hb' => ⟨hb'.1, fun x hx => ?_⟩
    rcases List.mem_append.1 hx with hx | hx
    · exact hb'.2.2 x (hb.2 x hx)
    · rw [List.mem_singleton.1 hx]
      exact hb'.2.1
  · exact hexpand (slots + 1) 0 b rfl hb.1 hb.2

end Beam

/-! ## The oracle's answer -/

namespace Hnsw

variable {g : Hnsw} {query : List F32} {allow : Option (Slot → Bool)}

/-- Whether a search may return a slot. -/
def accepts (g : Hnsw) (allow : Option (Slot → Bool)) (slot : Slot) : Bool :=
  !g.isTombstoned slot && (allow.map (· slot)).getD true

/-- A link of level 0. -/
def LinksTo (g : Hnsw) (a b : Slot) : Prop := ∃ list, g.neighbours a 0 = .ok list ∧ b ∈ list

/-- One slot leads to another over links of level 0. -/
def Reaches (g : Hnsw) : Slot → Slot → Prop := Relation.ReflTransGen g.LinksTo

/-- The list of a slot on level 0. -/
def linksOf (g : Hnsw) (slot : Slot) : List Slot :=
  match g.neighbours slot 0 with
  | .ok list => list
  | .error _ => []

theorem Linked.returns_linksOf (h : g.Linked) {slot : Slot} (hslot : g.On 0 slot) :
    Returns (g.neighbours slot 0) fun list => list = g.linksOf slot ∧ ∀ n ∈ list, g.On 0 n := by
  obtain ⟨list, hlist, hon⟩ := returns_iff.1 (h.returns_neighbours hslot)
  refine returns_iff.2 ⟨list, hlist, ?_, hon⟩
  rw [linksOf, hlist]

theorem Reaches.chain {a b : Slot} (h : g.Reaches a b) :
    Relation.ReflTransGen (fun a b => b ∈ g.linksOf a) a b := by
  apply Relation.ReflTransGen.mono _ a b h
  rintro a b ⟨list, hlist, hb⟩
  rwa [linksOf, hlist]

/-- The hits of the found slots are those of the rows that the oracle may return. -/
theorem Valid.perm_rowHits (h : g.Valid) {start : Slot} {found : List Far}
    (hfound : FoundAll (g.On 0) (distanceAt g.metric g.vectors query) (g.accepts allow) g.linksOf
      [start] found)
    (hreach : ∀ slot : Slot, slot.toNat < g.len → g.accepts allow slot = true →
      g.Reaches start slot) :
    (found.map fun c => (⟨c.slot.toNat, c.distance⟩ : Hit)).Perm
      (rowHits g.vectors g.metric query fun id => g.accepts allow (UInt32.ofNat id)) := by
  obtain ⟨⟨hnodup, hdrawn⟩, hall⟩ := hfound
  have hids : (found.map fun c => (⟨c.slot.toNat, c.distance⟩ : Hit)).Nodup := by
    apply List.Nodup.of_map Hit.id
    rw [List.map_map]
    have hslots := hnodup.map fun _ _ => UInt32.toNat_inj.1
    rwa [List.map_map] at hslots
  apply (List.perm_ext_iff_of_nodup hids (List.Nodup.of_map Hit.id nodup_rowHits)).2
  have hlen : g.len ≤ 2 ^ 32 := h.len_le
  have hvectors : g.vectors.rows.length = g.len := h.vectors
  intro hit
  constructor
  · intro hmem
    obtain ⟨c, hc, rfl⟩ := List.mem_map.1 hmem
    obtain ⟨hon, haccepts, hdistance⟩ := hdrawn c hc
    have hlt : c.slot.toNat < g.vectors.rows.length := by
      rw [hvectors]
      exact hon.1
    apply List.mem_map.2
    refine ⟨(g.vectors.rows[c.slot.toNat], c.slot.toNat), List.mem_filter.2 ⟨?_, ?_⟩, ?_⟩
    · exact List.mk_mem_zipIdx_iff_getElem?.2 (List.getElem?_eq_getElem hlt)
    · simpa using haccepts
    · rw [hdistance]
      simp [distanceAt, FlatVectors.get, List.getElem?_eq_getElem hlt]
  · intro hmem
    obtain ⟨⟨row, id⟩, hrow, rfl⟩ := List.mem_map.1 hmem
    obtain ⟨hrow, haccepts⟩ := List.mem_filter.1 hrow
    have hget : g.vectors.rows[id]? = some row := List.mk_mem_zipIdx_iff_getElem?.1 hrow
    have hlt : id < g.len := by
      rw [← hvectors]
      exact (List.getElem?_eq_some_iff.1 hget).1
    have hid : (UInt32.ofNat id).toNat = id :=
      UInt32.toNat_ofNat_of_lt' (lt_of_lt_of_le hlt hlen)
    have hon : g.On 0 (UInt32.ofNat id) := ⟨hid.symm ▸ hlt, Nat.zero_le _⟩
    have hin := hall _ hon haccepts
      ⟨start, List.mem_singleton_self _, (hreach _ hon.1 haccepts).chain⟩
    obtain ⟨c, hc, hslot⟩ := List.mem_map.1 hin
    refine List.mem_map.2 ⟨c, hc, ?_⟩
    rw [(hdrawn c hc).2.2, hslot, hid]
    simp [distanceAt, FlatVectors.get, hid, hget]

/-- A search whose beam has room for every slot returns what the oracle does, when the slot at which
the descent ends leads to every slot that it may return. -/
theorem exhaustive_search_is_exact (h : g.Valid) (hquery : query.length = g.dims) {k ef : ℕ}
    (hef : g.len ≤ ef)
    (hreach : ∀ entry start, g.entry = some entry →
      g.descend (g.traversal query .f32) entry 0 = .ok start →
        ∀ slot : Slot, slot.toNat < g.len → g.accepts allow slot = true → g.Reaches start slot) :
    g.searchWith query k ef .f32 allow = .ok (oracleSearch g.vectors g.metric query k fun id =>
      g.accepts allow (UInt32.ofNat id)) := by
  have hdist (s : Slot) (hs : s.toNat < g.len) : Returns (g.traversal query .f32 s)
      (· = distanceAt g.metric g.vectors query s) :=
    returns_distanceTo (by rwa [h.vectors])
  rw [oracleSearch_eq]
  unfold searchWith
  rw [if_neg (not_not.2 hquery)]
  cases hentry : g.entry with
  | none =>
    have hrows : g.vectors.rows = [] := by
      apply List.eq_nil_of_length_eq_zero
      have : g.vectors.rows.length = g.len := h.vectors
      rw [this, h.empty hentry]
    simp [rowHits, hrows, byRank, sortBy]
  | some entry =>
    by_cases hk : k = 0
    · simp [hk]
    · obtain ⟨start, hdescend, hstart⟩ :=
        returns_iff.1 (returns_descend h.toLinked hdist (h.entry entry hentry) : Returns (g.descend _ entry 0) _)
      have hone : ∀ e ∈ [start], g.On 0 e := by simpa using hstart.1.mono (Nat.zero_le _)
      obtain ⟨found, hsearch, hfound⟩ := returns_iff.1 (@returns_searchLayer_all _ _ _ _ _ _
        (g.accepts allow) _ _ (max ef k) _ _
        (fun s hs => hs.1) (fun s hs => h.toLinked.returns_linksOf hs)
        (fun s hs => hdist s hs.1) (hef.trans (Nat.le_max_left ef k)) [start] hone)
      have hperm := h.perm_rowHits hfound (hreach entry start hentry hdescend)
      have hleast := TopK.least_foldl (k := k) least_nil
        (found.map fun c => (⟨c.slot.toNat, c.distance⟩ : Hit))
      rw [List.nil_append, List.foldl_map] at hleast
      have hids := (hperm.map Hit.id).nodup_iff.2 nodup_rowHits
      have hsorted := TopK.intoSorted_of_least hleast hids
      rw [byRank, sortBy_eq_of_perm hperm (eq_of_rank_eq nodup_rowHits)] at hsorted
      simp only [if_neg hk, hdescend, ok_bind]
      show (searchLayer (g.neighbours · 0) (g.traversal query .f32) g.len [start] (max ef k)
        (g.accepts allow) >>= fun candidates => g.rank query k candidates .f32) = _
      rw [hsearch, ok_bind, rank, hsorted]
      rfl

end Hnsw

/-! ## The two slots -/

theorem valid_pair : (pair 0).index.Valid := by
  obtain ⟨bytes, hload⟩ := @load_pair .standard 0 (encodable_pair (by decide))
  exact (@formed_of_load .standard _ _ _ hload).1.valid leveled_pair

theorem reaches_pair {a b : Slot} (ha : a.toNat < 2) (hb : b.toNat < 2) :
    (pair 0).index.Reaches a b := by
  have hslot {s : Slot} (hs : s.toNat < 2) : s = 0 ∨ s = 1 := by
    rcases Nat.lt_or_ge s.toNat 1 with h | h
    · exact .inl (UInt32.toNat_inj.1 (show s.toNat = 0 by omega))
    · exact .inr (UInt32.toNat_inj.1 (show s.toNat = 1 by omega))
  have hforth : (pair 0).index.LinksTo 0 1 := ⟨[1], by decide, by decide⟩
  have hback : (pair 0).index.LinksTo 1 0 := ⟨[0], by decide, by decide⟩
  rcases hslot ha with rfl | rfl <;> rcases hslot hb with rfl | rfl
  · exact .refl
  · exact .single hforth
  · exact .single hback
  · exact .refl

/-- A beam with room for both slots. -/
theorem exhaustive_search_is_exact_pair :
    (pair 0).index.searchWith [F32.zero] 2 2 .f32 none =
      .ok (oracleSearch (pair 0).index.vectors .l2 [F32.zero] 2 fun id =>
        (pair 0).index.accepts none (UInt32.ofNat id)) := by
  apply Hnsw.exhaustive_search_is_exact valid_pair rfl (show 2 ≤ 2 by decide)
  intro entry start hentry hdescend slot hslot _
  have hdist (s : Slot) (hs : s.toNat < (pair 0).index.len) :=
    Hnsw.returns_valueOf (@Hnsw.Valid.returns_traversal _ [F32.zero] valid_pair .f32 _ hs)
  have hstart := (Hnsw.returns_descend valid_pair.toLinked hdist
    (valid_pair.entry entry hentry)).of_ok hdescend
  exact reaches_pair hstart.1.1 hslot

end Index

end DistrHnsw
