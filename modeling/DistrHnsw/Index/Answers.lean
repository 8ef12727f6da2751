import DistrHnsw.Index.Query
import Mathlib.Data.Prod.Lex
import Mathlib.Order.Compare

/-!
# What a search answers

The hits of a search are at most `k`, strictly in rank order, and every one is a slot that is not
masked, that the filter allows, and that carries the exact distance of its row.
-/

namespace DistrHnsw

namespace Index

/-! ## The order of the hits -/

/-- The place of a hit: by distance, what is not a number last, then by slot. -/
def Hit.rank (h : Hit) : Bool ×ₗ ℤ ×ₗ ℕ :=
  toLex (h.distance.isNan, toLex (if h.distance.isNan then 0 else h.distance.position, h.id))

/-- One hit comes behind another exactly when its place is greater. -/
theorem Hit.cmpRank_eq_gt {a b : Hit} : a.cmpRank b = .gt ↔ b.rank < a.rank := by
  unfold Hit.cmpRank Hit.rank F32.partialCmp
  rw [Prod.Lex.toLex_lt_toLex, Prod.Lex.toLex_lt_toLex]
  cases a.distance.isNan <;> cases b.distance.isNan
  · simp [Ordering.then_eq_gt, eq_comm (a := b.distance.position), compare_gt_iff_gt]
  · simp
  · simp
  · simp [Nat.compare_eq_gt]

theorem Hit.rank_injective {a b : Hit} (h : a.rank = b.rank) : a.id = b.id :=
  congrArg (fun place => (ofLex (ofLex place).2).2) h

/-- Strictly in rank order. -/
def Ranked (hits : List Hit) : Prop := hits.Pairwise fun a b => a.rank < b.rank

theorem Ranked.nodup {hits : List Hit} (h : Ranked hits) : hits.Nodup :=
  h.imp fun hlt heq => (heq ▸ hlt).false

namespace TopK

variable {k : ℕ} {heap hits : List Hit}

/-- Hits of distinct slots are sorted strictly. -/
theorem ranked_intoSorted (h : (heap.map Hit.id).Nodup) : Ranked (intoSorted heap) := by
  have hle (a b : Hit) : (a.cmpRank b != .gt) = true ↔ a.rank ≤ b.rank := by
    rw [bne_iff_ne, ne_eq, Hit.cmpRank_eq_gt, not_lt]
  have hsorted : (intoSorted heap).Pairwise fun a b => (a.cmpRank b != .gt) = true := by
    apply List.pairwise_mergeSort
    · intro a b c hab hbc
      exact (hle a c).2 (((hle a b).1 hab).trans ((hle b c).1 hbc))
    · intro a b
      rw [Bool.or_eq_true, hle, hle]
      exact le_total a.rank b.rank
  have hids : (intoSorted heap).Pairwise fun a b => a.id ≠ b.id := by
    have hperm := (List.mergeSort_perm heap fun a b => a.cmpRank b != .gt).map Hit.id
    exact List.pairwise_map.1 (hperm.nodup_iff.2 h)
  exact (hsorted.and hids).imp fun ⟨hab, hne⟩ =>
    lt_of_le_of_ne ((hle _ _).1 hab) fun heq => hne (Hit.rank_injective heq)

/-- A push keeps at most `k` of the hits. -/
theorem push_subperm (hit : Hit) : (push k heap hit).Subperm (hit :: heap) := by
  unfold push
  split
  · exact (List.sublist_cons_self hit heap).subperm
  · split
    · exact List.Subperm.refl _
    · split
      · rename_i worst rest hpop
        have hrest : rest.Subperm heap :=
          (List.sublist_cons_self worst rest).subperm.trans (perm_of_popMax hpop).subperm
        split
        · exact (List.subperm_cons hit).2 hrest
        · exact (List.sublist_cons_self hit heap).subperm
      · exact (List.sublist_cons_self hit heap).subperm

theorem length_push_le (hit : Hit) (h : heap.length ≤ k) : (push k heap hit).length ≤ k := by
  unfold push
  split
  · exact h
  · split
    · exact Nat.succ_le_of_lt ‹_›
    · split
      · rename_i worst rest hpop
        have := length_of_popMax hpop
        split
        · show rest.length + 1 ≤ k
          omega
        · exact h
      · exact h

/-- At most `k` of the hits so far are kept. -/
structure Kept (k : ℕ) (hits heap : List Hit) : Prop where
  subperm : heap.Subperm hits
  length_le : heap.length ≤ k

theorem kept_nil : Kept k [] [] := ⟨List.Subperm.refl _, Nat.zero_le _⟩

theorem Kept.push (h : Kept k hits heap) (hit : Hit) : Kept k (hits ++ [hit]) (push k heap hit) where
  subperm := by
    refine (push_subperm hit).trans (((List.subperm_cons hit).2 h.subperm).trans ?_)
    exact (List.perm_append_singleton hit hits).symm.subperm
  length_le := length_push_le hit h.length_le

end TopK

/-! ## What a beam search draws -/

/-- Distinct slots that pass the test, with their distances. -/
def Drawn (dist : Slot → Checked F32) (accepts : Slot → Bool) (found : List Far) : Prop :=
  (found.map Far.slot).Nodup ∧
    ∀ r ∈ found, accepts r.slot = true ∧ dist r.slot = .ok r.distance

/-- The results of a beam are drawn from the visited slots. -/
structure Beam.Draws (dist : Slot → Checked F32) (accepts : Slot → Bool) (b : Beam) : Prop where
  drawn : Drawn dist accepts b.results
  visited (r : Far) : r ∈ b.results → r.slot ∈ b.visited.slots

section Draws

variable {dist : Slot → Checked F32} {accepts : Slot → Bool} {b b' : Beam} {slot : Slot} {ef : ℕ}

/-- A slot that was not visited before can be taken in. -/
theorem Beam.Draws.push (h : b.Draws dist accepts) {visited : Visited} {d : F32}
    (hslots : visited.slots = slot :: b.visited.slots) (hfresh : slot ∉ b.visited.slots)
    (hdist : dist slot = .ok d) : ({ b with visited }.push accepts ⟨d, slot⟩).Draws dist accepts := by
  have hold (r : Far) (hr : r ∈ b.results) : r.slot ∈ visited.slots := by
    rw [hslots]
    exact List.mem_cons_of_mem _ (h.visited r hr)
  unfold Beam.push
  dsimp only
  split
  · rename_i haccepts
    refine ⟨⟨List.nodup_cons.2 ⟨fun hmem => ?_, h.drawn.1⟩, fun r hr => ?_⟩, fun r hr => ?_⟩
    · obtain ⟨r, hr, heq⟩ := List.mem_map.1 hmem
      apply hfresh
      rw [← show r.slot = slot from heq]
      exact h.visited r hr
    · rcases List.mem_cons.1 hr with rfl | hr
      · exact ⟨haccepts, hdist⟩
      · exact h.drawn.2 r hr
    · rcases List.mem_cons.1 hr with rfl | hr
      · show slot ∈ visited.slots
        rw [hslots]
        exact List.mem_cons_self
      · exact hold r hr
  · exact ⟨h.drawn, hold⟩

theorem Beam.Draws.trim (h : b.Draws dist accepts) :
    ({ b with results := Beam.trim ef b.results } : Beam).Draws dist accepts :=
  ⟨⟨nodup_trim h.drawn.1, fun r hr => h.drawn.2 r (mem_trim hr)⟩,
    fun r hr => h.visited r (mem_trim hr)⟩

theorem Beam.Draws.visit (h : b.Draws dist accepts) {visited : Visited}
    (hslots : visited.slots = slot :: b.visited.slots) :
    ({ b with visited } : Beam).Draws dist accepts :=
  ⟨h.drawn, fun r hr => by
    show r.slot ∈ visited.slots
    rw [hslots]
    exact List.mem_cons_of_mem _ (h.visited r hr)⟩

theorem insert_eq_ok {v : Visited} {out : Bool × Visited} (h : v.insert slot = .ok out) :
    out.1 = true ∧ out.2.slots = slot :: v.slots ∧ slot ∉ v.slots ∨ out = (false, v) := by
  unfold Visited.insert at h
  split at h
  · split at h
    · cases h
      exact .inr rfl
    · cases h
      exact .inl ⟨rfl, rfl, ‹_›⟩
  · cases h

theorem check_eq {α : Type} (x : Checked α) : (check x : Checked α) = x := by
  cases x <;> rfl

theorem Beam.Draws.enter (h : b.Draws dist accepts) (hok : b.enter dist accepts slot = .ok b') :
    b'.Draws dist accepts := by
  unfold Beam.enter at hok
  rw [check_eq] at hok
  obtain ⟨⟨fresh, visited⟩, hinsert, hok⟩ := bind_eq_ok.1 hok
  obtain ⟨hfresh, hslots, hnew⟩ | hold := insert_eq_ok hinsert
  · cases hfresh
    obtain ⟨d, hdist, hok⟩ := bind_eq_ok.1 hok
    cases hok
    exact h.push hslots hnew hdist
  · cases hold
    cases hok
    exact h

theorem Beam.Draws.look (h : b.Draws dist accepts) (hok : b.look dist ef accepts slot = .ok b') :
    b'.Draws dist accepts := by
  unfold Beam.look at hok
  rw [check_eq] at hok
  obtain ⟨⟨fresh, visited⟩, hinsert, hok⟩ := bind_eq_ok.1 hok
  obtain ⟨hfresh, hslots, hnew⟩ | hold := insert_eq_ok hinsert
  · cases hfresh
    obtain ⟨d, hdist, hok⟩ := bind_eq_ok.1 hok
    cases hok
    unfold Beam.admitted
    split
    · exact (h.push hslots hnew hdist).trim
    · exact h.visit hslots
  · cases hold
    cases hok
    exact h

/-- What a search of one level returns, whatever the lists are. -/
theorem drawn_of_searchLayer {neighbours : Slot → Checked (List Slot)} {slots : ℕ}
    {entries : List Slot} {found : List Far}
    (hok : searchLayer neighbours dist slots entries ef accepts = .ok found) :
    Drawn dist accepts found := by
  have hexpand : ∀ fuel (b : Beam), b.Draws dist accepts →
      b.expand dist ef accepts neighbours fuel = .ok found → Drawn dist accepts found := by
    intro fuel
    induction fuel with
    | zero => exact fun b _ hok => nomatch hok
    | succ fuel ih =>
      intro b h hok
      unfold Beam.expand at hok
      split at hok
      · cases hok
        exact h.drawn
      · rename_i current rest hpop
        split at hok
        · cases hok
          exact h.drawn
        · obtain ⟨list, -, hok⟩ := bind_eq_ok.1 hok
          obtain ⟨b', hlook, hok⟩ := bind_eq_ok.1 hok
          have hrest : ({ b with candidates := rest } : Beam).Draws dist accepts :=
            ⟨h.drawn, h.visited⟩
          exact ih b' (foldlM_ok_induct (fun _ _ _ hb hlook => hb.look hlook) hrest hlook) hok
  unfold searchLayer at hok
  obtain ⟨b, henter, hok⟩ := bind_eq_ok.1 hok
  have hstart : (⟨.reset slots, [], []⟩ : Beam).Draws dist accepts :=
    ⟨⟨List.nodup_nil, by simp⟩, by simp⟩
  exact hexpand _ b (foldlM_ok_induct (fun _ _ _ hb hok => hb.enter hok) hstart henter) hok

end Draws

namespace Hnsw

variable {g : Hnsw} {query : List F32} {k : ℕ} {accepts : Slot → Bool}

/-- The hit of a slot. -/
def hitOf (g : Hnsw) (query : List F32) (slot : Slot) : Hit :=
  ⟨slot.toNat, distanceAt g.metric g.vectors query slot⟩

/-- What a query may answer: at most `k` hits, strictly in rank order and of distinct slots, every one
an unmasked and accepted slot with the exact distance of its row. -/
structure Answers (g : Hnsw) (query : List F32) (k : ℕ) (accepts : Slot → Bool) (hits : List Hit) :
    Prop where
  length_le : hits.length ≤ k
  ranked : Ranked hits
  distinct : (hits.map Hit.id).Nodup
  hit (h : Hit) : h ∈ hits → ∃ (slot : Slot) (row : List F32), h.id = slot.toNat ∧
    slot.toNat < g.len ∧ g.isTombstoned slot = false ∧ accepts slot = true ∧
      g.vectors.get slot.toNat = some row ∧ h.distance = distance g.metric query row

theorem answers_nil : g.Answers query k accepts [] :=
  ⟨Nat.zero_le _, .nil, .nil, nofun⟩

theorem Shaped.answers_intoSorted (h : g.Shaped) {slots : List Slot} {heap : List Hit}
    (hkept : TopK.Kept k (slots.map (g.hitOf query)) heap) (hnodup : slots.Nodup)
    (hslots : ∀ slot ∈ slots, slot.toNat < g.len ∧ g.isTombstoned slot = false ∧
      accepts slot = true) : g.Answers query k accepts (TopK.intoSorted heap) := by
  have hids : (heap.map Hit.id).Nodup := by
    obtain ⟨front, hperm, hsub⟩ := hkept.subperm
    refine nodup_of_subperm ⟨front.map Hit.id, hperm.map Hit.id, hsub.map Hit.id⟩ ?_
    rw [List.map_map]
    exact hnodup.map fun a b hab => UInt32.toNat_inj.1 hab
  have hperm : (TopK.intoSorted heap).Perm heap := List.mergeSort_perm heap _
  refine ⟨hperm.length_eq.trans_le hkept.length_le, TopK.ranked_intoSorted hids,
    ((hperm.map Hit.id).nodup_iff).2 hids, fun hit hmem => ?_⟩
  obtain ⟨slot, hslot, rfl⟩ := List.mem_map.1 (hkept.subperm.subset (hperm.mem_iff.1 hmem))
  obtain ⟨hlt, hlive, haccepts⟩ := hslots slot hslot
  have hrow : slot.toNat < g.vectors.len := by rwa [h.vectors]
  obtain ⟨row, hget⟩ := FlatVectors.get_of_lt hrow
  refine ⟨slot, row, rfl, hlt, hlive, haccepts, hget, ?_⟩
  simp only [hitOf, distanceAt, hget, Option.getD_some]

/-- Scoring slots keeps the best of their hits. -/
theorem Shaped.kept_score (h : g.Shaped) {α : Type} {f : α → Slot} {l : List α}
    (hl : ∀ a ∈ l, (f a).toNat < g.len) :
    Returns (l.foldlM (fun heap a => do
      let d ← distanceTo g.metric g.vectors query (f a)
      return TopK.push k heap ⟨(f a).toNat, d⟩) [])
      (TopK.Kept k ((l.map f).map (g.hitOf query))) := by
  refine returns_foldlM_done (J := fun done => TopK.Kept k ((done.map f).map (g.hitOf query)))
    (fun done a rest heq heap hkept => ?_) TopK.kept_nil
  have hrow : (f a).toNat < g.vectors.len := by
    rw [h.vectors]
    exact hl a (heq ▸ List.mem_append_right _ List.mem_cons_self)
  refine (returns_distanceTo hrow).bind fun d hd => returns_ok ?_
  rw [hd, List.map_append, List.map_append]
  exact hkept.push (g.hitOf query (f a))

theorem kept_foldl {l : List Hit} {heap hits : List Hit} (h : TopK.Kept k hits heap) :
    TopK.Kept k (hits ++ l) (l.foldl (TopK.push k) heap) := by
  induction l generalizing heap hits with
  | nil => simpa using h
  | cons hit l ih => simpa using ih (h.push hit)

/-- What the traversal has a distance of is a slot of the graph. -/
theorem Shaped.lt_of_traversal (h : g.Shaped) {mode : SearchMode} {slot : Slot} {d : F32}
    (hok : g.traversal query mode slot = .ok d) : slot.toNat < g.len := by
  cases mode with
  | f32 =>
    obtain ⟨row, hrow, -⟩ := bind_eq_ok.1 hok
    have hlt := (List.getElem?_eq_some_iff.1 (expect_eq_ok.1 hrow)).1
    rw [← h.vectors]
    exact hlt
  | int8 rescore =>
    obtain ⟨codes, -, hok⟩ := bind_eq_ok.1 hok
    obtain ⟨scale, hscale, -⟩ := bind_eq_ok.1 hok
    rw [← h.quantized.scales]
    exact (List.getElem?_eq_some_iff.1 (index_eq_ok.1 hscale)).1

/-- Candidates that carry the distances of the traversal are ranked by their exact distances. -/
theorem Shaped.answers_rank (h : g.Shaped) {candidates : List Far} (mode : SearchMode)
    (hfound : Drawn (g.traversal query mode) (fun slot => !g.isTombstoned slot && accepts slot)
      candidates) :
    Returns (g.rank query k candidates mode) (g.Answers query k accepts) := by
  have hslots : ∀ slot ∈ candidates.map Far.slot, slot.toNat < g.len ∧
      g.isTombstoned slot = false ∧ accepts slot = true := by
    intro slot hslot
    obtain ⟨c, hc, rfl⟩ := List.mem_map.1 hslot
    obtain ⟨hpass, hdist⟩ := hfound.2 c hc
    rw [Bool.and_eq_true, Bool.not_eq_true'] at hpass
    exact ⟨h.lt_of_traversal hdist, hpass⟩
  cases mode with
  | f32 =>
    have hexact : candidates.map (fun c => (⟨c.slot.toNat, c.distance⟩ : Hit)) =
        (candidates.map Far.slot).map (g.hitOf query) := by
      rw [List.map_map]
      refine List.map_congr_left fun c hc => ?_
      have hrow : c.slot.toNat < g.vectors.len := by
        rw [h.vectors]
        exact (hslots c.slot (List.mem_map_of_mem hc)).1
      have hdist := (returns_distanceTo hrow).of_ok
        (hfound.2 c hc).2
      rw [hdist]
      rfl
    have hkept := kept_foldl (l := candidates.map fun c => (⟨c.slot.toNat, c.distance⟩ : Hit))
      (TopK.kept_nil (k := k))
    rw [List.nil_append, List.foldl_map, hexact] at hkept
    exact returns_ok (h.answers_intoSorted hkept hfound.1 hslots)
  | int8 rescore =>
    have hperm : (candidates.mergeSort Far.le).Perm candidates := List.mergeSort_perm _ _
    have hsub : (((candidates.mergeSort Far.le).take (max rescore k)).map Far.slot).Subperm
        (candidates.map Far.slot) :=
      (((List.take_sublist _ _).map Far.slot).subperm).trans (hperm.map Far.slot).subperm
    refine (h.kept_score fun c hc => ?_).bind fun heap hkept => returns_ok ?_
    · exact (hslots c.slot (hsub.subset (List.mem_map_of_mem hc))).1
    · exact h.answers_intoSorted hkept (nodup_of_subperm hsub hfound.1)
        fun slot hslot => hslots slot (hsub.subset hslot)

/-- What a search of a graph answers is sound, in both modes. -/
theorem Shaped.answers_of_searchWith (h : g.Shaped) {ef : ℕ} {mode : SearchMode}
    {allow : Option (Slot → Bool)} {hits : List Hit}
    (hok : g.searchWith query k ef mode allow = .ok hits) :
    g.Answers query k (fun slot => (allow.map (· slot)).getD true) hits := by
  unfold searchWith at hok
  split at hok
  · cases hok
  · split at hok
    · cases hok
      exact answers_nil
    · split at hok
      · cases hok
        exact answers_nil
      · obtain ⟨start, -, hok⟩ := bind_eq_ok.1 hok
        obtain ⟨candidates, hfound, hok⟩ := bind_eq_ok.1 hok
        exact (h.answers_rank mode (drawn_of_searchLayer hfound)).of_ok hok

theorem Shaped.answers_searchExactOver (h : g.Shaped) (hquery : query.length = g.dims) (k : ℕ)
    (allowed : Bitmap) : Returns (g.searchExactOver query k allowed)
      (g.Answers query k fun slot => decide (slot ∈ allowed.slots)) := by
  unfold searchExactOver
  rw [if_neg (not_not.2 hquery)]
  dsimp only
  have hlive : ∀ slot ∈ allowed.slots.filter fun slot =>
      decide (slot.toNat < g.len) && !g.isTombstoned slot, slot.toNat < g.len ∧
        g.isTombstoned slot = false ∧ decide (slot ∈ allowed.slots) = true := by
    intro slot hslot
    obtain ⟨hmem, hpass⟩ := List.mem_filter.1 hslot
    rw [Bool.and_eq_true, decide_eq_true_eq, Bool.not_eq_true'] at hpass
    exact ⟨hpass.1, hpass.2, decide_eq_true hmem⟩
  have hnodup : (allowed.slots.filter fun slot =>
      decide (slot.toNat < g.len) && !g.isTombstoned slot).Nodup := by
    apply List.Nodup.filter
    refine allowed.sorted.imp fun {a b} hlt heq => ?_
    rw [heq] at hlt
    exact UInt32.lt_irrefl b hlt
  refine (h.kept_score (f := id) fun s hs => (hlive s hs).1).bind fun heap hkept =>
    returns_ok ?_
  rw [List.map_id] at hkept
  exact h.answers_intoSorted hkept hnodup hlive

/-- Of a filtered search too, on either route and for any set of slots. -/
theorem Shaped.answers_of_searchFiltered (h : g.Shaped) {ef : ℕ} {mode : SearchMode}
    {allowed : Bitmap} {cutover : ℕ} {hits : List Hit}
    (hok : g.searchFiltered query k ef mode allowed cutover = .ok hits) :
    g.Answers query k (fun slot => decide (slot ∈ allowed.slots)) hits := by
  unfold searchFiltered at hok
  split at hok
  · cases hok
    exact answers_nil
  · split at hok
    · by_cases hquery : query.length = g.dims
      · exact (h.answers_searchExactOver hquery k allowed).of_ok hok
      · simp [searchExactOver, hquery] at hok
    · exact h.answers_of_searchWith hok

end Hnsw

end Index

end DistrHnsw
