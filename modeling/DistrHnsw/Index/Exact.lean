import DistrHnsw.Index.RoundTrip
import DistrHnsw.Index.Answers
import DistrHnsw.Lib.Least

/-!
# Exact search

A collector of the `k` best hits keeps the first `k` in rank order, whatever the order in which the
hits come.  The oracle scores every row that it may return; the exact route of a filtered search
scores the allowed slots.
-/

namespace DistrHnsw

namespace Index

/-- Hits by distance, then by slot. -/
def byRank (hits : List Hit) : List Hit := sortBy Hit.rank hits

theorem Hit.cmpRank_eq_lt {a b : Hit} : a.cmpRank b = .lt ↔ a.rank < b.rank := by
  unfold Hit.cmpRank Hit.rank F32.partialCmp
  rw [Prod.Lex.toLex_lt_toLex, Prod.Lex.toLex_lt_toLex]
  cases a.distance.isNan <;> cases b.distance.isNan
  · simp [Ordering.then_eq_lt, compare_lt_iff_lt]
  · simp
  · simp
  · simp [Nat.compare_eq_lt]

/-- Hits with distinct ids have distinct places. -/
theorem eq_of_rank_eq {hits : List Hit} (h : (hits.map Hit.id).Nodup) :
    ∀ a ∈ hits, ∀ b ∈ hits, a.rank = b.rank → a = b := by
  intro a ha b hb hrank
  exact List.inj_on_of_nodup_map h ha hb (Hit.rank_injective hrank)

namespace TopK

variable {k : ℕ} {seen heap : List Hit}

/-- The worst hit that is kept, of a full collector. -/
def threshold (k : ℕ) (heap : List Hit) : Option Hit :=
  if heap.length ≥ k then peekMax (fun a b => a.cmpRank b == .gt) heap else none

theorem exceeds_iff (a b : Hit) : (a.cmpRank b == .gt) = true ↔ b.rank < a.rank := by
  rw [beq_iff_eq, Hit.cmpRank_eq_gt]

/-- A push keeps the `k` least. -/
theorem least_push (h : Least Hit.rank k seen heap) (hit : Hit) :
    Least Hit.rank k (seen ++ [hit]) (push k heap hit) := by
  have hlen := h.length_eq
  unfold push
  split
  · rename_i hk
    have hempty : heap = [] := List.eq_nil_of_length_eq_zero (by omega)
    apply h.skip (by omega)
    simp [hempty]
  · split
    · exact h.insert ‹_›
    · rename_i hk hfull
      split
      · rename_i worst rest hpop
        have hworst := rank_le_of_popMax exceeds_iff hpop
        split
        · rename_i hlt
          rw [beq_iff_eq, Hit.cmpRank_eq_lt] at hlt
          exact h.replace (by omega) (perm_of_popMax hpop) hworst hlt
        · rename_i hge
          rw [beq_iff_eq, Hit.cmpRank_eq_lt, not_lt] at hge
          exact h.skip (by omega) fun a ha => (hworst a ha).trans hge
      · rename_i hpop
        have hempty := popMax_eq_none.1 hpop
        apply h.skip (by omega)
        simp [hempty]

theorem least_foldl (h : Least Hit.rank k seen heap) (hits : List Hit) :
    Least Hit.rank k (seen ++ hits) (hits.foldl (push k) heap) := by
  induction hits generalizing seen heap with
  | nil => simpa using h
  | cons hit hits ih => simpa using ih (least_push h hit)

/-- Sorting the collector sorts by rank. -/
theorem intoSorted_eq (hids : (heap.map Hit.id).Nodup) : intoSorted heap = byRank heap := by
  apply eq_of_pairwise_rank _ _ _ (pairwise_sortBy heap)
  · exact (List.mergeSort_perm heap _).trans (perm_sortBy heap).symm
  · intro a ha b hb
    have hmem (h : Hit) : h ∈ byRank heap ↔ h ∈ heap := (perm_sortBy heap).mem_iff
    exact eq_of_rank_eq hids a ((hmem a).1 ha) b ((hmem b).1 hb)
  · exact (ranked_intoSorted hids).imp le_of_lt

theorem nodup_of_least (h : Least Hit.rank k seen heap) (hids : (seen.map Hit.id).Nodup) :
    (heap.map Hit.id).Nodup := by
  obtain ⟨left, hperm, -, -⟩ := h
  have hall := (hperm.map Hit.id).nodup_iff.2 hids
  rw [List.map_append] at hall
  exact hall.of_append_left

/-- A collector sorts into the first `k` of the hits that it saw. -/
theorem intoSorted_of_least (h : Least Hit.rank k seen heap) (hids : (seen.map Hit.id).Nodup) :
    intoSorted heap = (byRank seen).take k := by
  rw [intoSorted_eq (nodup_of_least h hids)]
  exact h.sortBy_eq (eq_of_rank_eq hids)

/-- The threshold of a full collector is the last of the hits that it keeps. -/
theorem threshold_of_least (h : Least Hit.rank k seen heap) (hids : (seen.map Hit.id).Nodup) :
    threshold k heap = if k ≤ seen.length then ((byRank seen).take k).getLast? else none := by
  have hlen := h.length_eq
  unfold threshold
  by_cases hfull : k ≤ seen.length
  · rw [if_pos (show heap.length ≥ k by omega), if_pos hfull,
      ← intoSorted_of_least h hids, intoSorted_eq (nodup_of_least h hids)]
    unfold peekMax
    cases hpop : popMax (fun a b => a.cmpRank b == .gt) heap with
    | none =>
      rw [popMax_eq_none.1 hpop]
      simp [byRank, sortBy]
    | some popped =>
      obtain ⟨worst, rest⟩ := popped
      have hinj := eq_of_rank_eq (nodup_of_least h hids)
      exact (getLast?_sortBy ((mem_of_popMax hpop).2 (.inl rfl))
        (rank_le_of_popMax exceeds_iff hpop) hinj).symm
  · rw [if_neg (show ¬heap.length ≥ k by omega), if_neg hfull]

end TopK

/-! ## The oracle -/

/-- Exact top `k` over every stored row that the filter accepts. -/
def oracleSearch (vectors : FlatVectors) (metric : Metric) (query : List F32) (k : ℕ)
    (allow : ℕ → Bool) : List Hit :=
  TopK.intoSorted (vectors.rows.zipIdx.foldl (fun top row =>
    if allow row.2 then TopK.push k top ⟨row.2, distance metric query row.1⟩ else top) [])

/-- The hits of the rows that a filter accepts. -/
def rowHits (vectors : FlatVectors) (metric : Metric) (query : List F32) (allow : ℕ → Bool) :
    List Hit :=
  (vectors.rows.zipIdx.filter fun row => allow row.2).map fun row =>
    ⟨row.2, distance metric query row.1⟩

theorem nodup_rowHits {vectors : FlatVectors} {metric : Metric} {query : List F32}
    {allow : ℕ → Bool} : ((rowHits vectors metric query allow).map Hit.id).Nodup := by
  have hrows : (vectors.rows.zipIdx.map Prod.snd).Nodup := by
    rw [List.zipIdx_map_snd]
    exact List.nodup_range'
  unfold rowHits
  rw [List.map_map]
  exact hrows.sublist (List.filter_sublist.map _)

/-- The oracle returns the first `k` of the hits of the rows that the filter accepts. -/
theorem oracleSearch_eq (vectors : FlatVectors) (metric : Metric) (query : List F32) (k : ℕ)
    (allow : ℕ → Bool) : oracleSearch vectors metric query k allow =
      (byRank (rowHits vectors metric query allow)).take k := by
  have hleast := TopK.least_foldl (k := k) least_nil (rowHits vectors metric query allow)
  rw [List.nil_append] at hleast
  rw [← TopK.intoSorted_of_least hleast nodup_rowHits]
  unfold oracleSearch rowHits
  rw [List.foldl_map, List.foldl_filter]

/-! ## The exact route -/

namespace Hnsw

variable {g : Hnsw} {query : List F32} {k : ℕ}

/-- The slots that an exact search over a set scores. -/
def liveIn (g : Hnsw) (allowed : Bitmap) : List Slot :=
  allowed.slots.filter fun slot => decide (slot.toNat < g.len) && !g.isTombstoned slot

theorem nodup_liveIn (allowed : Bitmap) : (g.liveIn allowed).Nodup := by
  apply List.Nodup.filter
  refine allowed.sorted.imp fun {a b} hlt heq => ?_
  rw [heq] at hlt
  exact UInt32.lt_irrefl b hlt

theorem nodup_hitsOf {slots : List Slot} (h : slots.Nodup) :
    ((slots.map (g.hitOf query)).map Hit.id).Nodup := by
  rw [List.map_map]
  exact h.map fun a b hab => UInt32.toNat_inj.1 hab

/-- Scoring slots keeps the least of their hits. -/
theorem Shaped.least_score (h : g.Shaped) {slots : List Slot}
    (hslots : ∀ slot ∈ slots, slot.toNat < g.len) :
    Returns (slots.foldlM (fun heap slot => do
      let d ← distanceTo g.metric g.vectors query slot
      return TopK.push k heap ⟨slot.toNat, d⟩) [])
      (Least Hit.rank k (slots.map (g.hitOf query))) := by
  refine returns_foldlM_done (J := fun done => Least Hit.rank k (done.map (g.hitOf query)))
    (fun done slot rest heq heap hleast => ?_) least_nil
  have hrow : slot.toNat < g.vectors.len := by
    rw [h.vectors]
    exact hslots slot (heq ▸ List.mem_append_right _ List.mem_cons_self)
  refine (returns_distanceTo hrow).bind fun d hd => returns_ok ?_
  rw [hd, List.map_append]
  exact TopK.least_push hleast (g.hitOf query slot)

/-- The exact route returns the first `k` of the hits of the slots that it scores. -/
theorem Shaped.searchExactOver_eq (h : g.Shaped) (hquery : query.length = g.dims) (k : ℕ)
    (allowed : Bitmap) : g.searchExactOver query k allowed =
      .ok ((byRank ((g.liveIn allowed).map (g.hitOf query))).take k) := by
  have hlive : ∀ slot ∈ g.liveIn allowed, slot.toNat < g.len := by
    intro slot hslot
    have hpass := (List.mem_filter.1 hslot).2
    rw [Bool.and_eq_true, decide_eq_true_eq] at hpass
    exact hpass.1
  obtain ⟨heap, hscore, hleast⟩ := returns_iff.1 (@Shaped.least_score _ query k h _ hlive)
  have hsorted := TopK.intoSorted_of_least hleast (nodup_hitsOf (nodup_liveIn allowed))
  unfold searchExactOver
  rw [if_neg (not_not.2 hquery)]
  show (do
    let heap ← (g.liveIn allowed).foldlM (fun heap slot => do
      let d ← distanceTo g.metric g.vectors query slot
      return TopK.push k heap ⟨slot.toNat, d⟩) []
    return TopK.intoSorted heap) = _
  rw [hscore, ← hsorted]
  rfl

/-- Below the cutover a filtered search is the exact route. -/
theorem Shaped.searchFiltered_eq (h : g.Shaped) (hquery : query.length = g.dims) (k ef : ℕ)
    (mode : SearchMode) (allowed : Bitmap) {cutover : ℕ} (hsmall : allowed.slots.length ≤ cutover) :
    g.searchFiltered query k ef mode allowed cutover =
      .ok ((byRank ((g.liveIn allowed).map (g.hitOf query))).take k) := by
  unfold searchFiltered
  by_cases hnone : k = 0 ∨ allowed.slots = []
  · rw [if_pos hnone]
    rcases hnone with rfl | hempty
    · rw [List.take_zero]
    · have hlive : g.liveIn allowed = [] := by simp [liveIn, hempty]
      simp [hlive, byRank, sortBy]
  · rw [if_neg hnone, if_pos hsmall]
    exact h.searchExactOver_eq hquery k allowed

end Hnsw

/-- The exact route answers the first `k` of the allowed slots of the graph that are not masked, by
distance and then by slot; and a collector keeps the first `k` of the hits in whatever order they
come, its threshold being the last of them once it is full. -/
theorem exact_is_top_k :
    (∀ g : Hnsw, g.Shaped → ∀ query : List F32, query.length = g.dims →
      ∀ (k : ℕ) (allowed : Bitmap),
        g.searchExactOver query k allowed =
          .ok ((byRank ((g.liveIn allowed).map (g.hitOf query))).take k) ∧
        ∀ (ef : ℕ) (mode : SearchMode) (cutover : ℕ), allowed.slots.length ≤ cutover →
          g.searchFiltered query k ef mode allowed cutover =
            .ok ((byRank ((g.liveIn allowed).map (g.hitOf query))).take k)) ∧
      ∀ (k : ℕ) (hits pushed : List Hit), (hits.map Hit.id).Nodup → pushed.Perm hits →
        let heap := pushed.foldl (TopK.push k) []
        TopK.intoSorted heap = (byRank hits).take k ∧
          (TopK.intoSorted heap).length = min k hits.length ∧
          TopK.threshold k heap =
            if k ≤ hits.length then ((byRank hits).take k).getLast? else none := by
  refine ⟨fun g h query hquery k allowed => ⟨h.searchExactOver_eq hquery k allowed,
    fun ef mode cutover hsmall => h.searchFiltered_eq hquery k ef mode allowed hsmall⟩,
    fun k hits pushed hids hperm => ?_⟩
  have hids' : (pushed.map Hit.id).Nodup := (hperm.map Hit.id).nodup_iff.2 hids
  have hsame : byRank pushed = byRank hits := sortBy_eq_of_perm hperm (eq_of_rank_eq hids)
  have hleast := TopK.least_foldl (k := k) least_nil pushed
  rw [List.nil_append] at hleast
  have hsorted := TopK.intoSorted_of_least hleast hids'
  refine ⟨hsame ▸ hsorted, ?_, ?_⟩
  · rw [hsorted, List.length_take, byRank, (perm_sortBy pushed).length_eq, hperm.length_eq]
  · rw [TopK.threshold_of_least hleast hids', hsame, hperm.length_eq]

/-- The nearer of two slots. -/
theorem exact_is_top_k_pair : (byRank (((pair 0).index.liveIn ⟨[0, 1], by decide⟩).map
    ((pair 0).index.hitOf [F32.one]))).take 1 = [⟨0, F32.zero⟩] := by
  have hexact := exact_is_top_k.1 (pair 0).index (shaped_pair 0) [F32.one] rfl 1 ⟨[0, 1], by decide⟩
  have hanswer : (pair 0).index.searchExactOver [F32.one] 1 ⟨[0, 1], by decide⟩ =
      .ok [⟨0, F32.zero⟩] := by decide +kernel
  exact Except.ok.inj (hexact.1.symm.trans hanswer)

end Index

end DistrHnsw
