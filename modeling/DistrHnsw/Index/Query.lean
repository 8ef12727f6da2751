import DistrHnsw.Index.Insert

/-!
# Queries

Approximate and filtered search.  Under the graph invariant a query of the right width succeeds,
and every hit is a slot of the graph.
-/

namespace DistrHnsw

namespace Index

/-- How a search computes distances during traversal. -/
inductive SearchMode where
  /-- Exact distances throughout. -/
  | f32
  /-- Eight-bit distances, then exact rescoring of the best candidates. -/
  | int8 (rescore : ℕ)
  deriving DecidableEq, Repr

/-- Rescore `max(4k, 100)` candidates. -/
def SearchMode.int8Default (k : ℕ) : SearchMode := .int8 (max (min (4 * k) (2 ^ 64 - 1)) 100)

/-! ## Hits -/

structure Hit where
  id : ℕ
  distance : F32
  deriving DecidableEq, Repr

/-- Distance ascending, then id ascending; what is not a number comes last. -/
def Hit.cmpRank (a b : Hit) : Ordering :=
  let byDistance :=
    match a.distance.partialCmp b.distance with
    | some order => order
    | none =>
      match a.distance.isNan, b.distance.isNan with
      | true, false => .gt
      | false, true => .lt
      | _, _ => .eq
  byDistance.then (compare a.id b.id)

namespace TopK

/-- Keep the `k` best hits. -/
def push (k : ℕ) (heap : List Hit) (hit : Hit) : List Hit :=
  if k = 0 then heap
  else if heap.length < k then hit :: heap
  else
    match popMax (fun a b => a.cmpRank b == .gt) heap with
    | some (worst, rest) => if hit.cmpRank worst == .lt then hit :: rest else heap
    | none => heap

/-- Hits in rank order. -/
def intoSorted (heap : List Hit) : List Hit := heap.mergeSort fun a b => a.cmpRank b != .gt

theorem mem_push {k : ℕ} {heap : List Hit} {hit h : Hit} (hmem : h ∈ push k heap hit) :
    h = hit ∨ h ∈ heap := by
  unfold push at hmem
  split at hmem
  · exact .inr hmem
  · split at hmem
    · exact List.mem_cons.1 hmem
    · split at hmem
      · rename_i worst rest hpop
        split at hmem
        · exact (List.mem_cons.1 hmem).imp_right fun hrest => (mem_of_popMax hpop).2 (.inr hrest)
        · exact .inr hmem
      · exact .inr hmem

theorem mem_intoSorted {heap : List Hit} {h : Hit} : h ∈ intoSorted heap ↔ h ∈ heap :=
  (List.mergeSort_perm heap _).mem_iff

end TopK

/-- A set of slots, listed in ascending order. -/
structure Bitmap where
  slots : List Slot
  sorted : slots.Pairwise (· < ·)

/-- Approximate distance between a quantized query and the stored row of a slot. -/
def QuantizedVectors.distance (q : QuantizedVectors) (metric : Metric) (query : QuantizedQuery)
    (slot : ℕ) : Checked F32 := do
  let codes ← range q.data (slot * q.dims) q.dims
  let scale ← index q.scales slot
  let normSq ← index q.normsSq slot
  return distanceI8 metric query codes scale normSq

namespace Hnsw

variable (g : Hnsw)

/-! ## Searching -/

/-- The distance that the traversal uses. -/
def traversal (query : List F32) : SearchMode → Slot → Checked F32
  | .f32 => distanceTo g.metric g.vectors query
  | .int8 _ => fun slot => g.quantized.distance g.metric (quantize query) slot.toNat

/-- The best `k` candidates by exact distance. -/
def rank (query : List F32) (k : ℕ) (candidates : List Far) : SearchMode → Checked (List Hit)
  | .f32 => .ok (TopK.intoSorted
      (candidates.foldl (fun heap c => TopK.push k heap ⟨c.slot.toNat, c.distance⟩) []))
  | .int8 rescore => do
    let heap ← ((candidates.mergeSort Far.le).take (max rescore k)).foldlM (fun heap c => do
      let d ← distanceTo g.metric g.vectors query c.slot
      return TopK.push k heap ⟨c.slot.toNat, d⟩) []
    return TopK.intoSorted heap

/-- Approximate top `k` with the traversal mode chosen. -/
def searchWith (query : List F32) (k ef : ℕ) (mode : SearchMode) (allow : Option (Slot → Bool)) :
    Checked (List Hit) :=
  if query.length ≠ g.dims then .error (.assertion "query dimensionality")
  else match g.entry with
    | none => .ok []
    | some entry =>
      if k = 0 then .ok []
      else do
        let entry ← g.descend (g.traversal query mode) entry 0
        let candidates ← searchLayer (g.neighbours · 0) (g.traversal query mode) g.len [entry]
          (max ef k) fun slot => !g.isTombstoned slot && (allow.map (· slot)).getD true
        g.rank query k candidates mode

/-- Exact top `k` over a set of slots. -/
def searchExactOver (query : List F32) (k : ℕ) (allowed : Bitmap) : Checked (List Hit) :=
  if query.length ≠ g.dims then .error (.assertion "query dimensionality")
  else do
    let live := allowed.slots.filter fun slot => decide (slot.toNat < g.len) && !g.isTombstoned slot
    let heap ← live.foldlM (fun heap slot => do
      let d ← distanceTo g.metric g.vectors query slot
      return TopK.push k heap ⟨slot.toNat, d⟩) []
    return TopK.intoSorted heap

/-- Filtered search: exact over a small set, else the traversal with the set as a mask. -/
def searchFiltered (query : List F32) (k ef : ℕ) (mode : SearchMode) (allowed : Bitmap)
    (cutover : ℕ) : Checked (List Hit) :=
  if k = 0 ∨ allowed.slots = [] then .ok []
  else if allowed.slots.length ≤ cutover then g.searchExactOver query k allowed
  else g.searchWith query k ef mode (some fun slot => decide (slot ∈ allowed.slots))

/-! ## Every access of a search is in range -/

/-- The hits are slots of the graph. -/
def HitsIn (hits : List Hit) : Prop := ∀ hit ∈ hits, hit.id < g.len

/-- The value of a computation, where it has one. -/
def valueOf (x : Checked F32) : F32 :=
  match x with
  | .ok d => d
  | .error _ => .zero

theorem returns_valueOf {x : Checked F32} (h : Returns x fun _ => True) :
    Returns x (· = valueOf x) := by
  obtain ⟨d, rfl, -⟩ := h
  exact returns_ok rfl

variable {g} {query : List F32}

theorem Valid.returns_traversal (h : g.Valid) (mode : SearchMode) {slot : Slot}
    (hslot : slot.toNat < g.len) : Returns (g.traversal query mode slot) fun _ => True := by
  cases mode with
  | f32 =>
    have hrow : slot.toNat < g.vectors.len := by rwa [h.vectors]
    exact (returns_distanceTo hrow).mono fun _ _ => trivial
  | int8 rescore =>
    have hq := h.quantized
    have hblock := block_le (w := g.quantized.dims) hslot
    have hcodes : slot.toNat * g.quantized.dims + g.quantized.dims ≤ g.quantized.data.length := by
      rw [hq.data, ← hq.dims]
      exact hblock
    have hscale : slot.toNat < g.quantized.scales.length := by rwa [hq.scales]
    have hnorm : slot.toNat < g.quantized.normsSq.length := by rwa [hq.normsSq]
    simp only [traversal, QuantizedVectors.distance, range_eq_ok.2 (slice_of_le hcodes), ok_bind,
      index_of_lt hscale, index_of_lt hnorm]
    exact returns_ok trivial

theorem hitsIn_intoSorted {heap : List Hit} (h : g.HitsIn heap) :
    g.HitsIn (TopK.intoSorted heap) :=
  fun hit hmem => h hit (TopK.mem_intoSorted.1 hmem)

theorem hitsIn_push {k : ℕ} {heap : List Hit} {hit : Hit} (h : g.HitsIn heap)
    (hhit : hit.id < g.len) : g.HitsIn (TopK.push k heap hit) := by
  intro h' hmem
  rcases TopK.mem_push hmem with rfl | hmem
  · exact hhit
  · exact h h' hmem

/-- Scoring slots of the graph one after the other. -/
theorem Valid.returns_score (h : g.Valid) {α : Type} {slotOf : α → Slot} {k : ℕ} {l : List α}
    (hl : ∀ a ∈ l, (slotOf a).toNat < g.len) :
    Returns (l.foldlM (fun heap a => do
      let d ← distanceTo g.metric g.vectors query (slotOf a)
      return TopK.push k heap ⟨(slotOf a).toNat, d⟩) []) g.HitsIn := by
  refine returns_foldlM (fun a ha heap hheap => ?_) (by simp [HitsIn])
  have hrow : (slotOf a).toNat < g.vectors.len := by
    rw [h.vectors]
    exact hl a ha
  exact (returns_distanceTo hrow).bind fun d _ => returns_ok (hitsIn_push hheap (hl a ha))

theorem Valid.returns_rank (h : g.Valid) {k : ℕ} {candidates : List Far} (mode : SearchMode)
    (hc : ∀ c ∈ candidates, c.slot.toNat < g.len) :
    Returns (g.rank query k candidates mode) g.HitsIn := by
  cases mode with
  | f32 =>
    refine returns_ok (hitsIn_intoSorted ?_)
    have hfold : ∀ heap, g.HitsIn heap → g.HitsIn
        (candidates.foldl (fun heap c => TopK.push k heap ⟨c.slot.toNat, c.distance⟩) heap) := by
      induction candidates with
      | nil => exact fun heap hheap => hheap
      | cons c rest ih =>
        intro heap hheap
        exact ih (fun c hc' => hc c (List.mem_cons_of_mem _ hc')) _
          (hitsIn_push hheap (hc c List.mem_cons_self))
    exact hfold [] (by simp [HitsIn])
  | int8 rescore =>
    refine (h.returns_score fun c hmem => ?_).bind fun heap hheap =>
      returns_ok (hitsIn_intoSorted hheap)
    exact hc c ((List.mergeSort_perm _ _).mem_iff.1 (List.mem_of_mem_take hmem))

theorem Valid.returns_searchWith (h : g.Valid) (hquery : query.length = g.dims) (k ef : ℕ)
    (mode : SearchMode) (allow : Option (Slot → Bool)) :
    Returns (g.searchWith query k ef mode allow) g.HitsIn := by
  have hdist (s : Slot) (hs : s.toNat < g.len) :
      Returns (g.traversal query mode s) (· = valueOf (g.traversal query mode s)) :=
    returns_valueOf (h.returns_traversal mode hs)
  unfold searchWith
  rw [if_neg (not_not.2 hquery)]
  split
  · exact returns_ok (by simp [HitsIn])
  · rename_i entry hentry
    split
    · exact returns_ok (by simp [HitsIn])
    · refine (returns_descend h.toLinked hdist (h.entry entry hentry)).bind fun start hstart => ?_
      have hone : ∀ e ∈ [start], g.On 0 e := by simpa using hstart.1.mono (Nat.zero_le _)
      refine (returns_searchLayer (fun s hs => hs.1)
        (fun s hs => h.toLinked.returns_neighbours hs) (fun s hs => hdist s hs.1) hone).bind
        fun candidates hc => ?_
      exact h.returns_rank mode fun c hmem => (hc.2 c hmem).1.1

theorem Valid.returns_searchFiltered (h : g.Valid) (hquery : query.length = g.dims) (k ef : ℕ)
    (mode : SearchMode) (allowed : Bitmap) (cutover : ℕ) :
    Returns (g.searchFiltered query k ef mode allowed cutover) g.HitsIn := by
  unfold searchFiltered
  split
  · exact returns_ok (by simp [HitsIn])
  · split
    · unfold searchExactOver
      rw [if_neg (not_not.2 hquery)]
      refine (h.returns_score fun s hs => ?_).bind fun heap hheap =>
        returns_ok (hitsIn_intoSorted hheap)
      have := (List.mem_filter.1 hs).2
      simp only [Bool.and_eq_true, decide_eq_true_eq] at this
      exact this.1
    · exact h.returns_searchWith hquery k ef mode _

end Hnsw

end Index

end DistrHnsw
