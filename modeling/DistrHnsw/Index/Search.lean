import Mathlib.Data.Finset.Card
import Mathlib.Order.Interval.Finset.Nat
import DistrHnsw.Index.Vectors
import DistrHnsw.Lib.Heap
import DistrHnsw.Lib.Returns

/-!
# Greedy descent and beam search

The two searches of a graph level, for any monad in which neighbour lists are read: the engine
reads them from its own vectors, a builder thread from lists that other threads change meanwhile.
Both end, whatever the lists are, as long as these stay inside a set of good slots: each greedy
round comes strictly closer to the query, and the beam visits a slot once.
-/

namespace DistrHnsw

namespace Index

/-- Internal slot index. -/
abbrev Slot := UInt32

/-- Why the engine stops: an index outside its buffer, a failed assertion or a loop that does not
end (the process panics or hangs), or a vector it refuses. -/
inductive Fault where
  | bounds
  | assertion (what : String)
  | diverged
  | vector (error : VectorError)
  deriving DecidableEq, Repr

abbrev Checked := Except Fault

/-! ## Candidates -/

/-- A candidate with its distance, ordered by distance, ties by slot. -/
structure Far where
  distance : F32
  slot : Slot
  deriving DecidableEq, Repr

namespace Far

def cmp (a b : Far) : Ordering :=
  ((a.distance.partialCmp b.distance).getD .eq).then (compare a.slot b.slot)

def gt (a b : Far) : Bool := a.cmp b == .gt

def lt (a b : Far) : Bool := a.cmp b == .lt

def le (a b : Far) : Bool := a.cmp b != .gt

/-- The test of the greedy loop. -/
def closer (a b : Far) : Bool :=
  a.distance.lt b.distance || (a.distance.eq b.distance && decide (a.slot < b.slot))

theorem closer_iff (a b : Far) : a.closer b = true ↔
    a.distance.isNan = false ∧ b.distance.isNan = false ∧
      (a.distance.position < b.distance.position ∨
        a.distance.position = b.distance.position ∧ a.slot.toNat < b.slot.toNat) := by
  have hlt : a.slot < b.slot ↔ a.slot.toNat < b.slot.toNat := UInt32.lt_iff_toNat_lt
  by_cases hnan : a.distance.isNan ∨ b.distance.isNan
  · have : a.distance.partialCmp b.distance = none := if_pos hnan
    simp only [closer, F32.lt, F32.eq, this]
    rcases hnan with h | h <;> simp [h]
  · have : a.distance.partialCmp b.distance =
        some (compare a.distance.position b.distance.position) := if_neg hnan
    simp only [not_or, Bool.not_eq_true] at hnan
    simp [closer, F32.lt, F32.eq, this, hnan, hlt, compare_lt_iff_lt]

theorem closer_irrefl (a : Far) : a.closer a = false := by
  rw [Bool.eq_false_iff]
  intro h
  have := ((closer_iff a a).1 h).2.2
  omega

theorem closer_trans {a b c : Far} (hab : a.closer b = true) (hbc : b.closer c = true) :
    a.closer c = true := by
  obtain ⟨ha, -, hab⟩ := (closer_iff a b).1 hab
  obtain ⟨-, hc, hbc⟩ := (closer_iff b c).1 hbc
  exact (closer_iff a c).2 ⟨ha, hc, by omega⟩

end Far

section Search

variable {m : Type → Type} [Monad m] [MonadExceptOf Fault m]

/-- A checked step of a search. -/
def check {α : Type} (x : Checked α) : m α :=
  match x with
  | .ok a => pure a
  | .error fault => throw fault

theorem returns_check [MonadReturns m] {α : Type} {x : Checked α} {Q : α → Prop}
    (h : Returns x Q) : Returns (check x : m α) Q := by
  obtain ⟨a, rfl, hQ⟩ := h
  exact returns_pure hQ

/-! ## Greedy descent -/

section Greedy

variable (neighbours : Slot → m (List Slot)) (dist : Slot → m F32)

/-- Move to a neighbour that is closer. -/
def greedyStep (best : Far × Bool) (neighbour : Slot) : m (Far × Bool) := do
  let d ← dist neighbour
  return if Far.closer ⟨d, neighbour⟩ best.1 then (⟨d, neighbour⟩, true) else best

/-- Rounds over the neighbours of the best slot until none improves it. -/
def greedyLoop : ℕ → Far → m Slot
  | 0, _ => throw .diverged
  | fuel + 1, current => do
    let list ← neighbours current.slot
    let next ← list.foldlM (greedyStep dist) (current, false)
    if next.2 then greedyLoop fuel next.1 else return current.slot

/-- The slot at which the greedy walk over one level ends; `slots` bounds its rounds. -/
def greedyClosest (slots : ℕ) (current : Slot) : m Slot := do
  let best ← dist current
  greedyLoop neighbours dist (slots + 1) ⟨best, current⟩

/-- How many of the first `slots` slots are closer than `current`. -/
def closerCount (f : Slot → F32) (slots : ℕ) (current : Slot) : ℕ :=
  ((Finset.range slots).filter fun s =>
    Far.closer ⟨f (.ofNat s), .ofNat s⟩ ⟨f current, current⟩ = true).card

theorem closerCount_le (f : Slot → F32) (slots : ℕ) (current : Slot) :
    closerCount f slots current ≤ slots := by
  calc closerCount f slots current ≤ (Finset.range slots).card := Finset.card_filter_le _ _
    _ = slots := Finset.card_range slots

theorem closerCount_lt {f : Slot → F32} {slots : ℕ} {next current : Slot}
    (hnext : next.toNat < slots) (h : Far.closer ⟨f next, next⟩ ⟨f current, current⟩ = true) :
    closerCount f slots next < closerCount f slots current := by
  apply Finset.card_lt_card
  rw [Finset.ssubset_iff_of_subset]
  · refine ⟨next.toNat, ?_, ?_⟩
    · rw [Finset.mem_filter, Finset.mem_range, UInt32.ofNat_toNat]
      exact ⟨hnext, h⟩
    · rw [Finset.mem_filter, UInt32.ofNat_toNat, Far.closer_irrefl]
      simp
  · intro s hs
    rw [Finset.mem_filter] at hs ⊢
    exact ⟨hs.1, Far.closer_trans hs.2 h⟩

/-- The loop between two distances: the current slot, whether the round has moved to it, and what is
left of the list that the round goes through. -/
structure Walk where
  current : Slot
  improved : Bool
  rest : List Slot

namespace Walk

/-- The next neighbour, or the next round; `lists` says what may be read for a slot. -/
inductive Step (f : Slot → F32) (lists : Slot → List Slot → Prop) : Walk → Walk → Prop
  | move {current neighbour : Slot} {improved : Bool} {rest : List Slot}
      (closer : Far.closer ⟨f neighbour, neighbour⟩ ⟨f current, current⟩ = true) :
      Step f lists ⟨current, improved, neighbour :: rest⟩ ⟨neighbour, true, rest⟩
  | keep {current neighbour : Slot} {improved : Bool} {rest : List Slot}
      (farther : Far.closer ⟨f neighbour, neighbour⟩ ⟨f current, current⟩ = false) :
      Step f lists ⟨current, improved, neighbour :: rest⟩ ⟨current, improved, rest⟩
  | again {current : Slot} {list : List Slot} (read : lists current list) :
      Step f lists ⟨current, true, []⟩ ⟨current, false, list⟩

/-- From the first list to the end of a round without a move. -/
def Ends (f : Slot → F32) (lists : Slot → List Slot → Prop) (start result : Slot) : Prop :=
  ∃ list, lists start list ∧
    Relation.ReflTransGen (Step f lists) ⟨start, false, list⟩ ⟨result, false, []⟩

variable {f : Slot → F32} {lists : Slot → List Slot → Prop} {w w' : Walk}

/-- A move comes strictly closer. -/
theorem Step.closer (h : Step f lists w w') : w'.current = w.current ∨
    Far.closer ⟨f w'.current, w'.current⟩ ⟨f w.current, w.current⟩ = true := by
  cases h with
  | move closer => exact .inr closer
  | keep farther => exact .inl rfl
  | again read => exact .inl rfl

/-- No loop goes on forever, whatever it reads. -/
theorem wellFounded_step (f : Slot → F32) (lists : Slot → List Slot → Prop) :
    WellFounded fun w' w => Step f lists w w' := by
  -- the slots that are closer, then whether the round has moved, then the rest of the list
  let place (w : Walk) : ℕ × ℕ × ℕ :=
    (closerCount f (2 ^ 32) w.current, w.improved.toNat, w.rest.length)
  refine Subrelation.wf (r := InvImage (Prod.Lex (· < ·) (Prod.Lex (· < ·) (· < ·))) place) ?_
    (InvImage.wf place (WellFounded.prod_lex Nat.lt_wfRel.wf
      (WellFounded.prod_lex Nat.lt_wfRel.wf Nat.lt_wfRel.wf)))
  intro w' w h
  cases h with
  | move closer => exact .left _ _ (closerCount_lt (UInt32.toNat_lt _) closer)
  | keep farther => exact .right _ (.right _ (Nat.lt_succ_self _))
  | again read => exact .right _ (.left _ _ Nat.zero_lt_one)

theorem closer_of_reach (h : Relation.ReflTransGen (Step f lists) w w') : w'.current = w.current ∨
    Far.closer ⟨f w'.current, w'.current⟩ ⟨f w.current, w.current⟩ = true := by
  induction h with
  | refl => exact .inl rfl
  | tail _ step ih =>
    rcases step.closer with heq | hcloser
    · rw [heq]
      exact ih
    · rcases ih with heq | hbefore
      · rw [heq] at hcloser
        exact .inr hcloser
      · exact .inr (Far.closer_trans hcloser hbefore)

/-- A round that has moved is closer than its start. -/
theorem closer_of_improved (h : Relation.ReflTransGen (Step f lists) w w')
    (hstart : w.improved = false) (hmoved : w'.improved = true) :
    Far.closer ⟨f w'.current, w'.current⟩ ⟨f w.current, w.current⟩ = true := by
  induction h with
  | refl => cases hstart.symm.trans hmoved
  | tail reach step ih =>
    cases step with
    | move closer =>
      rcases closer_of_reach reach with heq | hbefore
      · rw [← heq]
        exact closer
      · exact Far.closer_trans closer hbefore
    | keep farther => exact ih hmoved
    | again read => cases hmoved

/-- In a round without a move nothing that was gone through is closer. -/
def Farther (f : Slot → F32) (lists : Slot → List Slot → Prop) (w : Walk) : Prop :=
  w.improved = false → ∃ seen, lists w.current (seen ++ w.rest) ∧
    ∀ n ∈ seen, Far.closer ⟨f n, n⟩ ⟨f w.current, w.current⟩ = false

theorem Step.farther (h : Step f lists w w') (hw : w.Farther f lists) : w'.Farther f lists := by
  cases h with
  | move closer => exact nofun
  | again read => exact fun _ => ⟨[], read, nofun⟩
  | @keep current neighbour improved rest farther =>
    intro himproved
    obtain ⟨seen, hread, hseen⟩ := hw himproved
    refine ⟨seen ++ [neighbour], by rwa [List.append_assoc], fun n hn => ?_⟩
    rcases List.mem_append.1 hn with hn | hn
    · exact hseen n hn
    · cases List.mem_singleton.1 hn
      exact farther

/-- The result is the start or closer, and its last list names nothing closer. -/
theorem Ends.result {start result : Slot} (h : Ends f lists start result) :
    (result = start ∨ Far.closer ⟨f result, result⟩ ⟨f start, start⟩ = true) ∧
      ∃ list, lists result list ∧
        ∀ n ∈ list, Far.closer ⟨f n, n⟩ ⟨f result, result⟩ = false := by
  obtain ⟨first, hfirst, hreach⟩ := h
  refine ⟨closer_of_reach hreach, ?_⟩
  have hlast : ∀ w, Relation.ReflTransGen (Step f lists) ⟨start, false, first⟩ w →
      w.Farther f lists := by
    intro w hw
    induction hw with
    | refl => exact fun _ => ⟨[], hfirst, nofun⟩
    | tail _ step ih => exact step.farther ih
  obtain ⟨seen, hread, hseen⟩ := hlast _ hreach rfl
  rw [List.append_nil] at hread
  exact ⟨seen, hread, hseen⟩

/-- What a round leaves behind its list: it ends at a good slot, the one it started from unless it has
moved. -/
def Rounded (good : Slot → Prop) (f : Slot → F32) (lists : Slot → List Slot → Prop) (w : Walk)
    (next : Far × Bool) : Prop :=
  ∃ slot, next.1 = ⟨f slot, slot⟩ ∧ good slot ∧ (w.improved = true → next.2 = true) ∧
    (next.2 = false → slot = w.current) ∧
    Relation.ReflTransGen (Step f lists) w ⟨slot, next.2, []⟩

end Walk

variable {neighbours dist} [MonadReturns m] {good : Slot → Prop} {f : Slot → F32} {slots : ℕ}
  {lists : Slot → List Slot → Prop}

omit [MonadExceptOf Fault m] in
/-- One round goes through its list. -/
theorem returns_greedyRound (hdist : ∀ s, good s → Returns (dist s) (· = f s)) {list : List Slot}
    (hlist : ∀ n ∈ list, good n) {current : Slot} (hgood : good current) (improved : Bool) :
    Returns (list.foldlM (greedyStep dist) (⟨f current, current⟩, improved))
      (Walk.Rounded good f lists ⟨current, improved, list⟩) := by
  induction list generalizing current improved with
  | nil => exact returns_pure ⟨current, rfl, hgood, id, fun _ => rfl, .refl⟩
  | cons n list ih =>
    have hrest : ∀ n ∈ list, good n := fun n hn => hlist n (List.mem_cons_of_mem _ hn)
    have hn := hlist n List.mem_cons_self
    rw [List.foldlM_cons]
    have hstep : Returns (greedyStep dist (⟨f current, current⟩, improved) n) fun next =>
        next = if Far.closer ⟨f n, n⟩ ⟨f current, current⟩ then (⟨f n, n⟩, true)
          else (⟨f current, current⟩, improved) := by
      unfold greedyStep
      refine (hdist n hn).bind fun d hd => returns_pure ?_
      rw [hd]
    refine hstep.bind fun next hnext => ?_
    subst hnext
    split
    · rename_i hcloser
      refine (ih hrest hn true).mono fun next hnext => ?_
      obtain ⟨slot, heq, hslot, hmoved, -, hreach⟩ := hnext
      refine ⟨slot, heq, hslot, fun _ => hmoved rfl, fun hsame => ?_, .head (.move hcloser) hreach⟩
      cases (hmoved rfl).symm.trans hsame
    · rename_i hfarther
      refine (ih hrest hgood improved).mono fun next hnext => ?_
      obtain ⟨slot, heq, hslot, hmoved, hsame, hreach⟩ := hnext
      exact ⟨slot, heq, hslot, hmoved, hsame, .head (.keep (Bool.eq_false_iff.2 hfarther)) hreach⟩

/-- The walk ends when every list it meets holds good slots only, and it is a run of the loop. -/
theorem returns_greedyClosest_ends (hslots : ∀ s, good s → s.toNat < slots)
    (hneighbours : ∀ s, good s → Returns (neighbours s) fun list =>
      lists s list ∧ ∀ n ∈ list, good n)
    (hdist : ∀ s, good s → Returns (dist s) (· = f s)) {current : Slot} (hgood : good current) :
    Returns (greedyClosest neighbours dist slots current) fun result =>
      good result ∧ Walk.Ends f lists current result := by
  -- the count of closer slots decreases in each round, so the fuel is never used up
  have hloop : ∀ fuel current, good current → closerCount f slots current < fuel →
      Returns (greedyLoop neighbours dist fuel ⟨f current, current⟩) fun result =>
        good result ∧ Walk.Ends f lists current result := by
    intro fuel
    induction fuel with
    | zero =>
      intro current _ hfuel
      omega
    | succ fuel ih =>
      intro current hcurrent hfuel
      unfold greedyLoop
      refine (hneighbours current hcurrent).bind fun list ⟨hread, hlist⟩ => ?_
      have hround : Returns (list.foldlM (greedyStep dist) (⟨f current, current⟩, false))
          (Walk.Rounded good f lists ⟨current, false, list⟩) :=
        returns_greedyRound hdist hlist hcurrent false
      refine hround.bind fun next hnext => ?_
      obtain ⟨best, improved⟩ := next
      obtain ⟨slot, heq, hslot, -, hsame, hreach⟩ := hnext
      dsimp only at heq hsame hreach
      subst heq
      cases improved with
      | false =>
        cases hsame rfl
        exact returns_pure ⟨hcurrent, list, hread, hreach⟩
      | true =>
        have hlt : closerCount f slots slot < closerCount f slots current :=
          closerCount_lt (hslots slot hslot) (Walk.closer_of_improved hreach rfl rfl)
        refine (ih slot hslot (by omega)).mono fun result hresult => ?_
        obtain ⟨hresult, list', hread', hends⟩ := hresult
        exact ⟨hresult, list, hread, hreach.trans (.head (.again hread') hends)⟩
  unfold greedyClosest
  refine (hdist current hgood).bind fun d hd => ?_
  subst hd
  exact hloop _ current hgood (Nat.lt_succ_of_le (closerCount_le f slots current))

/-- The walk ends at a good slot when every list it meets holds good slots only. -/
theorem returns_greedyClosest (hslots : ∀ s, good s → s.toNat < slots)
    (hneighbours : ∀ s, good s → Returns (neighbours s) fun list => ∀ n ∈ list, good n)
    (hdist : ∀ s, good s → Returns (dist s) (· = f s)) {current : Slot} (hgood : good current) :
    Returns (greedyClosest neighbours dist slots current) good := by
  have hreads (s : Slot) (hs : good s) : Returns (neighbours s) fun list =>
      (fun _ _ => True) s list ∧ ∀ n ∈ list, good n := (hneighbours s hs).mono fun _ h => ⟨trivial, h⟩
  exact (returns_greedyClosest_ends hslots hreads hdist hgood).mono fun _ h => h.1

end Greedy

/-! ## Beam search -/

/-- The visited set, a bitset of so many words. -/
structure Visited where
  words : ℕ
  slots : List Slot

namespace Visited

/-- An empty set with room for `slots` slots. -/
def reset (slots : ℕ) : Visited := ⟨(slots + 63) / 64, []⟩

/-- Whether the slot was not yet visited, which it is from now on. -/
def insert (v : Visited) (slot : Slot) : Checked (Bool × Visited) :=
  if slot.toNat / 64 < v.words then
    if slot ∈ v.slots then .ok (false, v) else .ok (true, { v with slots := slot :: v.slots })
  else .error .bounds

end Visited

/-- The heaps of a beam search. -/
structure Beam where
  visited : Visited
  /-- To expand, the nearest first. -/
  candidates : List Far
  /-- Found, the farthest on top. -/
  results : List Far

namespace Beam

/-- Whether `far` is nearer than the worst result. -/
def beatsWorst (b : Beam) (far : Far) : Bool :=
  match peekMax Far.gt b.results with
  | some worst => far.lt worst
  | none => false

/-- Whether no candidate can improve the results any more. -/
def finished (b : Beam) (ef : ℕ) (current : Far) : Bool :=
  decide (b.results.length ≥ ef) &&
    match peekMax Far.gt b.results with
    | some worst => current.gt worst
    | none => false

/-- Drop the worst of more than `ef` results. -/
def trim (ef : ℕ) (results : List Far) : List Far :=
  if results.length > ef then
    match popMax Far.gt results with
    | some (_, rest) => rest
    | none => results
  else results

variable (dist : Slot → m F32) (ef : ℕ) (accepts : Slot → Bool)

/-- Put a slot on both heaps. -/
def push (b : Beam) (far : Far) : Beam :=
  { b with
    candidates := far :: b.candidates
    results := if accepts far.slot then far :: b.results else b.results }

/-- Start from an entry point. -/
def enter (b : Beam) (entry : Slot) : m Beam := do
  let (fresh, visited) ← check (b.visited.insert entry)
  if fresh then do
    let d ← dist entry
    return { b with visited }.push accepts ⟨d, entry⟩
  else return { b with visited }

/-- A visited slot is admitted when the beam has room for it or it beats the worst result. -/
def admitted (b : Beam) (far : Far) : Beam :=
  if b.results.length < ef ∨ b.beatsWorst far then
    let b := b.push accepts far
    { b with results := trim ef b.results }
  else b

/-- Look at a neighbour of the expanded slot. -/
def look (b : Beam) (neighbour : Slot) : m Beam := do
  let (fresh, visited) ← check (b.visited.insert neighbour)
  if fresh then do
    let d ← dist neighbour
    return { b with visited }.admitted ef accepts ⟨d, neighbour⟩
  else return { b with visited }

/-- Expand the nearest candidate until none can improve the results. -/
def expand (neighbours : Slot → m (List Slot)) : ℕ → Beam → m (List Far)
  | 0, _ => throw .diverged
  | fuel + 1, b =>
    match popMax (fun x y => Far.gt y x) b.candidates with
    | none => return b.results
    | some (current, rest) =>
      if b.finished ef current then return b.results
      else do
        let list ← neighbours current.slot
        let b ← list.foldlM (look dist ef accepts) { b with candidates := rest }
        expand neighbours fuel b

end Beam

/-- Beam search on one level for up to `ef` nearest slots that pass `accepts`.  Every visited slot
routes, accepted or not; each of the `slots` slots is expanded at most once. -/
def searchLayer (neighbours : Slot → m (List Slot)) (dist : Slot → m F32) (slots : ℕ)
    (entries : List Slot) (ef : ℕ) (accepts : Slot → Bool) : m (List Far) := do
  let b ← entries.foldlM (Beam.enter dist accepts) ⟨.reset slots, [], []⟩
  Beam.expand dist ef accepts neighbours (slots + 1) b

section BeamProof

variable [MonadReturns m] {good : Slot → Prop} {f : Slot → F32} {slots : ℕ}

/-- The heaps hold good slots, and each expanded slot has been visited once. -/
structure BeamInv (good : Slot → Prop) (slots expanded : ℕ) (b : Beam) : Prop where
  words : b.visited.words = (slots + 63) / 64
  nodup : b.visited.slots.Nodup
  inside : ∀ s ∈ b.visited.slots, s.toNat < slots
  candidates : ∀ c ∈ b.candidates, good c.slot
  results : ∀ r ∈ b.results, good r.slot
  count : b.candidates.length + expanded ≤ b.visited.slots.length

theorem BeamInv.length_le {expanded : ℕ} {b : Beam} (h : BeamInv good slots expanded b) :
    b.visited.slots.length ≤ slots := by
  have hnodup : (b.visited.slots.map UInt32.toNat).Nodup :=
    h.nodup.map fun _ _ => UInt32.toNat_inj.1
  have hsub : b.visited.slots.map UInt32.toNat ⊆ List.range slots := by
    intro s hs
    obtain ⟨slot, hslot, rfl⟩ := List.mem_map.1 hs
    exact List.mem_range.2 (h.inside slot hslot)
  simpa using (hnodup.subperm hsub).length_le

/-- Visiting a slot inside the graph: the set grows by it, or stays. -/
theorem BeamInv.returns_insert {expanded : ℕ} {b : Beam} (h : BeamInv good slots expanded b)
    {slot : Slot} (hslot : slot.toNat < slots) :
    Returns (b.visited.insert slot) fun out =>
      (out.1 = true ∧ out.2.words = b.visited.words ∧ out.2.slots = slot :: b.visited.slots ∧
        slot ∉ b.visited.slots) ∨ out.1 = false ∧ out.2 = b.visited := by
  unfold Visited.insert
  have hword : slot.toNat / 64 < b.visited.words := by
    rw [h.words]
    omega
  rw [if_pos hword]
  split
  · exact returns_ok (.inr ⟨rfl, rfl⟩)
  · exact returns_ok (.inl ⟨rfl, rfl, rfl, ‹_›⟩)

theorem mem_trim {ef : ℕ} {results : List Far} {r : Far} (h : r ∈ Beam.trim ef results) :
    r ∈ results := by
  unfold Beam.trim at h
  split at h
  · split at h
    · rename_i top rest hpop
      exact (mem_of_popMax hpop).2 (.inr h)
    · exact h
  · exact h

/-- Putting a freshly visited good slot on the heaps keeps the invariant. -/
theorem BeamInv.push {expanded : ℕ} {b : Beam} (h : BeamInv good slots expanded b)
    (accepts : Slot → Bool) {far : Far} (hgood : good far.slot) (hslot : far.slot.toNat < slots)
    {visited : Visited} (hwords : visited.words = b.visited.words)
    (hslots : visited.slots = far.slot :: b.visited.slots) (hfresh : far.slot ∉ b.visited.slots) :
    BeamInv good slots expanded ({ b with visited }.push accepts far) where
  words := hwords.trans h.words
  nodup := by
    show visited.slots.Nodup
    rw [hslots]
    exact List.nodup_cons.2 ⟨hfresh, h.nodup⟩
  inside s hs := by
    change s ∈ visited.slots at hs
    rw [hslots] at hs
    rcases List.mem_cons.1 hs with rfl | hs
    · exact hslot
    · exact h.inside s hs
  candidates c hc := by
    rcases List.mem_cons.1 hc with rfl | hc
    · exact hgood
    · exact h.candidates c hc
  results r hr := by
    simp only [Beam.push] at hr
    split at hr
    · rcases List.mem_cons.1 hr with rfl | hr
      · exact hgood
      · exact h.results r hr
    · exact h.results r hr
  count := by
    have := h.count
    simp only [Beam.push, hslots, List.length_cons]
    omega

/-- Visiting a slot without keeping it keeps the invariant. -/
theorem BeamInv.visit {expanded : ℕ} {b : Beam} (h : BeamInv good slots expanded b) {slot : Slot}
    (hslot : slot.toNat < slots) {visited : Visited} (hwords : visited.words = b.visited.words)
    (hslots : visited.slots = slot :: b.visited.slots) (hfresh : slot ∉ b.visited.slots) :
    BeamInv good slots expanded { b with visited } where
  words := hwords.trans h.words
  nodup := by
    show visited.slots.Nodup
    rw [hslots]
    exact List.nodup_cons.2 ⟨hfresh, h.nodup⟩
  inside s hs := by
    change s ∈ visited.slots at hs
    rw [hslots] at hs
    rcases List.mem_cons.1 hs with rfl | hs
    · exact hslot
    · exact h.inside s hs
  candidates := h.candidates
  results := h.results
  count := by
    have := h.count
    show b.candidates.length + expanded ≤ visited.slots.length
    rw [hslots, List.length_cons]
    omega

/-- The results are visited slots that pass the test, each once and with its distance. -/
structure Beamed (good : Slot → Prop) (f : Slot → F32) (accepts : Slot → Bool)
    (slots expanded : ℕ) (b : Beam) : Prop extends BeamInv good slots expanded b where
  once : (b.results.map Far.slot).Nodup
  found : ∀ r ∈ b.results, r.slot ∈ b.visited.slots ∧ accepts r.slot = true ∧
    r.distance = f r.slot

variable {accepts : Slot → Bool}

/-- Dropping the worst result keeps the others once. -/
theorem nodup_trim {ef : ℕ} {results : List Far} (h : (results.map Far.slot).Nodup) :
    ((Beam.trim ef results).map Far.slot).Nodup := by
  unfold Beam.trim
  split
  · split
    · rename_i top rest hpop
      have hperm := (perm_of_popMax hpop).map Far.slot
      exact (List.nodup_cons.1 (hperm.nodup_iff.2 h)).2
    · exact h
  · exact h

theorem Beamed.push {expanded : ℕ} {b : Beam} (h : Beamed good f accepts slots expanded b)
    {slot : Slot} (hgood : good slot) (hslot : slot.toNat < slots) {visited : Visited}
    (hwords : visited.words = b.visited.words) (hslots : visited.slots = slot :: b.visited.slots)
    (hfresh : slot ∉ b.visited.slots) :
    Beamed good f accepts slots expanded ({ b with visited }.push accepts ⟨f slot, slot⟩) where
  toBeamInv := h.toBeamInv.push accepts hgood hslot hwords hslots hfresh
  once := by
    simp only [Beam.push]
    split
    · refine List.nodup_cons.2 ⟨fun hmem => ?_, h.once⟩
      obtain ⟨r, hr, heq⟩ := List.mem_map.1 hmem
      apply hfresh
      rw [← show r.slot = slot from heq]
      exact (h.found r hr).1
    · exact h.once
  found r hr := by
    have hold (r : Far) (hr : r ∈ b.results) :
        r.slot ∈ visited.slots ∧ accepts r.slot = true ∧ r.distance = f r.slot := by
      refine ⟨?_, (h.found r hr).2⟩
      rw [hslots]
      exact List.mem_cons_of_mem _ (h.found r hr).1
    simp only [Beam.push] at hr
    split at hr
    · rename_i haccepts
      rcases List.mem_cons.1 hr with rfl | hr
      · refine ⟨?_, haccepts, rfl⟩
        show slot ∈ visited.slots
        rw [hslots]
        exact List.mem_cons_self
      · exact hold r hr
    · exact hold r hr

theorem Beamed.visit {expanded : ℕ} {b : Beam} (h : Beamed good f accepts slots expanded b)
    {slot : Slot} (hslot : slot.toNat < slots) {visited : Visited}
    (hwords : visited.words = b.visited.words) (hslots : visited.slots = slot :: b.visited.slots)
    (hfresh : slot ∉ b.visited.slots) : Beamed good f accepts slots expanded { b with visited } where
  toBeamInv := h.toBeamInv.visit hslot hwords hslots hfresh
  once := h.once
  found r hr := by
    refine ⟨?_, (h.found r hr).2⟩
    show r.slot ∈ visited.slots
    rw [hslots]
    exact List.mem_cons_of_mem _ (h.found r hr).1

theorem Beamed.trim {ef expanded : ℕ} {b : Beam} (h : Beamed good f accepts slots expanded b) :
    Beamed good f accepts slots expanded { b with results := Beam.trim ef b.results } where
  toBeamInv := { h.toBeamInv with results := fun r hr => h.results r (mem_trim hr) }
  once := nodup_trim h.once
  found r hr := h.found r (mem_trim hr)

variable {neighbours : Slot → m (List Slot)} {dist : Slot → m F32} {ef : ℕ}

theorem returns_enter (hslots : ∀ s, good s → s.toNat < slots)
    (hdist : ∀ s, good s → Returns (dist s) (· = f s)) {expanded : ℕ} {b : Beam}
    (h : Beamed good f accepts slots expanded b) {entry : Slot} (hgood : good entry) :
    Returns (b.enter dist accepts entry) (Beamed good f accepts slots expanded) := by
  unfold Beam.enter
  refine (returns_check (h.returns_insert (hslots entry hgood))).bind ?_
  rintro ⟨fresh, visited⟩ (⟨rfl, hwords, hnew, hfresh⟩ | ⟨rfl, rfl⟩)
  · refine (hdist entry hgood).bind fun d hd => returns_pure ?_
    subst hd
    exact h.push hgood (hslots entry hgood) hwords hnew hfresh
  · exact returns_pure h

theorem returns_look (hslots : ∀ s, good s → s.toNat < slots)
    (hdist : ∀ s, good s → Returns (dist s) (· = f s)) {expanded : ℕ} {b : Beam}
    (h : Beamed good f accepts slots expanded b) {neighbour : Slot} (hgood : good neighbour) :
    Returns (b.look dist ef accepts neighbour) (Beamed good f accepts slots expanded) := by
  unfold Beam.look
  refine (returns_check (h.returns_insert (hslots neighbour hgood))).bind ?_
  rintro ⟨fresh, visited⟩ (⟨rfl, hwords, hnew, hfresh⟩ | ⟨rfl, rfl⟩)
  · refine (hdist neighbour hgood).bind fun d hd => returns_pure ?_
    subst hd
    unfold Beam.admitted
    split
    · exact (h.push hgood (hslots neighbour hgood) hwords hnew hfresh).trim
    · exact h.visit (hslots neighbour hgood) hwords hnew hfresh
  · exact returns_pure h

/-- What a search of a level finds: good slots that pass the test, each once and with its
distance. -/
def Found (good : Slot → Prop) (f : Slot → F32) (accepts : Slot → Bool) (found : List Far) :
    Prop :=
  (found.map Far.slot).Nodup ∧
    ∀ r ∈ found, good r.slot ∧ accepts r.slot = true ∧ r.distance = f r.slot

theorem Beamed.results_found {expanded : ℕ} {b : Beam}
    (h : Beamed good f accepts slots expanded b) : Found good f accepts b.results :=
  ⟨h.once, fun r hr => ⟨h.results r hr, (h.found r hr).2⟩⟩

/-- The search ends with good slots when every list it meets holds good slots only. -/
theorem returns_searchLayer (hslots : ∀ s, good s → s.toNat < slots)
    (hneighbours : ∀ s, good s → Returns (neighbours s) fun list => ∀ n ∈ list, good n)
    (hdist : ∀ s, good s → Returns (dist s) (· = f s)) {entries : List Slot}
    (hentries : ∀ s ∈ entries, good s) :
    Returns (searchLayer neighbours dist slots entries ef accepts) (Found good f accepts) := by
  -- every expanded slot was visited, and at most `slots` slots are
  have hexpand : ∀ fuel expanded b, fuel + expanded = slots + 1 →
      Beamed good f accepts slots expanded b →
      Returns (b.expand dist ef accepts neighbours fuel) (Found good f accepts) := by
    intro fuel
    induction fuel with
    | zero =>
      intro expanded b hfuel h
      have hle := h.length_le
      have hcount := h.count
      omega
    | succ fuel ih =>
      intro expanded b hfuel h
      unfold Beam.expand
      split
      · exact returns_pure h.results_found
      · rename_i current rest hpop
        split
        · exact returns_pure h.results_found
        · have hmem (c : Far) := mem_of_popMax (a := c) hpop
          have hcurrent : good current.slot := h.candidates _ ((hmem current).2 (.inl rfl))
          have hpopped :
              Beamed good f accepts slots (expanded + 1) { b with candidates := rest } :=
            { h with
              candidates := fun c hc => h.candidates c ((hmem c).2 (.inr hc))
              count := by
                have := h.count
                rw [length_of_popMax hpop] at this
                show rest.length + (expanded + 1) ≤ b.visited.slots.length
                omega }
          refine (hneighbours _ hcurrent).bind fun list hlist => ?_
          refine Returns.bind (returns_foldlM (J := Beamed good f accepts slots (expanded + 1))
            (fun n hn b hb => returns_look hslots hdist hb (hlist n hn)) hpopped) fun b hb => ?_
          exact ih (expanded + 1) b (by omega) hb
  have hstart : Beamed good f accepts slots 0 ⟨.reset slots, [], []⟩ :=
    ⟨⟨rfl, List.nodup_nil, by simp [Visited.reset], by simp, by simp, by simp [Visited.reset]⟩,
      List.nodup_nil, by simp⟩
  unfold searchLayer
  refine Returns.bind (returns_foldlM (J := Beamed good f accepts slots 0)
    (fun s hs b hb => returns_enter hslots hdist hb (hentries s hs)) hstart) fun b hb => ?_
  exact hexpand (slots + 1) 0 b rfl hb

end BeamProof

end Search

end Index

end DistrHnsw
