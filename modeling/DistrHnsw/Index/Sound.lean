import Mathlib.Data.Finset.Insert
import Mathlib.Logic.Relation
import DistrHnsw.Index.Levels
import DistrHnsw.Index.Simple
import DistrHnsw.Index.Query

/-!
# The graph over a whole run

The invariant of the graph, which every call keeps: the lists are within their capacity, in range,
on their level and without repeats, the entry point is on the top level, and the number of
tombstones is that of the set bits.
-/

namespace DistrHnsw

namespace Index

/-- The positions of the set bits. -/
def setBits (words : List UInt64) : Finset ℕ :=
  (Finset.range (words.length * 64)).filter fun s => testBit words s = true

theorem mem_setBits {words : List UInt64} {s : ℕ} : s ∈ setBits words ↔ testBit words s = true := by
  rw [setBits, Finset.mem_filter, Finset.mem_range, and_iff_right_iff_imp]
  intro h
  by_contra hlt
  have hnone : words[s / 64]? = none := List.getElem?_eq_none (by omega)
  simp [testBit, hnone] at h

/-- The bits of the words after those of `words` and one more bit. -/
theorem card_setBits {words words' : List UInt64} {slot : ℕ}
    (h : ∀ s, testBit words' s = (testBit words s || decide (s = slot))) :
    (setBits words').card = (setBits words).card + if testBit words slot then 0 else 1 := by
  have hinsert : setBits words' = insert slot (setBits words) := by
    ext s
    rw [mem_setBits, Finset.mem_insert, mem_setBits, h s]
    simp [or_comm]
  rw [hinsert]
  split
  · rename_i hset
    rw [Finset.insert_eq_of_mem (mem_setBits.2 hset), Nat.add_zero]
  · rename_i hclear
    exact Finset.card_insert_of_notMem fun hmem => hclear (mem_setBits.1 hmem)

theorem setBits_congr {words words' : List UInt64} (h : ∀ s, testBit words' s = testBit words s) :
    setBits words' = setBits words := by
  ext s
  rw [mem_setBits, mem_setBits, h s]

namespace Hnsw

/-- The invariant of the graph. -/
structure Sound (g : Hnsw) : Prop extends g.Valid where
  simple : g.Simple
  top (slot : Slot) : slot.toNat < g.len → g.levelAt slot ≤ g.maxLevel.toNat
  count : g.tombstoneCount = (setBits g.tombstones).card

variable {g g' start : Hnsw} {slot : Slot}

/-- The entry point is on the maximum of the levels. -/
theorem Sound.levelAt_entry (h : g.Sound) (hentry : g.entry = some slot) :
    g.levelAt slot = g.maxLevel.toNat :=
  Nat.le_antisymm (h.top slot (h.entry slot hentry).1) (h.entry slot hentry).2

/-! ## One call -/

theorem Sound.returns_insert (h : g.Sound) {vector : List F32} (hdims : vector.length = g.dims)
    (hfinite : ∀ value ∈ vector, value.isFinite = true) (hroom : g.len < 2 ^ 32) :
    Returns (g.insert vector) fun out => out.2.Sound := by
  obtain ⟨vectors, row, happ, heq⟩ := insert_eq h.toShaped hdims hfinite hroom
  have hslot : (UInt32.ofNat g.len).toNat = g.len := UInt32.toNat_ofNat_of_lt' hroom
  dsimp only at heq
  generalize levelFor g.params (.ofNat g.len) = level at heq
  have hgrown : (g.grow vectors row level).Linked :=
    linked_grow h.toLinked hroom happ.len happ.dims happ.width
  have hlinking : (g.grow vectors row level).Linking (.ofNat g.len) (level.toNat + 1) :=
    linking_grow h.toLinked h.simple hgrown hslot _
  have hsimple : Returns (g.insert vector) fun out => out.2.Simple := by
    rw [heq]
    cases hentry : g.entry with
    | none => exact returns_ok hlinking.simple
    | some entry =>
      have hon : g.On g.maxLevel.toNat entry := h.entry entry hentry
      have hne : entry ≠ .ofNat g.len := by
        intro heq
        have := hon.1
        rw [heq, hslot] at this
        omega
      have hlt : (UInt32.ofNat g.len).toNat < (g.grow vectors row level).len := by
        rw [hslot, len_grow]
        exact Nat.lt_succ_self _
      exact (hlinking.returns_link (Nat.lt_succ_self _) hlt (levelAt_grow_new hslot)
        hon.grow hne).bind fun g' hg' => returns_ok hg'
  refine (((h.toValid.returns_insert hdims hfinite hroom).and
    (h.toValid.returns_insert_levels h.top hdims hfinite hroom)).and hsimple).mono fun out hout => ?_
  obtain ⟨⟨hinserted, htop, -⟩, hsimple⟩ := hout
  exact ⟨hinserted.valid, hsimple, htop, by
    rw [hinserted.tombstoneCount, setBits_congr hinserted.tombstones, h.count]⟩

theorem Sound.returns_tombstone (h : g.Sound) (hslot : slot.toNat < g.len) :
    Returns (g.tombstone slot) fun out => out.2.Sound := by
  refine (h.toShaped.returns_tombstone hslot).mono fun out hh => ?_
  refine ⟨(hh.masked h.toValid).valid, ?_, ?_, ?_⟩
  · rw [hh.parts]
    exact h.simple
  · rw [hh.parts]
    exact h.top
  · rw [hh.tombstoneCount, card_setBits hh.tombstones, h.count]

theorem sound_new {dims : ℕ} {metric : Metric} {params : HnswParams} (hm : params.m ≤ 255)
    (hm0 : params.m0 ≤ 255) : (new dims metric params).Sound where
  toValid := valid_new hm hm0
  simple _ _ hon := absurd hon.1 (Nat.not_lt_zero _)
  top _ hlt := absurd hlt (Nat.not_lt_zero _)
  count := rfl

/-! ## Runs -/

/-- The two calls that change a graph. -/
inductive Call where
  | insert (vector : List F32)
  | tombstone (slot : Slot)
  deriving DecidableEq

def call (g : Hnsw) : Call → Checked Hnsw
  | .insert vector => do
    let (_, g) ← g.insert vector
    return g
  | .tombstone slot => do
    let (_, g) ← g.tombstone slot
    return g

/-- A call that comes back; a refused vector leaves the graph as it was. -/
inductive Called (c : Call) : Hnsw → Hnsw → Prop where
  | done {g g' : Hnsw} : g.call c = .ok g' → Called c g g'
  | refused {g : Hnsw} {error : VectorError} : g.call c = .error (.vector error) → Called c g g

/-- Any number of calls. -/
def Run : Hnsw → Hnsw → Prop := Relation.ReflTransGen fun g g' => ∃ c, Called c g g'

/-- Where a run starts. -/
inductive Start (params : HnswParams) : Hnsw → Prop where
  | empty (dims : ℕ) (metric : Metric) : Start params (.new dims metric params)
  | parts {metric : Metric} {vectors : FlatVectors} {quantized : QuantizedVectors}
      {parts : GraphParts} {g : Hnsw} :
      fromParts params metric vectors quantized parts = some g → g.Sound → Start params g

/-- What becomes of a call: it returns, or a vector or a slot outside the graph is refused, or no
slot is left. -/
inductive Answer (g : Hnsw) : Call → Prop where
  | returned {c : Call} {g' : Hnsw} : g.call c = .ok g' → g'.Sound → g.Answer c
  | vector {vector : List F32} {error : VectorError} :
      g.call (.insert vector) = .error (.vector error) → g.Answer (.insert vector)
  | full {vector : List F32} : g.len = 2 ^ 32 →
      g.call (.insert vector) = .error (.assertion "partition slot space exhausted") →
      g.Answer (.insert vector)
  | outside {slot : Slot} : g.len ≤ slot.toNat →
      g.call (.tombstone slot) = .error (.assertion "slot out of range") →
      g.Answer (.tombstone slot)

theorem Sound.answer_insert (h : g.Sound) (vector : List F32) : g.Answer (.insert vector) := by
  by_cases hgood : vector.length = g.dims ∧ ∀ value ∈ vector, value.isFinite = true
  · obtain ⟨hdims, hfinite⟩ := hgood
    rcases Nat.lt_or_ge g.len (2 ^ 32) with hroom | hfull
    · obtain ⟨out, hout, hsound⟩ := h.returns_insert hdims hfinite hroom
      exact .returned (by simp only [call, hout, ok_bind, pure_eq_ok]) hsound
    · apply Answer.full (Nat.le_antisymm h.len_le hfull)
      obtain ⟨vectors, hpush⟩ := g.vectors.exists_push g.metric hdims hfinite
      have hlen : ¬g.vectors.len < 2 ^ 32 := by
        rw [h.vectors]
        exact Nat.not_lt.2 hfull
      simp only [call, insert, hpush, Except.mapError, ok_bind, toSlot, if_neg hlen]
      rfl
  · have hbad : vector.length ≠ g.dims ∨ ∃ value ∈ vector, value.isFinite = false := by
      by_cases hdims : vector.length = g.dims
      · right
        simpa [hdims] using hgood
      · exact .inl hdims
    obtain ⟨error, herror⟩ := insert_refused hbad
    exact .vector (by simp only [call, herror]; rfl)

theorem Sound.answer (h : g.Sound) (c : Call) : g.Answer c := by
  cases c with
  | insert vector => exact h.answer_insert vector
  | tombstone slot =>
    by_cases hslot : slot.toNat < g.len
    · obtain ⟨out, hout, hsound⟩ := h.returns_tombstone hslot
      exact .returned (by simp only [call, hout, ok_bind, pure_eq_ok]) hsound
    · exact .outside (Nat.le_of_not_lt hslot) (by simp [call, tombstone, hslot])

/-- What one call does keeps the invariant. -/
theorem Called.sound {c : Call} (hc : Called c g g') (h : g.Sound) : g'.Sound := by
  cases hc with
  | refused => exact h
  | done hdone =>
    cases h.answer c with
    | returned hreturned hsound =>
      cases hdone.symm.trans hreturned
      exact hsound
    | vector hvector => cases hdone.symm.trans hvector
    | full _ hfull => cases hdone.symm.trans hfull
    | outside _ houtside => cases hdone.symm.trans houtside

theorem Run.sound (hrun : Run start g) (h : start.Sound) : g.Sound := by
  induction hrun with
  | refl => exact h
  | tail _ hcall ih =>
    obtain ⟨c, hc⟩ := hcall
    exact hc.sound ih

theorem Start.sound {params : HnswParams} (hm0 : params.m0 ≤ 255) (hm : params.m ≤ params.m0)
    (hstart : Start params start) : start.Sound := by
  cases hstart with
  | empty dims metric => exact sound_new (hm.trans hm0) hm0
  | parts _ hsound => exact hsound

/-- From an empty graph or from sound parts, the graph keeps its invariant over every run, and no
call or search leaves a buffer. -/
theorem graph_stays_sound {params : HnswParams} (hm : params.m ≤ params.m0) (hm0 : params.m0 ≤ 255)
    (hstart : Start params start) (hrun : Run start g) :
    g.Sound ∧ (∀ slot, g.entry = some slot → g.levelAt slot = g.maxLevel.toNat) ∧
      (∀ c, g.Answer c) ∧ ∀ query k ef mode allow, query.length = g.dims →
        Returns (g.searchWith query k ef mode allow) g.HitsIn := by
  have hsound : g.Sound := hrun.sound (hstart.sound hm0 hm)
  refine ⟨hsound, fun slot hentry => hsound.levelAt_entry hentry, hsound.answer, ?_⟩
  intro query k ef mode allow hquery
  exact hsound.toValid.returns_searchWith hquery k ef mode allow

theorem graph_stays_sound_inserted : ∃ g : Hnsw, g.len = 1 ∧
    Run (.new 1 .l2 ⟨2, 4, 8, 0⟩) g ∧ g.Sound := by
  have hempty : (new 1 .l2 ⟨2, 4, 8, 0⟩).Sound := sound_new (by decide) (by decide)
  obtain ⟨out, hout, hinserted⟩ := hempty.toValid.returns_insert
    (show [F32.one].length = 1 from rfl) (by decide) (by decide)
  have hcall : (new 1 .l2 ⟨2, 4, 8, 0⟩).call (.insert [F32.one]) = .ok out.2 := by
    simp only [call, hout, ok_bind, pure_eq_ok]
  have hrun : Run (new 1 .l2 ⟨2, 4, 8, 0⟩) out.2 := .single ⟨_, .done hcall⟩
  exact ⟨out.2, hinserted.len, hrun,
    (graph_stays_sound (show 2 ≤ 4 by decide) (show 4 ≤ 255 by decide) (.empty 1 .l2) hrun).1⟩

end Hnsw

end Index

end DistrHnsw
