import DistrHnsw.Index.Exact

/-!
# The order of candidates

Heaps and sorts compare candidates by distance, then by slot; distances that cannot be compared count as
equal.  That is a total order, and the order of the hits, exactly as long as either every distance is a
number or none is.
-/

namespace DistrHnsw

namespace Index

/-! ## Total orders -/

/-- The elements with `P` are totally ordered by a comparison, up to what it finds equal. -/
structure TotalOn {α : Type} (cmp : α → α → Ordering) (P : α → Prop) : Prop where
  refl (a : α) : P a → cmp a a = .eq
  swap (a b : α) : P a → P b → cmp b a = (cmp a b).swap
  trans (a b c : α) : P a → P b → P c → cmp a b ≠ .gt → cmp b c ≠ .gt → cmp a c ≠ .gt

/-- A comparison of places in a linear order. -/
theorem totalOn_of_rank {α β : Type} [LinearOrder β] {cmp : α → α → Ordering} {P : α → Prop}
    (rank : α → β) (hlt : ∀ a b, P a → P b → (cmp a b = .lt ↔ rank a < rank b))
    (hgt : ∀ a b, P a → P b → (cmp a b = .gt ↔ rank b < rank a)) : TotalOn cmp P := by
  have hle (a b : α) (ha : P a) (hb : P b) : cmp a b ≠ .gt ↔ rank a ≤ rank b := by
    rw [ne_eq, hgt a b ha hb, not_lt]
  refine ⟨fun a ha => ?_, fun a b ha hb => ?_, fun a b c ha hb hc hab hbc => ?_⟩
  · cases h : cmp a a with
    | eq => rfl
    | lt => exact absurd ((hlt a a ha ha).1 h) (lt_irrefl _)
    | gt => exact absurd ((hgt a a ha ha).1 h) (lt_irrefl _)
  · cases h : cmp a b with
    | lt => exact (hgt b a hb ha).2 ((hlt a b ha hb).1 h)
    | gt => exact (hlt b a hb ha).2 ((hgt a b ha hb).1 h)
    | eq =>
      have hba : rank b ≤ rank a := by
        rw [← not_lt, ← hlt a b ha hb, h]
        decide
      have hab : rank a ≤ rank b := by
        rw [← not_lt, ← hgt a b ha hb, h]
        decide
      cases h' : cmp b a with
      | eq => rfl
      | lt => exact absurd ((hlt b a hb ha).1 h') hab.not_gt
      | gt => exact absurd ((hgt b a hb ha).1 h') hba.not_gt
  · rw [hle a c ha hc]
    exact ((hle a b ha hb).1 hab).trans ((hle b c hb hc).1 hbc)

/-! ## Candidates -/

/-- Same as `Far`, but the best on top. -/
structure Near where
  distance : F32
  slot : Slot

def Near.cmp (a b : Near) : Ordering := Far.cmp ⟨b.distance, b.slot⟩ ⟨a.distance, a.slot⟩

def Far.hit (a : Far) : Hit := ⟨a.slot.toNat, a.distance⟩

def Near.hit (a : Near) : Hit := ⟨a.slot.toNat, a.distance⟩

/-- Over these distances candidates are totally ordered, in the order of the hits, and a sort of
candidates of distinct slots has one result. -/
structure Coherent (S : Set F32) : Prop where
  far : TotalOn Far.cmp fun a => a.distance ∈ S
  near : TotalOn Near.cmp fun a => a.distance ∈ S
  farRank (a b : Far) : a.distance ∈ S → b.distance ∈ S → a.cmp b = a.hit.cmpRank b.hit
  nearRank (a b : Near) : a.distance ∈ S → b.distance ∈ S → a.cmp b = b.hit.cmpRank a.hit
  sorts (xs ys : List Far) : (∀ a ∈ xs, a.distance ∈ S) → (xs.map Far.slot).Nodup → xs.Perm ys →
    xs.Pairwise (fun a b => a.cmp b ≠ .gt) → ys.Pairwise (fun a b => a.cmp b ≠ .gt) → xs = ys

theorem compare_slot (a b : Slot) : compare a b = compare a.toNat b.toNat := by
  simp only [compare, compareOfLessAndEq, UInt32.lt_iff_toNat_lt, UInt32.toNat_inj]

/-- Distances that are alike compare as those of hits do. -/
theorem Far.cmp_of_isNan {a b : Far} (h : a.distance.isNan = b.distance.isNan) :
    a.cmp b = a.hit.cmpRank b.hit := by
  unfold Far.cmp Hit.cmpRank Far.hit F32.partialCmp
  rw [compare_slot]
  cases hb : b.distance.isNan <;> rw [hb] at h <;> simp [h]

theorem Far.eq_slot_of_cmp {a b : Far} (h : a.cmp b = .eq) : a.slot = b.slot := by
  unfold Far.cmp at h
  have hslot := (Ordering.then_eq_eq.1 h).2
  rw [compare_slot] at hslot
  exact UInt32.toNat_inj.1 (compare_eq_iff_eq.1 hslot)

/-- Candidates that are ordered as the hits are totally ordered. -/
theorem coherent_of_rank {S : Set F32}
    (h : ∀ a b : Far, a.distance ∈ S → b.distance ∈ S → a.cmp b = a.hit.cmpRank b.hit) :
    Coherent S := by
  have hfar : TotalOn Far.cmp fun a => a.distance ∈ S :=
    totalOn_of_rank (fun a => a.hit.rank) (fun a b ha hb => by rw [h a b ha hb, Hit.cmpRank_eq_lt])
      (fun a b ha hb => by rw [h a b ha hb, Hit.cmpRank_eq_gt])
  refine ⟨hfar, ?_, h, fun a b ha hb => h ⟨b.distance, b.slot⟩ ⟨a.distance, a.slot⟩ hb ha, ?_⟩
  · exact ⟨fun a ha => hfar.refl ⟨a.distance, a.slot⟩ ha,
      fun a b ha hb => hfar.swap ⟨b.distance, b.slot⟩ ⟨a.distance, a.slot⟩ hb ha,
      fun a b c ha hb hc hab hbc =>
        hfar.trans ⟨c.distance, c.slot⟩ ⟨b.distance, b.slot⟩ ⟨a.distance, a.slot⟩ hc hb ha hbc hab⟩
  · intro xs ys hmem hnodup hperm hxs hys
    refine hperm.eq_of_pairwise (fun a b ha hb hab hba => ?_) hxs hys
    have hb' : b ∈ xs := hperm.mem_iff.2 hb
    have heq : a.cmp b = .eq := by
      rw [hfar.swap a b (hmem a ha) (hmem b hb')] at hba
      revert hab hba
      cases a.cmp b <;> simp
    exact List.inj_on_of_nodup_map hnodup ha hb' (Far.eq_slot_of_cmp heq)

/-- The order is total, and that of the hits, exactly when all distances are numbers or none is. -/
theorem coherent_iff (S : Set F32) : Coherent S ↔
    (∀ d ∈ S, d.isNan = false) ∨ ∀ d ∈ S, d.isNan = true := by
  constructor
  · intro h
    by_contra hmixed
    obtain ⟨hnan, hnumber⟩ := not_or.1 hmixed
    simp only [not_forall, Bool.not_eq_false, Bool.not_eq_true] at hnan hnumber
    obtain ⟨d, hd, hdnan⟩ := hnan
    obtain ⟨e, he, henumber⟩ := hnumber
    -- by slot the first comes first, as a hit it comes last
    have hagree := h.farRank ⟨d, 0⟩ ⟨e, 1⟩ hd he
    have hnone : d.partialCmp e = none := if_pos (.inl hdnan)
    simp [Far.cmp, Far.hit, Hit.cmpRank, hnone, hdnan, henumber] at hagree
    revert hagree
    decide
  · rintro (h | h)
    · exact coherent_of_rank fun a b ha hb => Far.cmp_of_isNan ((h _ ha).trans (h _ hb).symm)
    · exact coherent_of_rank fun a b ha hb => Far.cmp_of_isNan ((h _ ha).trans (h _ hb).symm)

/-! ## Distances of finite vectors -/

/-- A kernel can produce the value from finite vectors. -/
def Produced (d : F32) : Prop := ∃ metric a b, a.length = b.length ∧
  (∀ x ∈ a, x.isFinite = true) ∧ (∀ x ∈ b, x.isFinite = true) ∧ distance metric a b = d

/-- The largest finite value. -/
def largest : F32 := ⟨0x7F7FFFFF⟩

/-- A finite query, and three finite rows of which the second has a distance that is not a number. -/
def cycleQuery : List F32 := [largest, largest]

def cycleRows : List (List F32) := [[.zero, .zero], [largest, -largest], [.one, .zero]]

/-- The candidate of a row. -/
def cycleFar (row : ℕ) (slot : Slot) : Far := ⟨distance .dot cycleQuery (cycleRows.getD row []), slot⟩

/-- Each of the candidates comes before the next one, and the last before the first. -/
theorem cycleFar_cmp : (cycleFar 0 1).cmp (cycleFar 1 2) = .lt ∧
    (cycleFar 1 2).cmp (cycleFar 2 3) = .lt ∧ (cycleFar 2 3).cmp (cycleFar 0 1) = .lt := by
  decide +kernel

theorem candidates_cycle : ¬ ∀ S : Set F32, (∀ d ∈ S, Produced d) → Coherent S := by
  intro hall
  have hquery : ∀ x ∈ cycleQuery, x.isFinite = true := by decide
  have hrows : ∀ row ∈ cycleRows, row.length = 2 ∧ ∀ x ∈ row, x.isFinite = true := by decide
  obtain ⟨hfar, -, -, -, -⟩ := hall {d | ∃ row ∈ cycleRows, distance .dot cycleQuery row = d} (by
    rintro d ⟨row, hrow, rfl⟩
    exact ⟨.dot, cycleQuery, row, (hrows row hrow).1.symm, hquery, (hrows row hrow).2, rfl⟩)
  obtain ⟨h01, h12, h20⟩ := cycleFar_cmp
  have hmem : ∀ i slot, i < 3 →
      ∃ row ∈ cycleRows, distance .dot cycleQuery row = (cycleFar i slot).distance := by
    intro i slot hi
    have hrow : ∀ i < 3, cycleRows.getD i [] ∈ cycleRows := by decide
    exact ⟨cycleRows.getD i [], hrow i hi, rfl⟩
  have h02 := hfar.trans _ _ _ (hmem 0 1 (by decide)) (hmem 1 2 (by decide)) (hmem 2 3 (by decide))
    (by rw [h01]; decide) (by rw [h12]; decide)
  refine h02 ?_
  rw [hfar.swap _ _ (hmem 2 3 (by decide)) (hmem 0 1 (by decide)), h20]
  rfl

end Index

end DistrHnsw
