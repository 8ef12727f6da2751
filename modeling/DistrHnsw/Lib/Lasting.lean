import DistrHnsw.Lib.Returns
import DistrHnsw.Lib.Together

/-!
# Programs among others over an invariant

`Lasting` says that a program ends well whatever it reads, as long as every store it meets satisfies an
invariant and all programs make only the writes that are allowed.  Allowed writes succeed and keep the
invariant, so programs that are lasting stay so together, in every interleaving.
-/

namespace DistrHnsw

namespace Program

variable {W : World} {α β : Type}

/-- The invariant of the store, and the writes that keep it. -/
structure Custom (W : World) where
  Inv : W.Store → Prop
  Allowed : W.Write → Prop
  keeps {s : W.Store} {w : W.Write} : Inv s → Allowed w → ∃ s', W.perform w s = .ok s' ∧ Inv s'

/-- The program makes allowed writes only and ends with a result in `Q`. -/
def Lasting (C : Custom W) : Program W α → (α → Prop) → Prop
  | .done a, Q => Q a
  | .fail, _ => False
  | .read next, Q => ∀ s, C.Inv s → (next s).Lasting C Q
  | .write w next, Q => C.Allowed w ∧ next.Lasting C Q
  | .ask _ next, Q => ∀ a, (next a).Lasting C Q

variable {C : Custom W} {p p' : Program W α} {Q R : α → Prop}

theorem Lasting.mono (h : p.Lasting C Q) (hR : ∀ a, Q a → R a) : p.Lasting C R := by
  induction p with
  | done a => exact hR a h
  | fail => exact h
  | read next ih => exact fun s hs => ih s (h s hs)
  | write w next ih => exact ⟨h.1, ih h.2⟩
  | ask q next ih => exact fun a => ih a (h a)

theorem Lasting.bind {f : α → Program W β} {R : β → Prop}
    (h : p.Lasting C fun a => (f a).Lasting C R) : (p >>= f).Lasting C R := by
  induction p with
  | done a => exact h
  | fail => exact h
  | read next ih => exact fun s hs => ih s (h s hs)
  | write w next ih => exact ⟨h.1, ih h.2⟩
  | ask q next ih => exact fun a => ih a (h a)

/-- Ending well among others. -/
@[reducible] def Custom.returns (C : Custom W) : MonadReturns (Program W) where
  holds := Lasting C
  holds_pure h := h
  holds_bind := Lasting.bind
  holds_mono := Lasting.mono

theorem lasting_get {Q : W.Store → Prop} (h : ∀ s, C.Inv s → Q s) :
    (get : Program W W.Store).Lasting C Q := h

theorem lasting_perform {w : W.Write} {Q : Unit → Prop} (h : C.Allowed w) (hQ : Q ()) :
    (perform w).Lasting C Q := ⟨h, hQ⟩

/-- One step of a lasting program keeps the invariant. -/
theorem Lasting.step {O : Outside W} {x y : Scene O} (h : p.Lasting C Q) (hx : C.Inv x.store)
    (hstep : Step p x p' y) : C.Inv y.store ∧ p'.Lasting C Q := by
  cases hstep with
  | read next => exact ⟨hx, h _ hx⟩
  | @write w next _ s ok =>
    obtain ⟨s', hs', hinv⟩ := C.keeps hx h.1
    obtain rfl : s = s' := Except.ok.inj (ok.symm.trans hs')
    exact ⟨hinv, h.2⟩
  | @refused w next _ error no =>
    obtain ⟨s', hs', -⟩ := C.keeps hx h.1
    rw [no] at hs'
    cases hs'
  | ask a answers => exact ⟨hx, h a⟩

section Pool

variable {O : Outside W} {ι : Type} [DecidableEq ι] {ρ : ι → Type} {ps ps' : ∀ i, Program W (ρ i)}
  {x y : Scene O} {Q : ∀ i, ρ i → Prop}

/-- Lasting programs keep the invariant together. -/
theorem Lasting.together (h : ∀ i, (ps i).Lasting C (Q i)) (hrun : Together ps x ps' y)
    (hx : C.Inv x.store) : C.Inv y.store ∧ ∀ i, (ps' i).Lasting C (Q i) := by
  induction hrun with
  | stop => exact ⟨hx, h⟩
  | step before i last ih =>
    obtain ⟨hinv, hps⟩ := ih hx
    obtain ⟨hinv', hp⟩ := (hps i).step hinv last
    refine ⟨hinv', fun j => ?_⟩
    by_cases hij : j = i
    · subst hij
      rw [Function.update_self]
      exact hp
    · rw [Function.update_of_ne hij]
      exact hps j

/-- What allowed writes keep under a condition, a run keeps whose writes meet it. -/
theorem Lasting.together_keeps (h : ∀ i, (ps i).Lasting C (Q i)) (hrun : Together ps x ps' y)
    (hx : C.Inv x.store) {P : W.Store → Prop} {Meets : W.Store → W.Write → Prop}
    (hkeep : ∀ s w s', C.Inv s → C.Allowed w → Meets s w → W.perform w s = .ok s' → P s → P s')
    (hP : P x.store) (hmeets : EveryWrite Meets y.past) : P y.store := by
  induction hrun with
  | stop => exact hP
  | step before i last ih =>
    rename_i ps₁ _ x₁ x₂ p
    obtain ⟨hinv, hps⟩ := Lasting.together h before hx
    obtain ⟨later, hpast⟩ := last.past
    have hbefore := ih hx hP fun event hevent =>
      hmeets event (hpast ▸ List.mem_append_left later hevent)
    have hlasting := hps i
    generalize ps₁ i = p₁ at last hlasting
    cases last with
    | read next => exact hbefore
    | refused no => exact hbefore
    | ask a answers => exact hbefore
    | write ok =>
      have hmeet : (Event.wrote x₁.store _ : Event W).Meets Meets :=
        hmeets _ (List.mem_append_right _ List.mem_cons_self)
      exact hkeep _ _ _ hinv hlasting.1 hmeet ok hbefore

end Pool

end Program

end DistrHnsw
