import Mathlib.Data.List.Forall2
import DistrHnsw.Lib.Result

/-!
# Total correctness in a monad

`Returns x Q` says that the computation `x` ends without a failure and with a result in `Q`.  A
monad supports it by the rules for `pure`, `bind` and consequence; loops follow from these, so a
specification is proved once for every monad a piece of code runs in.
-/

namespace DistrHnsw

/-- A monad with a notion of ending well. -/
class MonadReturns (m : Type → Type) [Monad m] where
  holds {α : Type} : m α → (α → Prop) → Prop
  holds_pure {α : Type} {a : α} {Q : α → Prop} : Q a → holds (pure a) Q
  holds_bind {α β : Type} {x : m α} {f : α → m β} {Q : β → Prop} :
    holds x (fun a => holds (f a) Q) → holds (x >>= f) Q
  holds_mono {α : Type} {x : m α} {Q R : α → Prop} : holds x Q → (∀ a, Q a → R a) → holds x R

variable {m : Type → Type} [Monad m] [MonadReturns m] {α β γ : Type}

/-- The computation ends well, with a result in `Q`. -/
def Returns (x : m α) (Q : α → Prop) : Prop := MonadReturns.holds x Q

theorem returns_pure {a : α} {Q : α → Prop} (h : Q a) : Returns (pure a : m α) Q :=
  MonadReturns.holds_pure h

theorem Returns.mono {x : m α} {Q R : α → Prop} (h : Returns x Q) (hQ : ∀ a, Q a → R a) :
    Returns x R := MonadReturns.holds_mono h hQ

/-- The rule for a sequence: every result of the first part starts a second part that ends well. -/
theorem Returns.bind {x : m α} {f : α → m β} {Q : α → Prop} {R : β → Prop} (hx : Returns x Q)
    (hf : ∀ a, Q a → Returns (f a) R) : Returns (x >>= f) R :=
  MonadReturns.holds_bind (hx.mono hf)

/-- A loop that keeps an assertion on its state. -/
theorem returns_foldlM {J : β → Prop} {f : β → γ → m β} {l : List γ} {b : β}
    (hstep : ∀ c ∈ l, ∀ b, J b → Returns (f b c) J) (hb : J b) : Returns (l.foldlM f b) J := by
  induction l generalizing b with
  | nil => exact returns_pure hb
  | cons c l ih =>
    rw [List.foldlM_cons]
    refine (hstep c List.mem_cons_self b hb).bind fun b' hb' => ?_
    exact ih (fun c hc => hstep c (List.mem_cons_of_mem _ hc)) hb'

/-- A loop of which every round ends well. -/
theorem returns_forM {f : γ → m PUnit} {l : List γ} (h : ∀ c ∈ l, Returns (f c) fun _ => True) :
    Returns (forM l f) fun _ => True := by
  induction l with
  | nil => exact returns_pure trivial
  | cons c l ih =>
    rw [List.forM_cons]
    refine (h c List.mem_cons_self).bind fun _ _ => ?_
    exact ih fun c hc => h c (List.mem_cons_of_mem _ hc)

/-- A loop whose assertion speaks of the members that were done. -/
theorem returns_foldlM_done {J : List γ → β → Prop} {f : β → γ → m β} {l : List γ} {b : β}
    (hstep : ∀ done c rest, l = done ++ c :: rest → ∀ b, J done b →
      Returns (f b c) (J (done ++ [c]))) (hb : J [] b) : Returns (l.foldlM f b) (J l) := by
  have hloop : ∀ rest done b, l = done ++ rest → J done b → Returns (rest.foldlM f b) (J l) := by
    intro rest
    induction rest with
    | nil =>
      intro done b hl hdone
      rw [List.append_nil] at hl
      subst hl
      exact returns_pure hdone
    | cons c rest ih =>
      intro done b hl hdone
      rw [List.foldlM_cons]
      refine (hstep done c rest hl b hdone).bind fun b' hb' => ?_
      exact ih (done ++ [c]) b' (by rw [hl, List.append_assoc, List.singleton_append]) hb'
  exact hloop l [] b rfl hb

/-! ## Computations that may fail -/

instance {ε : Type} : MonadReturns (Except ε) where
  holds x Q := ∃ a, x = .ok a ∧ Q a
  holds_pure h := ⟨_, rfl, h⟩
  holds_bind := by
    rintro α β x f Q ⟨a, rfl, h⟩
    exact h
  holds_mono := by
    rintro α x Q R ⟨a, rfl, h⟩ hR
    exact ⟨a, rfl, hR a h⟩

section Except

variable {ε : Type} {x : Except ε α} {Q : α → Prop}

theorem returns_iff : Returns x Q ↔ ∃ a, x = .ok a ∧ Q a := Iff.rfl

theorem returns_ok {a : α} (h : Q a) : Returns (.ok a : Except ε α) Q := ⟨a, rfl, h⟩

theorem Returns.of_ok {a : α} (h : Returns x Q) (hx : x = .ok a) : Q a := by
  obtain ⟨b, hb, hQ⟩ := h
  cases hx.symm.trans hb
  exact hQ

/-- Two specifications of one result. -/
theorem Returns.and {R : α → Prop} (hQ : Returns x Q) (hR : Returns x R) :
    Returns x fun a => Q a ∧ R a := by
  obtain ⟨a, rfl, ha⟩ := hQ
  exact returns_ok ⟨ha, hR.of_ok rfl⟩

/-- A search for a member stops with an answer when every test does. -/
theorem returns_anyM {f : α → Except ε Bool} {l : List α}
    (h : ∀ a ∈ l, Returns (f a) fun _ => True) : Returns (l.anyM f) fun _ => True := by
  induction l with
  | nil => exact returns_ok trivial
  | cons a l ih =>
    rw [List.anyM]
    refine (h a List.mem_cons_self).bind fun found _ => ?_
    cases found with
    | true => exact returns_ok trivial
    | false => exact ih fun b hb => h b (List.mem_cons_of_mem _ hb)

/-- What is kept of a list satisfies what each answer does. -/
theorem returns_filterMapM {f : α → Except ε (Option β)} {l : List α} {P : β → Prop}
    (h : ∀ a ∈ l, Returns (f a) fun o => ∀ b ∈ o, P b) :
    Returns (l.filterMapM f) fun bs => ∀ b ∈ bs, P b := by
  induction l with
  | nil => exact returns_ok (by simp)
  | cons a l ih =>
    rw [List.filterMapM_cons]
    refine (h a List.mem_cons_self).bind fun o ho => ?_
    have hrest := ih fun a' ha' => h a' (List.mem_cons_of_mem _ ha')
    cases o with
    | none => exact hrest
    | some b =>
      refine hrest.bind fun bs hbs => returns_ok fun b' hb' => ?_
      rcases List.mem_cons.1 hb' with rfl | hb'
      · exact ho b' rfl
      · exact hbs b' hb'


/-- A map succeeds when it does on every member; its results are those of the members in order. -/
theorem returns_mapM {f : α → Except ε β} {l : List α} {R : α → β → Prop}
    (h : ∀ a ∈ l, Returns (f a) (R a)) : Returns (l.mapM f) (List.Forall₂ R l) := by
  induction l with
  | nil => exact returns_ok .nil
  | cons a l ih =>
    rw [List.mapM_cons]
    refine (h a List.mem_cons_self).bind fun b hb => ?_
    refine (ih fun c hc => h c (List.mem_cons_of_mem _ hc)).bind fun l' hl' => ?_
    exact returns_ok (.cons hb hl')

/-- A map succeeds with the results of the members in order. -/
theorem mapM_eq_ok {f : α → Except ε β} {l : List α} {l' : List β} :
    l.mapM f = .ok l' ↔ List.Forall₂ (fun a b => f a = .ok b) l l' := by
  induction l generalizing l' with
  | nil =>
    rw [List.mapM_nil]
    constructor
    · intro h
      cases h
      exact .nil
    · intro h
      cases h
      rfl
  | cons a l ih =>
    rw [List.mapM_cons]
    constructor
    · intro h
      obtain ⟨b, hb, h⟩ := bind_eq_ok.1 h
      obtain ⟨rest, hrest, h⟩ := bind_eq_ok.1 h
      cases h
      exact .cons hb (ih.1 hrest)
    · intro h
      cases h with
      | cons hb hrest => rw [hb, ok_bind, ih.2 hrest, ok_bind, pure_eq_ok]

/-- The list of the results at all positions. -/
theorem mapM_range_eq_ok {f : ℕ → Except ε α} {l : List α}
    (h : ∀ i (hi : i < l.length), f i = .ok l[i]) : (List.range l.length).mapM f = .ok l := by
  apply mapM_eq_ok.2
  apply List.forall₂_iff_get.2
  refine ⟨List.length_range, fun i h₁ h₂ => ?_⟩
  simpa using h i h₂

end Except

end DistrHnsw
