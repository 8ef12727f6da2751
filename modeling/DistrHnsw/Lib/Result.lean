import Mathlib.Tactic.Common

/-!
# Rules for computations that may fail

How a bind in `Except` or `Option` succeeds: every function written with early returns is taken
apart by these rules.
-/

namespace DistrHnsw

variable {ε α β : Type}

@[simp] theorem ok_bind (a : α) (f : α → Except ε β) : (Except.ok a >>= f) = f a := rfl

@[simp] theorem error_bind (e : ε) (f : α → Except ε β) :
    (Except.error e >>= f) = Except.error e := rfl

@[simp] theorem pure_eq_ok (a : α) : (pure a : Except ε α) = .ok a := rfl

theorem bind_eq_ok {x : Except ε α} {f : α → Except ε β} {b : β} :
    (x >>= f) = .ok b ↔ ∃ a, x = .ok a ∧ f a = .ok b := by
  cases x <;> simp

/-- A check followed by a computation. -/
theorem check_bind_eq_ok {x : Except ε Unit} {f : Unit → Except ε β} {b : β} :
    (x >>= f) = .ok b ↔ x = .ok () ∧ f () = .ok b := by
  cases x <;> simp

theorem bind_eq_error {x : Except ε α} {f : α → Except ε β} {e : ε} :
    (x >>= f) = .error e ↔ x = .error e ∨ ∃ a, x = .ok a ∧ f a = .error e := by
  cases x <;> simp

theorem map_eq_ok {x : Except ε α} {f : α → β} {b : β} :
    (f <$> x) = .ok b ↔ ∃ a, x = .ok a ∧ f a = b := by
  cases x <;> simp [Functor.map, Except.map]

theorem toOption_eq_some {x : Except ε α} {a : α} : x.toOption = some a ↔ x = .ok a := by
  cases x <;> simp [Except.toOption]

/-- A guard in front of a computation succeeds when it passes. -/
theorem guard_eq_ok {c : Prop} [Decidable c] {e : ε} {x : Except ε α} {a : α} :
    (if c then .error e else x) = .ok a ↔ ¬ c ∧ x = .ok a := by
  split <;> simp [*]

/-- What every step of a fold keeps, the fold keeps. -/
theorem foldlM_ok_induct {γ : Type} {P : β → Prop} {f : β → γ → Except ε β} {l : List γ} {b b' : β}
    (hstep : ∀ b c b', P b → f b c = .ok b' → P b') (hb : P b) (h : l.foldlM f b = .ok b') :
    P b' := by
  induction l generalizing b with
  | nil =>
    cases h
    exact hb
  | cons c l ih =>
    rw [List.foldlM_cons] at h
    obtain ⟨b₁, h₁, h₂⟩ := bind_eq_ok.1 h
    exact ih (hstep b c b₁ hb h₁) h₂

/-- What every step over an element of the list keeps, the fold keeps. -/
theorem foldlM_ok_mem {γ : Type} {P : β → Prop} {f : β → γ → Except ε β} {l : List γ} {b b' : β}
    (hstep : ∀ c ∈ l, ∀ b b', P b → f b c = .ok b' → P b') (hb : P b) (h : l.foldlM f b = .ok b') :
    P b' := by
  induction l generalizing b with
  | nil =>
    cases h
    exact hb
  | cons c l ih =>
    rw [List.foldlM_cons] at h
    obtain ⟨b₁, h₁, h₂⟩ := bind_eq_ok.1 h
    exact ih (fun c' hc' => hstep c' (List.mem_cons_of_mem c hc'))
      (hstep c List.mem_cons_self b b₁ hb h₁) h₂

/-- A loop of checks succeeds when every check does. -/
theorem forM_ok_mem {f : α → Except ε Unit} {l : List α} (h : l.forM f = .ok ()) :
    ∀ a ∈ l, f a = .ok () := by
  induction l with
  | nil => exact fun _ ha => absurd ha List.not_mem_nil
  | cons a l ih =>
    obtain ⟨ha, hl⟩ := check_bind_eq_ok.1 h
    intro b hb
    rcases List.mem_cons.1 hb with rfl | hb
    · exact ha
    · exact ih hl b hb

theorem forM_eq_ok {f : α → Except ε Unit} {l : List α} :
    l.forM f = .ok () ↔ ∀ a ∈ l, f a = .ok () := by
  refine ⟨forM_ok_mem, fun h => ?_⟩
  induction l with
  | nil => rfl
  | cons a l ih =>
    exact check_bind_eq_ok.2 ⟨h a List.mem_cons_self, ih fun b hb => h b (List.mem_cons_of_mem _ hb)⟩

theorem mapError_eq_ok {ε' : Type} {f : ε → ε'} {x : Except ε α} {a : α} :
    x.mapError f = .ok a ↔ x = .ok a := by
  cases x <;> simp [Except.mapError]

/-- Every element was mapped. -/
theorem mapM_ok_of_mem {f : α → Except ε β} {l : List α} {l' : List β} (h : l.mapM f = .ok l') :
    ∀ a ∈ l, ∃ b ∈ l', f a = .ok b := by
  induction l generalizing l' with
  | nil => exact fun _ ha => absurd ha List.not_mem_nil
  | cons a l ih =>
    rw [List.mapM_cons] at h
    obtain ⟨b, hb, h⟩ := bind_eq_ok.1 h
    obtain ⟨rest, hrest, h⟩ := bind_eq_ok.1 h
    cases h
    intro x hx
    rcases List.mem_cons.1 hx with rfl | hx
    · exact ⟨b, List.mem_cons_self, hb⟩
    · obtain ⟨y, hy, hxy⟩ := ih hrest x hx
      exact ⟨y, List.mem_cons_of_mem b hy, hxy⟩

/-- A result of `mapM` is the result of the function on a member. -/
theorem mapM_ok_mem {f : α → Except ε β} {l : List α} {l' : List β} (h : l.mapM f = .ok l') :
    ∀ b ∈ l', ∃ a ∈ l, f a = .ok b := by
  induction l generalizing l' with
  | nil =>
    rw [List.mapM_nil] at h
    cases h
    simp
  | cons a l ih =>
    rw [List.mapM_cons] at h
    obtain ⟨b, hb, h⟩ := bind_eq_ok.1 h
    obtain ⟨rest, hrest, h⟩ := bind_eq_ok.1 h
    cases h
    intro x hx
    rcases List.mem_cons.1 hx with rfl | hx
    · exact ⟨a, by simp, hb⟩
    · obtain ⟨y, hy, hfy⟩ := ih hrest x hx
      exact ⟨y, List.mem_cons_of_mem _ hy, hfy⟩

end DistrHnsw
