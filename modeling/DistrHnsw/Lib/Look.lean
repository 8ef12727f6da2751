import Mathlib.Tactic.Common

/-!
# Programs that look at a changing store

A program that only looks, one look at a time, at a store others may change between two looks.
`alone` is what it returns when nothing changes, `Among` what it may return when the looks meet the
given stores, and `Yields` the rule to reason about all of them.
-/

namespace DistrHnsw

/-- A program with results in `α` and errors in `ε`. -/
inductive Look (σ ε α : Type) where
  | done (a : α)
  | fail (error : ε)
  | look (next : σ → Look σ ε α)

namespace Look

variable {σ ε α β γ : Type}

def bind : Look σ ε α → (α → Look σ ε β) → Look σ ε β
  | .done a, f => f a
  | .fail error, _ => .fail error
  | .look next, f => .look fun s => (next s).bind f

instance : Monad (Look σ ε) where
  pure := .done
  bind := bind

theorem bind_done (p : Look σ ε α) : p.bind .done = p := by
  induction p with
  | done a => rfl
  | fail error => rfl
  | look next ih => exact congrArg Look.look (funext ih)

theorem bind_bind (p : Look σ ε α) (f : α → Look σ ε β) (g : β → Look σ ε γ) :
    (p.bind f).bind g = p.bind fun a => (f a).bind g := by
  induction p with
  | done a => rfl
  | fail error => rfl
  | look next ih => exact congrArg Look.look (funext ih)

instance : LawfulMonad (Look σ ε) :=
  LawfulMonad.mk' (Look σ ε) bind_done (fun _ _ => rfl) bind_bind

def ofExcept : Except ε α → Look σ ε α
  | .ok a => .done a
  | .error error => .fail error

/-- One look. -/
def see (f : σ → Except ε α) : Look σ ε α := .look fun s => ofExcept (f s)

/-! ## Alone -/

/-- The result when every look meets the same store. -/
def alone : Look σ ε α → σ → Except ε α
  | .done a, _ => .ok a
  | .fail error, _ => .error error
  | .look next, s => (next s).alone s

@[simp] theorem alone_pure (a : α) (s : σ) : (pure a : Look σ ε α).alone s = .ok a := rfl

@[simp] theorem alone_fail (error : ε) (s : σ) : (fail error : Look σ ε α).alone s = .error error := rfl

@[simp] theorem alone_see (f : σ → Except ε α) (s : σ) : (see f).alone s = f s := by
  show (ofExcept (f s)).alone s = f s
  cases f s <;> rfl

@[simp] theorem alone_bind (p : Look σ ε α) (f : α → Look σ ε β) (s : σ) :
    (p >>= f).alone s = p.alone s >>= fun a => (f a).alone s := by
  induction p with
  | done a => rfl
  | fail error => rfl
  | look next ih => exact ih s

theorem alone_bind_of_ok {p : Look σ ε α} {f : α → Look σ ε β} {s : σ} {a : α}
    (h : p.alone s = .ok a) : (p >>= f).alone s = (f a).alone s := by
  rw [alone_bind, h]
  rfl

/-! ## Among changes -/

/-- The result when the looks meet the given stores. -/
inductive Among : Look σ ε α → List σ → Except ε α → Prop
  | done (a : α) : Among (.done a) [] (.ok a)
  | fail (error : ε) : Among (.fail error) [] (.error error)
  | look {next : σ → Look σ ε α} (s : σ) {rest : List σ} {result : Except ε α}
      (later : Among (next s) rest result) : Among (.look next) (s :: rest) result

/-- Whatever the looks meet, as long as each store satisfies `P`, a result satisfies `Q`. -/
def Yields (P : σ → Prop) : Look σ ε α → (α → Prop) → Prop
  | .done a, Q => Q a
  | .fail _, _ => True
  | .look next, Q => ∀ s, P s → (next s).Yields P Q

variable {P : σ → Prop} {p : Look σ ε α} {Q Q' : α → Prop}

theorem Yields.mono (h : p.Yields P Q) (hQ : ∀ a, Q a → Q' a) : p.Yields P Q' := by
  induction p with
  | done a => exact hQ a h
  | fail error => trivial
  | look next ih => exact fun s hs => ih s (h s hs)

theorem Yields.and (h : p.Yields P Q) (h' : p.Yields P Q') : p.Yields P fun a => Q a ∧ Q' a := by
  induction p with
  | done a => exact ⟨h, h'⟩
  | fail error => trivial
  | look next ih => exact fun s hs => ih s (h s hs) (h' s hs)

theorem yields_bind {f : α → Look σ ε β} {R : β → Prop} :
    (p >>= f).Yields P R ↔ p.Yields P fun a => (f a).Yields P R := by
  induction p with
  | done a => exact Iff.rfl
  | fail error => exact Iff.rfl
  | look next ih => exact forall₂_congr fun s _ => ih s

@[simp] theorem yields_pure {a : α} : (pure a : Look σ ε α).Yields P Q ↔ Q a := Iff.rfl

@[simp] theorem yields_fail {error : ε} : (fail error : Look σ ε α).Yields P Q := trivial

theorem yields_see {f : σ → Except ε α} : (see f).Yields P Q ↔ ∀ s, P s → ∀ a, f s = .ok a → Q a := by
  refine forall₂_congr fun s _ => ?_
  show (ofExcept (f s)).Yields P Q ↔ _
  cases f s with
  | ok a => exact ⟨fun h b hb => Except.ok.inj hb ▸ h, fun h => h a rfl⟩
  | error error => exact ⟨fun _ b hb => (nomatch hb), fun _ => trivial⟩

/-- What the looks meet satisfies `P`, so the result satisfies `Q`. -/
theorem Yields.among {seen : List σ} {a : α} (h : p.Yields P Q) (hp : p.Among seen (.ok a))
    (hseen : ∀ s ∈ seen, P s) : Q a := by
  generalize hresult : (Except.ok a : Except ε α) = result at hp
  induction hp with
  | done b =>
    obtain rfl := Except.ok.inj hresult
    exact h
  | fail error => cases hresult
  | look s later ih =>
    exact ih (h s (hseen s List.mem_cons_self)) (fun s' hs' => hseen s' (List.mem_cons_of_mem _ hs'))
      hresult

/-- Where nothing changes, the program returns what it returns alone. -/
theorem among_alone (p : Look σ ε α) (s : σ) :
    ∃ n, p.Among (List.replicate n s) (p.alone s) := by
  induction p with
  | done a => exact ⟨0, .done a⟩
  | fail error => exact ⟨0, .fail error⟩
  | look next ih =>
    obtain ⟨n, h⟩ := ih s
    exact ⟨n + 1, .look s h⟩

end Look

end DistrHnsw
