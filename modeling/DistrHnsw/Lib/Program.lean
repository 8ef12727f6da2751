import Mathlib.Algebra.GroupWithZero.Nat
import Mathlib.Algebra.Ring.Int.Defs
import Mathlib.Tactic.Common

/-!
# Programs over a shared store

A program reads the store, performs atomic writes and asks the outside world, whose answers are
arbitrary; it may stop between any two of its steps.  A write that is refused ends the program.
`Runs` is what a program can have done when it stops, `play` one such run, and `Ensures` the rule
to reason about all of them: an invariant kept by every write, and what holds at the end.
-/

namespace DistrHnsw

/-- A store with its atomic writes, and what can be asked of the outside world. -/
structure World where
  Store : Type
  Write : Type
  Error : Type
  Query : Type
  Answer : Query → Type
  perform : Write → Store → Except Error Store

/-- A program with results in `α`. -/
inductive Program (W : World) (α : Type) where
  | done (a : α)
  | fail
  | read (next : W.Store → Program W α)
  | write (w : W.Write) (next : Program W α)
  | ask (q : W.Query) (next : W.Answer q → Program W α)

namespace Program

variable {W : World} {α β γ : Type}

def bind : Program W α → (α → Program W β) → Program W β
  | .done a, f => f a
  | .fail, _ => .fail
  | .read next, f => .read fun s => (next s).bind f
  | .write w next, f => .write w (next.bind f)
  | .ask q next, f => .ask q fun a => (next a).bind f

instance : Monad (Program W) where
  pure := .done
  bind := bind

theorem bind_done (p : Program W α) : p.bind .done = p := by
  induction p with
  | done a => rfl
  | fail => rfl
  | read next ih => exact congrArg Program.read (funext ih)
  | write w next ih => exact congrArg (Program.write w) ih
  | ask q next ih => exact congrArg (Program.ask q) (funext ih)

theorem bind_bind (p : Program W α) (f : α → Program W β) (g : β → Program W γ) :
    (p.bind f).bind g = p.bind fun a => (f a).bind g := by
  induction p with
  | done a => rfl
  | fail => rfl
  | read next ih => exact congrArg Program.read (funext ih)
  | write w next ih => exact congrArg (Program.write w) ih
  | ask q next ih => exact congrArg (Program.ask q) (funext ih)

instance : LawfulMonad (Program W) :=
  LawfulMonad.mk' (Program W) bind_done (fun _ _ => rfl) bind_bind

/-- The whole store. -/
def get : Program W W.Store := .read .done

/-- Perform one write. -/
def perform (w : W.Write) : Program W Unit := .write w (.done ())

/-- Ask one question. -/
def query (q : W.Query) : Program W (W.Answer q) := .ask q .done

/-- Stop with an error. -/
def stop : Program W α := .fail

/-- Go on with the value, or stop with an error. -/
def require : Option α → Program W α
  | some a => .done a
  | none => .fail

/-- A list of values required one after the other. -/
theorem mapM_require {f : β → Option α} (l : List β) :
    (l.mapM fun b => (require (f b) : Program W α)) = require (l.mapM f) := by
  induction l with
  | nil => rfl
  | cons b l ih =>
    rw [List.mapM_cons, List.mapM_cons, ih]
    cases f b with
    | none => rfl
    | some a => cases l.mapM f <;> rfl

/-! ## Runs -/

/-- What a program does to the store it meets, or asks and is told. -/
inductive Event (W : World) where
  | wrote (store : W.Store) (write : W.Write)
  | asked (store : W.Store) (query : W.Query) (answer : W.Answer query)

/-- The events, and the store left, when the program stops somewhere. -/
inductive Runs : Program W α → W.Store → List (Event W) → W.Store → Prop
  | stop (p : Program W α) (s : W.Store) : Runs p s [] s
  | read {next : W.Store → Program W α} {s s' : W.Store} {trace : List (Event W)}
      (rest : Runs (next s) s trace s') : Runs (.read next) s trace s'
  | write {w : W.Write} {next : Program W α} {s s₁ s' : W.Store} {trace : List (Event W)}
      (ok : W.perform w s = .ok s₁) (rest : Runs next s₁ trace s') :
      Runs (.write w next) s (.wrote s w :: trace) s'
  | ask {q : W.Query} {next : W.Answer q → Program W α} {s s' : W.Store} {trace : List (Event W)}
      (a : W.Answer q) (rest : Runs (next a) s trace s') :
      Runs (.ask q next) s (.asked s q a :: trace) s'

/-- The events and the store of at most `n` steps with the given answers. -/
def play (answer : ∀ q, W.Answer q) : ℕ → Program W α → W.Store → List (Event W) × W.Store
  | 0, _, s => ([], s)
  | _ + 1, .done _, s => ([], s)
  | _ + 1, .fail, s => ([], s)
  | n + 1, .read next, s => play answer n (next s) s
  | n + 1, .write w next, s =>
    match W.perform w s with
    | .ok s' => let rest := play answer n next s'; (.wrote s w :: rest.1, rest.2)
    | .error _ => ([], s)
  | n + 1, .ask q next, s =>
    let rest := play answer n (next (answer q)) s
    (.asked s q (answer q) :: rest.1, rest.2)

theorem runs_play (answer : ∀ q, W.Answer q) (n : ℕ) (p : Program W α) (s : W.Store) :
    p.Runs s (play answer n p s).1 (play answer n p s).2 := by
  induction n generalizing p s with
  | zero => exact .stop p s
  | succ n ih =>
    cases p with
    | done a => exact .stop _ s
    | fail => exact .stop _ s
    | read next => exact .read (ih (next s) s)
    | write w next =>
      unfold play
      split
      · next s' hok => exact .write hok (ih next s')
      · exact .stop _ s
    | ask q next => exact .ask (answer q) (ih (next (answer q)) s)

/-- A condition on the writes of a run. -/
def Event.Meets (C : W.Store → W.Write → Prop) : Event W → Prop
  | .wrote s w => C s w
  | .asked _ _ _ => True

instance {C : W.Store → W.Write → Prop} [∀ s w, Decidable (C s w)] (event : Event W) :
    Decidable (event.Meets C) :=
  match event with
  | .wrote s w => inferInstanceAs (Decidable (C s w))
  | .asked _ _ _ => inferInstanceAs (Decidable True)

/-- Every write of a run meets the condition. -/
def EveryWrite (C : W.Store → W.Write → Prop) (trace : List (Event W)) : Prop :=
  ∀ event ∈ trace, event.Meets C

instance {C : W.Store → W.Write → Prop} [∀ s w, Decidable (C s w)] (trace : List (Event W)) :
    Decidable (EveryWrite C trace) :=
  inferInstanceAs (Decidable (∀ event ∈ trace, event.Meets C))

theorem everyWrite_true (trace : List (Event W)) : EveryWrite (fun _ _ => True) trace := by
  intro event _
  cases event <;> trivial

/-! ## The invariant rule -/

section Ensures

variable (Guard : W.Store → W.Write → Prop) (Inv : W.Store → Prop)

/-- Every write that meets `Guard` leaves `Inv`, and `Q` holds at the end. -/
def Ensures : Program W α → (α → W.Store → Prop) → W.Store → Prop
  | .done a, Q, s => Q a s
  | .fail, _, _ => True
  | .read next, Q, s => (next s).Ensures Q s
  | .write w next, Q, s =>
    Guard s w → ∀ s', W.perform w s = .ok s' → Inv s' ∧ next.Ensures Q s'
  | .ask _ next, Q, s => ∀ a, (next a).Ensures Q s

variable {Guard Inv} {p : Program W α} {Q Q' : α → W.Store → Prop} {s : W.Store}

theorem Ensures.mono (h : p.Ensures Guard Inv Q s) (hQ : ∀ a s, Q a s → Q' a s) :
    p.Ensures Guard Inv Q' s := by
  induction p generalizing s with
  | done a => exact hQ a s h
  | fail => trivial
  | read next ih => exact ih s h
  | write w next ih =>
    intro hg s' hok
    exact ⟨(h hg s' hok).1, ih (h hg s' hok).2⟩
  | ask q next ih => exact fun a => ih a (h a)

theorem ensures_bind {f : α → Program W β} {R : β → W.Store → Prop} :
    (p >>= f).Ensures Guard Inv R s ↔
      p.Ensures Guard Inv (fun a s => (f a).Ensures Guard Inv R s) s := by
  induction p generalizing s with
  | done a => exact Iff.rfl
  | fail => exact Iff.rfl
  | read next ih => exact ih s
  | write w next ih =>
    constructor
    · intro h hg s' hok
      exact ⟨(h hg s' hok).1, ih.1 (h hg s' hok).2⟩
    · intro h hg s' hok
      exact ⟨(h hg s' hok).1, ih.2 (h hg s' hok).2⟩
  | ask q next ih => exact ⟨fun h a => (ih a).1 (h a), fun h a => (ih a).2 (h a)⟩

@[simp] theorem ensures_pure {a : α} : (pure a : Program W α).Ensures Guard Inv Q s ↔ Q a s := Iff.rfl

@[simp] theorem ensures_stop : (stop : Program W α).Ensures Guard Inv Q s := trivial

theorem ensures_get {Q : W.Store → W.Store → Prop} : get.Ensures Guard Inv Q s ↔ Q s s := Iff.rfl

theorem ensures_query {q : W.Query} {Q : W.Answer q → W.Store → Prop} :
    (query q).Ensures Guard Inv Q s ↔ ∀ a, Q a s := Iff.rfl

theorem ensures_perform {w : W.Write} {Q : Unit → W.Store → Prop} :
    (perform w).Ensures Guard Inv Q s ↔
      (Guard s w → ∀ s', W.perform w s = .ok s' → Inv s' ∧ Q () s') := Iff.rfl

/-- A loop that keeps an assertion. -/
theorem ensures_forM {J : W.Store → Prop} {f : β → Program W PUnit} {l : List β}
    (hstep : ∀ b ∈ l, ∀ s, J s → (f b).Ensures Guard Inv (fun _ => J) s) (hs : J s) :
    (forM l f).Ensures Guard Inv (fun _ => J) s := by
  induction l generalizing s with
  | nil => exact hs
  | cons b l ih =>
    rw [List.forM_cons, ensures_bind]
    refine (hstep b (by simp) s hs).mono fun _ s hs => ?_
    exact ih (fun b hb => hstep b (List.mem_cons_of_mem _ hb)) hs

theorem ensures_foldlM {J : γ → W.Store → Prop} {f : γ → β → Program W γ} {l : List β} {c : γ}
    (hstep : ∀ b ∈ l, ∀ c s, J c s → (f c b).Ensures Guard Inv J s) (hs : J c s) :
    (l.foldlM f c).Ensures Guard Inv J s := by
  induction l generalizing c s with
  | nil => exact hs
  | cons b l ih =>
    rw [List.foldlM_cons, ensures_bind]
    refine (hstep b (by simp) c s hs).mono fun c s hs => ?_
    exact ih (fun b hb => hstep b (List.mem_cons_of_mem _ hb)) hs

/-- What a program ensures holds wherever it stops. -/
theorem Ensures.runs {trace : List (Event W)} {s' : W.Store} (h : p.Ensures Guard Inv Q s)
    (hs : Inv s) (hrun : p.Runs s trace s') (hguard : EveryWrite Guard trace) : Inv s' := by
  induction hrun with
  | stop p s => exact hs
  | read rest ih => exact ih h hs hguard
  | write ok rest ih =>
    obtain ⟨hinv, hrest⟩ := h (hguard _ List.mem_cons_self) _ ok
    exact ih hrest hinv fun event hmem => hguard event (List.mem_cons_of_mem _ hmem)
  | ask a rest ih => exact ih (h a) hs fun event hmem => hguard event (List.mem_cons_of_mem _ hmem)

end Ensures

/-! ## Programs that perform only some writes -/

/-- Every write the program can perform satisfies `P`, every question it can ask `A`. -/
def Only (P : W.Write → Prop) (A : W.Query → Prop) : Program W α → Prop
  | .done _ => True
  | .fail => True
  | .read next => ∀ s, (next s).Only P A
  | .write w next => P w ∧ next.Only P A
  | .ask q next => A q ∧ ∀ a, (next a).Only P A

section Only

variable {P P' : W.Write → Prop} {A A' : W.Query → Prop} {p : Program W α}

theorem only_bind {f : α → Program W β} (hp : p.Only P A) (hf : ∀ a, (f a).Only P A) :
    (p >>= f).Only P A := by
  induction p with
  | done a => exact hf a
  | fail => trivial
  | read next ih => exact fun s => ih s (hp s)
  | write w next ih => exact ⟨hp.1, ih hp.2⟩
  | ask q next ih => exact ⟨hp.1, fun a => ih a (hp.2 a)⟩

theorem Only.mono (h : p.Only P A) (hP : ∀ w, P w → P' w) (hA : ∀ q, A q → A' q) :
    p.Only P' A' := by
  induction p with
  | done a => trivial
  | fail => trivial
  | read next ih => exact fun s => ih s (h s)
  | write w next ih => exact ⟨hP w h.1, ih h.2⟩
  | ask q next ih => exact ⟨hA q h.1, fun a => ih a (h.2 a)⟩

theorem only_get : (get : Program W W.Store).Only P A := fun _ => trivial

theorem only_query {q : W.Query} (h : A q) : (query q).Only P A := ⟨h, fun _ => trivial⟩

theorem only_perform {w : W.Write} (h : P w) : (perform w).Only P A := ⟨h, trivial⟩

theorem only_pure (a : α) : (pure a : Program W α).Only P A := trivial

theorem only_forM {f : β → Program W PUnit} {l : List β} (h : ∀ b ∈ l, (f b).Only P A) :
    (forM l f).Only P A := by
  induction l with
  | nil => trivial
  | cons b l ih =>
    rw [List.forM_cons]
    exact only_bind (h b (by simp)) fun _ => ih fun b hb => h b (List.mem_cons_of_mem _ hb)

theorem only_foldlM {f : β → γ → Program W β} {l : List γ} {b : β}
    (h : ∀ c ∈ l, ∀ b, (f b c).Only P A) : (l.foldlM f b).Only P A := by
  induction l generalizing b with
  | nil => trivial
  | cons c l ih =>
    rw [List.foldlM_cons]
    exact only_bind (h c (by simp) b) fun b => ih fun c hc => h c (List.mem_cons_of_mem _ hc)

theorem only_mapM {f : β → Program W γ} {l : List β} (h : ∀ b ∈ l, (f b).Only P A) :
    (l.mapM f).Only P A := by
  induction l with
  | nil =>
    rw [List.mapM_nil]
    trivial
  | cons b l ih =>
    rw [List.mapM_cons]
    exact only_bind (h b (by simp)) fun _ =>
      only_bind (ih fun b hb => h b (List.mem_cons_of_mem _ hb)) fun _ => trivial

theorem only_require (o : Option α) : (require o : Program W α).Only P A := by
  cases o <;> trivial

/-- When all its writes leave the invariant and keep an assertion, so does the program. -/
theorem Only.ensures {Guard : W.Store → W.Write → Prop} {Inv J : W.Store → Prop} {s : W.Store}
    (h : p.Only P A) (hs : J s)
    (hkeep : ∀ w, P w → ∀ s s', J s → Guard s w → W.perform w s = .ok s' → Inv s' ∧ J s') :
    p.Ensures Guard Inv (fun _ => J) s := by
  induction p generalizing s with
  | done a => exact hs
  | fail => trivial
  | read next ih => exact ih s (h s) hs
  | write w next ih =>
    intro hg s' hok
    obtain ⟨hinv, hs'⟩ := hkeep w h.1 s s' hs hg hok
    exact ⟨hinv, ih h.2 hs'⟩
  | ask q next ih => exact fun a => ih a (h.2 a) hs

end Only

end Program

end DistrHnsw
