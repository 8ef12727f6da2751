import DistrHnsw.Lib.Program
import Mathlib.Logic.Function.Basic

/-!
# Programs side by side

Processes run programs over one store and one outside world, one atomic step at a time.  `Together`
are the interleavings of any number of them, `Steps` those of a single one.  `Safe` is the rule to
reason about a program among others: what it relies on between its steps, what each of its steps
guarantees, and what holds when it is done.
-/

namespace DistrHnsw

/-- How the outside world may answer, and what becomes of it. -/
structure Outside (W : World) where
  State : Type
  answers : State → (q : W.Query) → W.Answer q → State → Prop

/-- An outside world that keeps no state and may answer anything. -/
def Outside.any (W : World) : Outside W := ⟨Unit, fun _ _ _ _ => True⟩

/-- The store, the outside world and everything that happened so far. -/
structure Scene {W : World} (O : Outside W) where
  store : W.Store
  outside : O.State
  past : List (Program.Event W)

namespace Scene

variable {W : World} {O : Outside W}

/-- After a write. -/
def wrote (x : Scene O) (w : W.Write) (s : W.Store) : Scene O :=
  ⟨s, x.outside, x.past ++ [.wrote x.store w]⟩

/-- After an answer. -/
def asked (x : Scene O) (q : W.Query) (a : W.Answer q) (e : O.State) : Scene O :=
  ⟨x.store, e, x.past ++ [.asked x.store q a]⟩

@[simp] theorem wrote_store (x : Scene O) (w : W.Write) (s : W.Store) : (x.wrote w s).store = s := rfl

@[simp] theorem wrote_outside (x : Scene O) (w : W.Write) (s : W.Store) :
    (x.wrote w s).outside = x.outside := rfl

@[simp] theorem wrote_past (x : Scene O) (w : W.Write) (s : W.Store) :
    (x.wrote w s).past = x.past ++ [.wrote x.store w] := rfl

@[simp] theorem asked_store (x : Scene O) (q : W.Query) (a : W.Answer q) (e : O.State) :
    (x.asked q a e).store = x.store := rfl

@[simp] theorem asked_outside (x : Scene O) (q : W.Query) (a : W.Answer q) (e : O.State) :
    (x.asked q a e).outside = e := rfl

@[simp] theorem asked_past (x : Scene O) (q : W.Query) (a : W.Answer q) (e : O.State) :
    (x.asked q a e).past = x.past ++ [.asked x.store q a] := rfl

end Scene

namespace Program

variable {W : World} {O : Outside W} {α β γ : Type}

/-! ## Steps -/

/-- One step of a program; a refused write ends it. -/
inductive Step : Program W α → Scene O → Program W α → Scene O → Prop
  | read (next : W.Store → Program W α) (x : Scene O) : Step (.read next) x (next x.store) x
  | write {w : W.Write} {next : Program W α} {x : Scene O} {s : W.Store}
      (ok : W.perform w x.store = .ok s) : Step (.write w next) x next (x.wrote w s)
  | refused {w : W.Write} {next : Program W α} {x : Scene O} {error : W.Error}
      (no : W.perform w x.store = .error error) : Step (.write w next) x .fail x
  | ask {q : W.Query} {next : W.Answer q → Program W α} {x : Scene O} {e : O.State} (a : W.Answer q)
      (answers : O.answers x.outside q a e) : Step (.ask q next) x (next a) (x.asked q a e)

/-- Any number of steps of one program. -/
inductive Steps : Program W α → Scene O → Program W α → Scene O → Prop
  | stop (p : Program W α) (x : Scene O) : Steps p x p x
  | step {p p₁ p' : Program W α} {x x₁ x' : Scene O} (first : Step p x p₁ x₁)
      (rest : Steps p₁ x₁ p' x') : Steps p x p' x'

/-- Any interleaving of the steps of several programs. -/
inductive Together {ι : Type} [DecidableEq ι] {ρ : ι → Type} :
    (∀ i, Program W (ρ i)) → Scene O → (∀ i, Program W (ρ i)) → Scene O → Prop
  | stop (ps : ∀ i, Program W (ρ i)) (x : Scene O) : Together ps x ps x
  | step {ps ps₁ : ∀ i, Program W (ρ i)} {x x₁ x₂ : Scene O} (before : Together ps x ps₁ x₁) (i : ι)
      {p : Program W (ρ i)} (last : Step (ps₁ i) x₁ p x₂) : Together ps x (Function.update ps₁ i p) x₂

theorem Steps.trans {p p₁ p₂ : Program W α} {x x₁ x₂ : Scene O} (h : Steps p x p₁ x₁)
    (h' : Steps p₁ x₁ p₂ x₂) : Steps p x p₂ x₂ := by
  induction h with
  | stop p x => exact h'
  | step first rest ih => exact .step first (ih h')

/-- What a finished program returned. -/
def result : Program W α → Option α
  | .done a => some a
  | _ => none

theorem eq_done {p : Program W α} {a : α} (h : p.result = some a) : p = .done a := by
  cases p with
  | done b => exact congrArg Program.done (Option.some.inj h)
  | _ => cases h

/-- The program has nothing left to do. -/
def Ended : Program W α → Prop
  | .done _ => True
  | .fail => True
  | _ => False

/-- One way in which the outside world may answer. -/
def Responder (O : Outside W) := O.State → (q : W.Query) → W.Answer q × O.State

/-- The outside world may answer so. -/
def Responder.Faithful (r : Responder O) : Prop :=
  ∀ e q, O.answers e q (r e q).1 (r e q).2

/-- The same answers all the time. -/
def saying (answer : ∀ q, W.Answer q) : Responder (.any W) := fun _ q => (answer q, ())

theorem faithful_saying (answer : ∀ q, W.Answer q) : (saying answer).Faithful := fun _ _ => trivial

/-- With some answer to every question, a program runs to its end. -/
theorem exists_steps_ended {r : Responder O} (hr : r.Faithful) (p : Program W α) (x : Scene O) :
    ∃ p' y, Steps p x p' y ∧ p'.Ended := by
  induction p generalizing x with
  | done a => exact ⟨_, x, .stop _ x, trivial⟩
  | fail => exact ⟨_, x, .stop _ x, trivial⟩
  | read next ih =>
    obtain ⟨p', y, hsteps, hended⟩ := ih x.store x
    exact ⟨p', y, .step (.read next x) hsteps, hended⟩
  | write w next ih =>
    cases hperform : W.perform w x.store with
    | ok s =>
      obtain ⟨p', y, hsteps, hended⟩ := ih (x.wrote w s)
      exact ⟨p', y, .step (.write hperform) hsteps, hended⟩
    | error error => exact ⟨_, x, .step (.refused hperform) (.stop _ x), trivial⟩
  | ask q next ih =>
    obtain ⟨p', y, hsteps, hended⟩ := ih _ (x.asked q (r x.outside q).1 (r x.outside q).2)
    exact ⟨p', y, .step (.ask _ (hr x.outside q)) hsteps, hended⟩

/-- At most `n` steps with the answers of one responder. -/
def advance (r : Responder O) : ℕ → Program W α → Scene O → Program W α × Scene O
  | 0, p, x => (p, x)
  | _ + 1, .done a, x => (.done a, x)
  | _ + 1, .fail, x => (.fail, x)
  | n + 1, .read next, x => advance r n (next x.store) x
  | n + 1, .write w next, x =>
    match W.perform w x.store with
    | .ok s => advance r n next (x.wrote w s)
    | .error _ => (.fail, x)
  | n + 1, .ask q next, x =>
    let reply := r x.outside q
    advance r n (next reply.1) (x.asked q reply.1 reply.2)

theorem steps_advance {r : Responder O} (hr : r.Faithful) (n : ℕ) (p : Program W α) (x : Scene O) :
    Steps p x (advance r n p x).1 (advance r n p x).2 := by
  induction n generalizing p x with
  | zero => exact .stop p x
  | succ n ih =>
    cases p with
    | done a => exact .stop _ x
    | fail => exact .stop _ x
    | read next => exact .step (.read next x) (ih _ _)
    | write w next =>
      unfold advance
      split
      · next s hok => exact .step (.write hok) (ih _ _)
      · next error hno => exact .step (.refused hno) (.stop _ _)
    | ask q next => exact .step (.ask _ (hr x.outside q)) (ih _ _)

section Schedules

variable {ι : Type} [DecidableEq ι] {ρ : ι → Type}

/-- Steps of one of the programs are steps of all of them together. -/
theorem Together.steps {ps ps₁ : ∀ i, Program W (ρ i)} {x x₁ x₂ : Scene O} {i : ι}
    {p : Program W (ρ i)} (h : Together ps x ps₁ x₁) (hsteps : Steps (ps₁ i) x₁ p x₂) :
    Together ps x (Function.update ps₁ i p) x₂ := by
  generalize hp₁ : ps₁ i = p₁ at hsteps
  induction hsteps generalizing ps₁ with
  | stop p₁ x₁ =>
    rw [← hp₁, Function.update_eq_self]
    exact h
  | step first rest ih =>
    subst hp₁
    have hrest := ih (h.step i first) (Function.update_self ..)
    rwa [Function.update_idem] at hrest

/-- Some steps of one program after the other, as scheduled. -/
def advanceAll : List (ι × ℕ × Responder O) → (∀ i, Program W (ρ i)) × Scene O →
    (∀ i, Program W (ρ i)) × Scene O
  | [], all => all
  | (i, n, r) :: rest, (ps, x) =>
    let next := advance r n (ps i) x
    advanceAll rest (Function.update ps i next.1, next.2)

/-- A schedule leaves the programs alone that it does not name. -/
theorem advanceAll_other {schedule : List (ι × ℕ × Responder O)} {i : ι}
    (h : ∀ entry ∈ schedule, entry.1 ≠ i) (all : (∀ i, Program W (ρ i)) × Scene O) :
    (advanceAll schedule all).1 i = all.1 i := by
  induction schedule generalizing all with
  | nil => rfl
  | cons entry rest ih =>
    have hother := ih (fun entry hentry => h entry (List.mem_cons_of_mem _ hentry))
    refine (hother _).trans ?_
    exact Function.update_of_ne (h entry List.mem_cons_self).symm _ _

theorem together_advanceAll {schedule : List (ι × ℕ × Responder O)}
    (hr : ∀ entry ∈ schedule, entry.2.2.Faithful) {ps ps₁ : ∀ i, Program W (ρ i)} {x x₁ : Scene O}
    (h : Together ps x ps₁ x₁) :
    Together ps x (advanceAll schedule (ps₁, x₁)).1 (advanceAll schedule (ps₁, x₁)).2 := by
  induction schedule generalizing ps₁ x₁ with
  | nil => exact h
  | cons entry rest ih =>
    obtain ⟨i, n, r⟩ := entry
    have hfirst := steps_advance (hr _ List.mem_cons_self) n (ps₁ i) x₁
    exact ih (fun entry hentry => hr entry (List.mem_cons_of_mem _ hentry)) (h.steps hfirst)

end Schedules

/-- The past only grows. -/
theorem Step.past {p p' : Program W α} {x x' : Scene O} (h : Step p x p' x') :
    ∃ later, x'.past = x.past ++ later := by
  cases h with
  | read next => exact ⟨[], by simp⟩
  | write ok => exact ⟨_, rfl⟩
  | refused no => exact ⟨[], by simp⟩
  | ask a answers => exact ⟨_, rfl⟩

theorem Steps.past {p p' : Program W α} {x x' : Scene O} (h : Steps p x p' x') :
    ∃ later, x'.past = x.past ++ later := by
  induction h with
  | stop p x => exact ⟨[], by simp⟩
  | step first rest ih =>
    obtain ⟨events, hfirst⟩ := first.past
    obtain ⟨later, hrest⟩ := ih
    exact ⟨events ++ later, by rw [hrest, hfirst, List.append_assoc]⟩

/-- What every write keeps, every run keeps. -/
theorem Steps.keeps {I : W.Store → Prop} {p p' : Program W α} {x x' : Scene O}
    (h : Steps p x p' x') (hwrite : ∀ w s s', I s → W.perform w s = .ok s' → I s')
    (hx : I x.store) : I x'.store := by
  induction h with
  | stop p x => exact hx
  | step first rest ih =>
    refine ih ?_
    cases first with
    | read next => exact hx
    | refused no => exact hx
    | write ok => exact hwrite _ _ _ hx ok
    | ask a answers => exact hx

/-- What every step with an admissible event keeps, a run of such steps keeps. -/
theorem Steps.keeps_events {J : Scene O → Prop} {C : Event W → Prop} {p p' : Program W α}
    {x x' : Scene O} (h : Steps p x p' x') (hevents : ∀ event ∈ x'.past, C event)
    (hwrote : ∀ x w s, C (.wrote x.store w) → W.perform w x.store = .ok s → J x → J (x.wrote w s))
    (hasked : ∀ x q a e, C (.asked x.store q a) → O.answers x.outside q a e → J x →
      J (x.asked q a e)) (hx : J x) : J x' := by
  induction h with
  | stop p x => exact hx
  | step first rest ih =>
    refine ih hevents ?_
    obtain ⟨later, hpast⟩ := rest.past
    cases first with
    | read next => exact hx
    | refused no => exact hx
    | write ok => exact hwrote _ _ _ (hevents _ (by rw [hpast]; simp)) ok hx
    | ask a answers => exact hasked _ _ _ _ (hevents _ (by rw [hpast]; simp)) answers hx

/-- A run of two programs in sequence is one of the first, or goes on after it. -/
theorem Steps.bind {p : Program W α} {f : α → Program W β} {r : Program W β} {x y : Scene O}
    (h : Steps (p >>= f) x r y) :
    (∃ p', Steps p x p' y ∧ r = p' >>= f) ∨
      ∃ a z, Steps p x (.done a) z ∧ Steps (f a) z r y := by
  generalize hq : p >>= f = q at h
  induction h generalizing p with
  | stop q x => exact .inl ⟨p, .stop p x, hq.symm⟩
  | @step q q₁ q' x x₁ x' first rest ih =>
    have hmore {p₁ : Program W α} (hstep : Step p x p₁ x₁) (heq : p₁ >>= f = q₁) :
        (∃ p', Steps p x p' x' ∧ q' = p' >>= f) ∨
          ∃ a z, Steps p x (.done a) z ∧ Steps (f a) z q' x' := by
      rcases ih heq with ⟨p', hp', hr⟩ | ⟨a, z, hdone, hrest⟩
      · exact .inl ⟨p', .step hstep hp', hr⟩
      · exact .inr ⟨a, z, .step hstep hdone, hrest⟩
    subst hq
    cases p with
    | done a => exact .inr ⟨a, x, .stop _ x, .step first rest⟩
    | fail => cases first
    | read next =>
      cases first with
      | read => exact hmore (.read next x) rfl
    | write w next =>
      cases first with
      | write ok => exact hmore (.write ok) rfl
      | refused no => exact hmore (.refused no) rfl
    | ask q next =>
      cases first with
      | ask a answers => exact hmore (.ask a answers) rfl

/-! ## Runs to the end -/

theorem Steps.ended {p p' : Program W α} {x y : Scene O} (h : Steps p x p' y) (hp : p.Ended) :
    p' = p ∧ y = x := by
  cases h with
  | stop => exact ⟨rfl, rfl⟩
  | step first rest => cases first <;> exact hp.elim

theorem Steps.queried {q : W.Query} {f : W.Answer q → Program W α} {p : Program W α} {x y : Scene O}
    (h : Steps (query q >>= f) x p y) (hp : p.Ended) :
    ∃ a e, O.answers x.outside q a e ∧ Steps (f a) (x.asked q a e) p y := by
  generalize hq : query q >>= f = r at h
  cases h with
  | stop =>
    subst hq
    exact hp.elim
  | step first rest =>
    subst hq
    cases first with
    | ask a answers => exact ⟨a, _, answers, rest⟩

/-- A program that ended performed its next write, or the write was refused and nothing followed. -/
theorem Steps.performed {w : W.Write} {f : Unit → Program W α} {p : Program W α} {x y : Scene O}
    (h : Steps (perform w >>= f) x p y) (hp : p.Ended) :
    (∃ s, W.perform w x.store = .ok s ∧ Steps (f ()) (x.wrote w s) p y) ∨
      (∃ error, W.perform w x.store = .error error) ∧ y = x := by
  generalize hq : perform w >>= f = r at h
  cases h with
  | stop =>
    subst hq
    exact hp.elim
  | step first rest =>
    subst hq
    cases first with
    | write ok => exact .inl ⟨_, ok, rest⟩
    | refused no => exact .inr ⟨⟨_, no⟩, (rest.ended trivial).2⟩

/-- What a step does. -/
def Event.Of (P : W.Write → Prop) (A : W.Query → Prop) : Event W → Prop
  | .wrote _ w => P w
  | .asked _ q _ => A q

/-- The events of a program that performs only some writes and asks only some questions. -/
theorem Only.steps {P : W.Write → Prop} {A : W.Query → Prop} {p p' : Program W α} {x x' : Scene O}
    (h : p.Only P A) (hsteps : Steps p x p' x') :
    ∃ later, x'.past = x.past ++ later ∧ ∀ event ∈ later, event.Of P A := by
  induction hsteps with
  | stop p x => exact ⟨[], by simp⟩
  | step first rest ih =>
    cases first with
    | read next => exact ih (h _)
    | refused no => exact ih trivial
    | write ok =>
      obtain ⟨later, hpast, hlater⟩ := ih h.2
      refine ⟨_ :: later, by rw [hpast, Scene.wrote_past, List.append_assoc]; rfl, ?_⟩
      intro event hevent
      rcases List.mem_cons.1 hevent with rfl | hevent
      · exact h.1
      · exact hlater event hevent
    | ask a answers =>
      obtain ⟨later, hpast, hlater⟩ := ih (h.2 a)
      refine ⟨_ :: later, by rw [hpast, Scene.asked_past, List.append_assoc]; rfl, ?_⟩
      intro event hevent
      rcases List.mem_cons.1 hevent with rfl | hevent
      · exact h.1
      · exact hlater event hevent

/-- A program without writes leaves the store alone. -/
theorem Only.steps_store {A : W.Query → Prop} {p p' : Program W α} {x x' : Scene O}
    (h : p.Only (fun _ => False) A) (hsteps : Steps p x p' x') : x'.store = x.store := by
  induction hsteps with
  | stop p x => rfl
  | step first rest ih =>
    cases first with
    | read next => exact ih (h _)
    | refused no => exact ih trivial
    | write ok => exact h.1.elim
    | ask a answers => exact ih (h.2 a)

/-- Of the writes `C`, each is the last thing the program does, and says what it returns. -/
def Closing (C : W.Write → Prop) (M : W.Write → α → Prop) : Program W α → Prop
  | .done _ => True
  | .fail => True
  | .read next => ∀ s, (next s).Closing C M
  | .write w next => (C w → ∃ a, next = .done a ∧ M w a) ∧ next.Closing C M
  | .ask _ next => ∀ a, (next a).Closing C M

section Closing

variable {C : W.Write → Prop} {M : W.Write → α → Prop}

theorem Only.closing {A : W.Query → Prop} {p : Program W α} (h : p.Only (fun w => ¬ C w) A) :
    p.Closing C M := by
  induction p with
  | done a => trivial
  | fail => trivial
  | read next ih => exact fun s => ih s (h s)
  | write w next ih => exact ⟨fun hw => absurd hw h.1, ih h.2⟩
  | ask q next ih => exact fun a => ih a (h.2 a)

/-- After a program without such writes. -/
theorem Only.closing_bind {A : W.Query → Prop} {p : Program W β} {f : β → Program W α}
    (h : p.Only (fun w => ¬ C w) A) (hf : ∀ b, (f b).Closing C M) : (p >>= f).Closing C M := by
  induction p with
  | done b => exact hf b
  | fail => trivial
  | read next ih => exact fun s => ih s (h s)
  | write w next ih => exact ⟨fun hw => absurd hw h.1, ih h.2⟩
  | ask q next ih => exact fun a => ih a (h.2 a)

theorem Closing.map {N : W.Write → β → Prop} {p : Program W β} {g : β → α} (h : p.Closing C N)
    (hN : ∀ w b, N w b → M w (g b)) : (p >>= fun b => pure (g b)).Closing C M := by
  induction p with
  | done b => trivial
  | fail => trivial
  | read next ih => exact fun s => ih s (h s)
  | write w next ih =>
    refine ⟨fun hw => ?_, ih h.2⟩
    obtain ⟨b, rfl, hb⟩ := h.1 hw
    exact ⟨g b, rfl, hN w b hb⟩
  | ask q next ih => exact fun a => ih a (h a)

theorem Closing.step {p p' : Program W α} {x x' : Scene O} (h : p.Closing C M)
    (hstep : Step p x p' x') : p'.Closing C M := by
  cases hstep with
  | read next => exact h _
  | write ok => exact h.2
  | refused no => trivial
  | ask a answers => exact h a

/-- Each such write of the past was the last of a program that is done. -/
theorem Together.closed {ι : Type} [DecidableEq ι] {ρ : ι → Type} {M : ∀ i, W.Write → ρ i → Prop}
    {ps ps' : ∀ i, Program W (ρ i)} {x y : Scene O} (h : ∀ i, (ps i).Closing C (M i))
    (hrun : Together ps x ps' y) (hx : x.past = []) :
    (∀ i, (ps' i).Closing C (M i)) ∧
      ∀ s w, .wrote s w ∈ y.past → C w → ∃ i a, ps' i = .done a ∧ M i w a := by
  induction hrun with
  | stop => exact ⟨h, fun s w hw => by rw [hx] at hw; cases hw⟩
  | @step ps₁ _ x₁ x₂ before i p last ih =>
    obtain ⟨hclosing, hpast⟩ := ih hx
    have hp := (hclosing i).step last
    refine ⟨fun j => ?_, fun s w hw hC => ?_⟩
    · by_cases hj : j = i
      · subst hj
        rwa [Function.update_self]
      · rw [Function.update_of_ne hj]
        exact hclosing j
    -- A program that is done takes no step.
    have hold (hold : .wrote s w ∈ x₁.past) :
        ∃ j a, Function.update ps₁ i p j = .done a ∧ M j w a := by
      obtain ⟨j, a, hdone, hM⟩ := hpast s w hold hC
      refine ⟨j, a, ?_, hM⟩
      by_cases hj : j = i
      · subst hj
        rw [hdone] at last
        cases last
      · rw [Function.update_of_ne hj, hdone]
    have hclosingi := hclosing i
    generalize hpi : ps₁ i = pi at last hclosingi
    cases last with
    | read next => exact hold hw
    | refused no => exact hold hw
    | ask a answers =>
      rcases List.mem_append.1 hw with hw | hw
      · exact hold hw
      · cases List.mem_singleton.1 hw
    | write ok =>
      rcases List.mem_append.1 hw with hw | hw
      · exact hold hw
      · cases List.mem_singleton.1 hw
        obtain ⟨a, hdone, hM⟩ := hclosingi.1 hC
        exact ⟨i, a, by rw [Function.update_self, hdone], hM⟩

end Closing

/-- A program that only reads leaves everything alone. -/
theorem Only.steps_same {p p' : Program W α} {x x' : Scene O}
    (h : p.Only (fun _ => False) fun _ => False) (hsteps : Steps p x p' x') : x' = x := by
  induction hsteps with
  | stop p x => rfl
  | step first rest ih =>
    cases first with
    | read next => exact ih (h _)
    | refused no => exact ih trivial
    | write ok => exact h.1.elim
    | ask a answers => exact h.1.elim

/-! ## The rule -/

section Safe

variable (Fine : List (Event W) → Prop) (Rely Guar : Scene O → Scene O → Prop)

/-- Between its steps the program relies on `Rely`; as long as the past is fine, each of its steps
guarantees `Guar`, and `Q` holds when it is done. -/
def Safe : Program W α → (α → Scene O → Prop) → Scene O → Prop
  | .done a, Q, x => Q a x
  | .fail, _, _ => True
  | .read next, Q, x => ∀ y, Rely x y → (next y.store).Safe Q y
  | .write w next, Q, x => ∀ y, Rely x y → ∀ s, W.perform w y.store = .ok s → Fine (y.wrote w s).past →
      Guar y (y.wrote w s) ∧ next.Safe Q (y.wrote w s)
  | .ask q next, Q, x => ∀ y, Rely x y → ∀ a e, O.answers y.outside q a e → Fine (y.asked q a e).past →
      Guar y (y.asked q a e) ∧ (next a).Safe Q (y.asked q a e)

variable {Fine Rely Guar} {p : Program W α} {Q Q' : α → Scene O → Prop} {x y : Scene O}

theorem Safe.mono (h : p.Safe Fine Rely Guar Q x) (hQ : ∀ a x, Q a x → Q' a x) :
    p.Safe Fine Rely Guar Q' x := by
  induction p generalizing x with
  | done a => exact hQ a x h
  | fail => trivial
  | read next ih => exact fun y hy => ih y.store (h y hy)
  | write w next ih =>
    intro y hy s hok hfine
    exact ⟨(h y hy s hok hfine).1, ih (h y hy s hok hfine).2⟩
  | ask q next ih =>
    intro y hy a e hanswers hfine
    exact ⟨(h y hy a e hanswers hfine).1, ih a (h y hy a e hanswers hfine).2⟩

/-- Two results of one program. -/
theorem Safe.and {Guar' : Scene O → Scene O → Prop} (h : p.Safe Fine Rely Guar Q x)
    (h' : p.Safe (fun _ => True) Rely Guar' Q' x) :
    p.Safe Fine Rely Guar (fun a y => Q a y ∧ Q' a y) x := by
  induction p generalizing x with
  | done a => exact ⟨h, h'⟩
  | fail => trivial
  | read next ih => exact fun y hy => ih y.store (h y hy) (h' y hy)
  | write w next ih =>
    intro y hy s hok hfine
    exact ⟨(h y hy s hok hfine).1, ih (h y hy s hok hfine).2 (h' y hy s hok trivial).2⟩
  | ask q next ih =>
    intro y hy a e hanswers hfine
    exact ⟨(h y hy a e hanswers hfine).1,
      ih a (h y hy a e hanswers hfine).2 (h' y hy a e hanswers trivial).2⟩

theorem safe_bind {f : α → Program W β} {R : β → Scene O → Prop} :
    (p >>= f).Safe Fine Rely Guar R x ↔
      p.Safe Fine Rely Guar (fun a x => (f a).Safe Fine Rely Guar R x) x := by
  induction p generalizing x with
  | done a => exact Iff.rfl
  | fail => exact Iff.rfl
  | read next ih => exact forall₂_congr fun y _ => ih y.store
  | write w next ih =>
    exact forall₅_congr fun y _ s _ _ => and_congr Iff.rfl ih
  | ask q next ih =>
    refine forall₅_congr fun y _ a e _ => forall_congr' fun _ => and_congr Iff.rfl (ih a)

@[simp] theorem safe_pure {a : α} : (pure a : Program W α).Safe Fine Rely Guar Q x ↔ Q a x := Iff.rfl

@[simp] theorem safe_stop : (stop : Program W α).Safe Fine Rely Guar Q x := trivial

theorem safe_get {Q : W.Store → Scene O → Prop} :
    get.Safe Fine Rely Guar Q x ↔ ∀ y, Rely x y → Q y.store y := Iff.rfl

theorem safe_query {q : W.Query} {Q : W.Answer q → Scene O → Prop} :
    (query q).Safe Fine Rely Guar Q x ↔ ∀ y, Rely x y → ∀ a e, O.answers y.outside q a e →
      Fine (y.asked q a e).past → Guar y (y.asked q a e) ∧ Q a (y.asked q a e) := Iff.rfl

theorem safe_perform {w : W.Write} {Q : Unit → Scene O → Prop} :
    (perform w).Safe Fine Rely Guar Q x ↔ ∀ y, Rely x y → ∀ s, W.perform w y.store = .ok s →
      Fine (y.wrote w s).past → Guar y (y.wrote w s) ∧ Q () (y.wrote w s) := Iff.rfl

theorem safe_require {o : Option α} (h : ∀ a, o = some a → Q a x) :
    (require o : Program W α).Safe Fine Rely Guar Q x := by
  cases o with
  | none => trivial
  | some a => exact h a rfl

/-- A loop that keeps an assertion. -/
theorem safe_forM {J : Scene O → Prop} {f : β → Program W PUnit} {l : List β}
    (hstep : ∀ b ∈ l, ∀ x, J x → (f b).Safe Fine Rely Guar (fun _ => J) x) (hx : J x) :
    (forM l f).Safe Fine Rely Guar (fun _ => J) x := by
  induction l generalizing x with
  | nil => exact hx
  | cons b l ih =>
    rw [List.forM_cons, safe_bind]
    refine (hstep b (by simp) x hx).mono fun _ x hx => ?_
    exact ih (fun b hb => hstep b (List.mem_cons_of_mem _ hb)) hx

theorem safe_foldlM {J : γ → Scene O → Prop} {f : γ → β → Program W γ} {l : List β} {c : γ}
    (hstep : ∀ b ∈ l, ∀ c x, J c x → (f c b).Safe Fine Rely Guar J x) (hx : J c x) :
    (l.foldlM f c).Safe Fine Rely Guar J x := by
  induction l generalizing c x with
  | nil => exact hx
  | cons b l ih =>
    rw [List.foldlM_cons, safe_bind]
    refine (hstep b (by simp) c x hx).mono fun c x hx => ?_
    exact ih (fun b hb => hstep b (List.mem_cons_of_mem _ hb)) hx

/-- A loop that keeps an assertion about what is still to do. -/
theorem safe_foldlM_rest {J : List β → γ → Scene O → Prop} {f : γ → β → Program W γ} {l : List β}
    {c : γ} (hstep : ∀ b rest c x, J (b :: rest) c x → (f c b).Safe Fine Rely Guar (J rest) x)
    (hx : J l c x) : (l.foldlM f c).Safe Fine Rely Guar (J []) x := by
  induction l generalizing c x with
  | nil => exact hx
  | cons b l ih =>
    rw [List.foldlM_cons, safe_bind]
    exact (hstep b l c x hx).mono fun c x hx => ih hx

theorem safe_forM_rest {J : List β → Scene O → Prop} {f : β → Program W PUnit} {l : List β}
    (hstep : ∀ b rest x, J (b :: rest) x → (f b).Safe Fine Rely Guar (fun _ => J rest) x)
    (hx : J l x) : (forM l f).Safe Fine Rely Guar (fun _ => J []) x := by
  induction l generalizing x with
  | nil => exact hx
  | cons b l ih =>
    rw [List.forM_cons, safe_bind]
    exact (hstep b l x hx).mono fun _ x hx => ih hx

/-- A map that keeps an assertion about the results so far, the last of them first. -/
theorem safe_mapM {J : List γ → Scene O → Prop} {f : β → Program W γ} {l : List β}
    {R : List γ → Scene O → Prop}
    (hstep : ∀ before b after, l = before ++ b :: after → ∀ cs x, cs.length = before.length →
      J cs x → (f b).Safe Fine Rely Guar (fun c x => J (cs ++ [c]) x) x)
    (hx : J [] x) (hR : ∀ cs x, cs.length = l.length → J cs x → R cs x) :
    (l.mapM f).Safe Fine Rely Guar R x := by
  suffices h : ∀ (after before : List β) (cs : List γ) (x : Scene O), l = before ++ after →
      cs.length = before.length → J cs x →
      (after.mapM f).Safe Fine Rely Guar (fun rest x => R (cs ++ rest) x) x by
    simpa using h l [] [] x rfl rfl hx
  intro after
  induction after with
  | nil =>
    intro before cs x hl hlen hJ
    rw [List.mapM_nil, safe_pure]
    refine hR _ x ?_ (by simpa using hJ)
    simp [hl, hlen]
  | cons b after ih =>
    intro before cs x hl hlen hJ
    rw [List.mapM_cons, safe_bind]
    refine (hstep before b after hl cs x hlen hJ).mono fun c x hc => ?_
    rw [safe_bind]
    refine (ih (before ++ [b]) (cs ++ [c]) x (by simp [hl]) (by simp [hlen]) hc).mono
      fun rest x hrest => ?_
    simpa using hrest

/-! ### A program alone -/

/-- Alone, a program only adds to the past. -/
theorem Safe.later (h : p.Safe Fine Eq Guar Q x) :
    p.Safe Fine Eq Guar (fun a y => Q a y ∧ ∃ later, y.past = x.past ++ later) x := by
  induction p generalizing x with
  | done a => exact ⟨h, [], (List.append_nil _).symm⟩
  | fail => trivial
  | read next ih =>
    rintro y rfl
    exact ih _ (h x rfl)
  | write w next ih =>
    rintro y rfl s hok hfine
    obtain ⟨hguar, hnext⟩ := h x rfl s hok hfine
    refine ⟨hguar, (ih hnext).mono fun a y hy => ⟨hy.1, ?_⟩⟩
    obtain ⟨later, hlater⟩ := hy.2
    exact ⟨_ :: later, by rw [hlater, Scene.wrote_past, List.append_assoc]; rfl⟩
  | ask q next ih =>
    rintro y rfl a e hanswers hfine
    obtain ⟨hguar, hnext⟩ := h x rfl a e hanswers hfine
    refine ⟨hguar, (ih a hnext).mono fun b y hy => ⟨hy.1, ?_⟩⟩
    obtain ⟨later, hlater⟩ := hy.2
    exact ⟨_ :: later, by rw [hlater, Scene.asked_past, List.append_assoc]; rfl⟩

/-- Alone, a program that only reads sees one store. -/
theorem Ensures.safe {P : α → W.Store → Prop} (hp : p.Only (fun _ => False) fun _ => False)
    (h : p.Ensures (fun _ _ => True) (fun _ => True) P x.store) :
    p.Safe Fine Eq Guar (fun a y => P a x.store ∧ y = x) x := by
  induction p with
  | done a => exact ⟨h, rfl⟩
  | fail => trivial
  | read next ih =>
    rintro y rfl
    exact ih _ (hp _) h
  | write w next ih => exact hp.1.elim
  | ask q next ih => exact hp.1.elim

/-- Alone, a map whose results the past justifies. -/
theorem safe_mapM_past {J : Scene O → Prop} {R : β → γ → List (Event W) → Prop}
    {f : β → Program W γ} {l : List β}
    (hmono : ∀ b c past later, R b c past → R b c (past ++ later))
    (hstep : ∀ b ∈ l, ∀ x, J x → (f b).Safe Fine Eq Guar (fun c y => J y ∧ R b c y.past) x)
    (hx : J x) : (l.mapM f).Safe Fine Eq Guar
      (fun cs y => J y ∧ ∀ b ∈ l, ∃ c ∈ cs, R b c y.past) x := by
  induction l generalizing x with
  | nil => exact ⟨hx, fun b hb => absurd hb List.not_mem_nil⟩
  | cons b l ih =>
    rw [List.mapM_cons, safe_bind]
    refine (hstep b List.mem_cons_self x hx).mono fun c y hy => safe_bind.2 ?_
    refine (ih (fun b hb => hstep b (List.mem_cons_of_mem _ hb)) hy.1).later.mono
      fun cs z hz => ⟨hz.1.1, fun b' hb' => ?_⟩
    obtain ⟨later, hlater⟩ := hz.2
    rcases List.mem_cons.1 hb' with rfl | hb'
    · exact ⟨c, List.mem_cons_self, hlater ▸ hmono b' c y.past later hy.2⟩
    · obtain ⟨c', hc', hpast⟩ := hz.1.2 b' hb'
      exact ⟨c', List.mem_cons_of_mem _ hc', hpast⟩

/-- When all its writes and questions keep an assertion, so does the program. -/
theorem Only.safe {P : W.Write → Prop} {A : W.Query → Prop} {J : Scene O → Prop} (h : p.Only P A)
    (hx : J x) (hrely : ∀ x y, J x → Rely x y → J y)
    (hwrite : ∀ w, P w → ∀ x s, J x → W.perform w x.store = .ok s → Fine (x.wrote w s).past →
      Guar x (x.wrote w s) ∧ J (x.wrote w s))
    (hask : ∀ q, A q → ∀ x a e, J x → O.answers x.outside q a e → Fine (x.asked q a e).past →
      Guar x (x.asked q a e) ∧ J (x.asked q a e)) : p.Safe Fine Rely Guar (fun _ => J) x := by
  induction p generalizing x with
  | done a => exact hx
  | fail => trivial
  | read next ih => exact fun y hy => ih y.store (h y.store) (hrely x y hx hy)
  | write w next ih =>
    intro y hy s hok hfine
    obtain ⟨hguar, hJ⟩ := hwrite w h.1 y s (hrely x y hx hy) hok hfine
    exact ⟨hguar, ih h.2 hJ⟩
  | ask q next ih =>
    intro y hy a e hanswers hfine
    obtain ⟨hguar, hJ⟩ := hask q h.1 y a e (hrely x y hx hy) hanswers hfine
    exact ⟨hguar, ih a (h.2 a) hJ⟩

/-- What every step and everything relied on keeps, has been kept at the end. -/
theorem Safe.reached {R : Scene O → Scene O → Prop} (h : p.Safe Fine Rely Guar Q x)
    (hrely : ∀ x y, Rely x y → R x y) (hguar : ∀ x y, Guar x y → R x y) (hrefl : ∀ x, R x x)
    (htrans : ∀ x y z, R x y → R y z → R x z) :
    p.Safe Fine Rely Guar (fun a y => Q a y ∧ R x y) x := by
  suffices hfrom : ∀ b, R b x → p.Safe Fine Rely Guar (fun a y => Q a y ∧ R b y) x from
    hfrom x (hrefl x)
  intro b hb
  induction p generalizing x with
  | done a => exact ⟨h, hb⟩
  | fail => trivial
  | read next ih => exact fun y hy => ih y.store (h y hy) (htrans _ _ _ hb (hrely _ _ hy))
  | write w next ih =>
    intro y hy s hok hfine
    obtain ⟨hstep, hrest⟩ := h y hy s hok hfine
    exact ⟨hstep, ih hrest (htrans _ _ _ (htrans _ _ _ hb (hrely _ _ hy)) (hguar _ _ hstep))⟩
  | ask q next ih =>
    intro y hy a e hanswers hfine
    obtain ⟨hstep, hrest⟩ := h y hy a e hanswers hfine
    exact ⟨hstep, ih a hrest (htrans _ _ _ (htrans _ _ _ hb (hrely _ _ hy)) (hguar _ _ hstep))⟩

/-- A program that is safe now is safe after what it relies on. -/
theorem Safe.relied (h : p.Safe Fine Rely Guar Q x)
    (htrans : ∀ x y z, Rely x y → Rely y z → Rely x z)
    (hQ : ∀ a x y, Q a x → Rely x y → Q a y) (hy : Rely x y) : p.Safe Fine Rely Guar Q y := by
  cases p with
  | done a => exact hQ a x y h hy
  | fail => trivial
  | read next => exact fun z hz => h z (htrans x y z hy hz)
  | write w next => exact fun z hz => h z (htrans x y z hy hz)
  | ask q next => exact fun z hz => h z (htrans x y z hy hz)

/-- One step of a safe program guarantees, and leaves it safe. -/
theorem Safe.step {p' : Program W α} (h : p.Safe Fine Rely Guar Q x) (hrefl : ∀ x, Rely x x)
    (hstep : Step p x p' y) (hfine : Fine y.past) :
    (x = y ∨ Guar x y) ∧ p'.Safe Fine Rely Guar Q y := by
  cases hstep with
  | read next => exact ⟨.inl rfl, h x (hrefl x)⟩
  | write ok => exact ⟨.inr (h x (hrefl x) _ ok hfine).1, (h x (hrefl x) _ ok hfine).2⟩
  | refused no => exact ⟨.inl rfl, trivial⟩
  | ask a answers =>
    exact ⟨.inr (h x (hrefl x) _ _ answers hfine).1, (h x (hrefl x) _ _ answers hfine).2⟩

end Safe

/-! ## Runs of safe programs -/

section Runs

variable {Fine : List (Event W) → Prop} {x y : Scene O}

/-- Alone, a safe program keeps what its steps keep. -/
theorem Safe.steps {Guar : Scene O → Scene O → Prop} {p p' : Program W α} {Q : α → Scene O → Prop}
    {J : Scene O → Prop} (h : p.Safe Fine Eq Guar Q x) (hsteps : Steps p x p' y)
    (hshorter : ∀ past later, Fine (past ++ later) → Fine past) (hfine : Fine y.past)
    (hinv : ∀ x y, Guar x y → J x → J y) (hx : J x) :
    J y ∧ p'.Safe Fine Eq Guar Q y := by
  induction hsteps with
  | stop p x => exact ⟨hx, h⟩
  | step first rest ih =>
    obtain ⟨later, hpast⟩ := rest.past
    obtain ⟨hstep, hrest⟩ := h.step (fun _ => rfl) first (hshorter _ later (hpast ▸ hfine))
    refine ih hrest hfine ?_
    rcases hstep with rfl | hguar
    · exact hx
    · exact hinv _ _ hguar hx

variable {ι : Type} [DecidableEq ι] {ρ : ι → Type} {Rely Guar : ι → Scene O → Scene O → Prop}

theorem Together.past {ps ps' : ∀ i, Program W (ρ i)} (h : Together ps x ps' y) :
    ∃ later, y.past = x.past ++ later := by
  induction h with
  | stop => exact ⟨[], by simp⟩
  | step before i last ih =>
    obtain ⟨events, hbefore⟩ := ih
    obtain ⟨later, hlast⟩ := last.past
    exact ⟨events ++ later, by rw [hlast, hbefore, List.append_assoc]⟩

/-- Processes that each rely on what the others guarantee stay safe together. -/
theorem Safe.together {ps ps' : ∀ i, Program W (ρ i)} {Q : ∀ i, ρ i → Scene O → Prop}
    {Inv : Scene O → Prop} (h : ∀ i, (ps i).Safe Fine (Rely i) (Guar i) (Q i) x)
    (hrun : Together ps x ps' y) (hshorter : ∀ past later, Fine (past ++ later) → Fine past)
    (hfine : Fine y.past) (hrefl : ∀ i x, Rely i x x)
    (htrans : ∀ i x y z, Rely i x y → Rely i y z → Rely i x z)
    (hothers : ∀ i j, i ≠ j → ∀ x y, Inv x → Guar i x y → Rely j x y)
    (hdone : ∀ i a x y, Q i a x → Rely i x y → Q i a y)
    (hinv : ∀ i x y, Guar i x y → Inv x → Inv y) (hx : Inv x) :
    Inv y ∧ ∀ i, (ps' i).Safe Fine (Rely i) (Guar i) (Q i) y := by
  induction hrun with
  | stop => exact ⟨hx, h⟩
  | step before i last ih =>
    obtain ⟨later, hpast⟩ := last.past
    obtain ⟨hx₁, hsafe⟩ := ih h (hshorter _ later (hpast ▸ hfine)) hx
    obtain ⟨hstep, hp⟩ := (hsafe i).step (hrefl i) last hfine
    refine ⟨?_, fun j => ?_⟩
    · rcases hstep with rfl | hguar
      · exact hx₁
      · exact hinv i _ _ hguar hx₁
    by_cases hij : j = i
    · subst hij
      rw [Function.update_self]
      exact hp
    · rw [Function.update_of_ne hij]
      rcases hstep with rfl | hguar
      · exact hsafe j
      · exact (hsafe j).relied (htrans j) (hdone j) (hothers i j (Ne.symm hij) _ _ hx₁ hguar)

end Runs

end Program

end DistrHnsw
