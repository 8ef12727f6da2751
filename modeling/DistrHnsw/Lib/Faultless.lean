import DistrHnsw.Lib.Reader

/-!
# Computations that end without a fault

Some of the errors of a computation may stand for a fault of the process.  `Faultless` says that a
computation ends without one, `Agrees` that two computations have the same result as long as the
first does; both go from the parts of a program to the whole.
-/

namespace DistrHnsw

variable {ε α β γ : Type} {bad : ε → Prop}

/-- The computation does not end with a fault. -/
def Faultless (bad : ε → Prop) (x : Except ε α) : Prop := ∀ e, x = .error e → ¬bad e

/-- The computations have the same result, unless the first ends with a fault. -/
def Agrees (bad : ε → Prop) (x y : Except ε α) : Prop := Faultless bad x → x = y

/-! ## Rules -/

@[simp] theorem faultless_ok (a : α) : Faultless bad (.ok a : Except ε α) := nofun

@[simp] theorem faultless_error {e : ε} : Faultless bad (.error e : Except ε α) ↔ ¬bad e := by
  constructor
  · exact fun h => h e rfl
  · rintro h _ ⟨⟩
    exact h

/-- A sequence is free of faults when its first part is, and its second after every result. -/
theorem faultless_bind {x : Except ε α} {f : α → Except ε β} :
    Faultless bad (x >>= f) ↔ Faultless bad x ∧ ∀ a, x = .ok a → Faultless bad (f a) := by
  cases x <;> simp

theorem Faultless.bind {x : Except ε α} {f : α → Except ε β} (hx : Faultless bad x)
    (hf : ∀ a, x = .ok a → Faultless bad (f a)) : Faultless bad (x >>= f) :=
  faultless_bind.2 ⟨hx, hf⟩

/-- A guard whose error is no fault. -/
theorem faultless_guard {c : Prop} [Decidable c] {e : ε} {x : Except ε α} (he : ¬bad e) :
    Faultless bad (if c then .error e else x) ↔ (¬c → Faultless bad x) := by
  split <;> simp [*]

theorem faultless_mapError {ε' : Type} {bad' : ε' → Prop} {f : ε → ε'} {x : Except ε α}
    (hf : ∀ e, bad' (f e) → bad e) (h : Faultless bad x) : Faultless bad' (x.mapError f) := by
  cases x with
  | ok a => exact faultless_ok a
  | error e => exact faultless_error.2 fun hbad => faultless_error.1 h (hf e hbad)

theorem faultless_forM {f : α → Except ε Unit} {l : List α} (h : ∀ a ∈ l, Faultless bad (f a)) :
    Faultless bad (l.forM f) := by
  induction l with
  | nil => exact faultless_ok ()
  | cons a l ih =>
    exact (h a List.mem_cons_self).bind fun _ _ => ih fun b hb => h b (List.mem_cons_of_mem _ hb)

theorem faultless_mapM {f : α → Except ε β} {l : List α} (h : ∀ a ∈ l, Faultless bad (f a)) :
    Faultless bad (l.mapM f) := by
  induction l with
  | nil => exact faultless_ok []
  | cons a l ih =>
    rw [List.mapM_cons]
    refine (h a List.mem_cons_self).bind fun b _ => ?_
    exact (ih fun c hc => h c (List.mem_cons_of_mem _ hc)).bind fun _ _ => faultless_ok _

/-! ## Agreement -/

theorem agrees_refl (x : Except ε α) : Agrees bad x x := fun _ => rfl

theorem Agrees.bind {x y : Except ε α} {f g : α → Except ε β} (h : Agrees bad x y)
    (hf : ∀ a, x = .ok a → Agrees bad (f a) (g a)) : Agrees bad (x >>= f) (y >>= g) := by
  intro hbind
  obtain ⟨hx, hrest⟩ := faultless_bind.1 hbind
  rw [← h hx]
  cases hcase : x with
  | error e => rfl
  | ok a => exact hf a hcase (hrest a hcase)

theorem Agrees.guard {c : Prop} [Decidable c] {e : ε} {x y : Except ε α}
    (h : ¬c → Agrees bad x y) :
    Agrees bad (if c then .error e else x) (if c then .error e else y) := by
  split
  · exact agrees_refl _
  · exact h ‹_›

theorem agrees_forM {f g : α → Except ε Unit} {l : List α} (h : ∀ a ∈ l, Agrees bad (f a) (g a)) :
    Agrees bad (l.forM f) (l.forM g) := by
  induction l with
  | nil => exact agrees_refl _
  | cons a l ih =>
    exact (h a List.mem_cons_self).bind fun _ _ => ih fun b hb => h b (List.mem_cons_of_mem _ hb)

theorem agrees_mapM {f g : α → Except ε β} {l : List α} (h : ∀ a ∈ l, Agrees bad (f a) (g a)) :
    Agrees bad (l.mapM f) (l.mapM g) := by
  induction l with
  | nil => exact agrees_refl _
  | cons a l ih =>
    rw [List.mapM_cons, List.mapM_cons]
    refine (h a List.mem_cons_self).bind fun b _ => ?_
    exact (ih fun c hc => h c (List.mem_cons_of_mem _ hc)).bind fun _ _ => agrees_refl _

/-! ## Readers -/

namespace Reader

theorem faultless_take {e : ε} (he : ¬bad e) (n : ℕ) (bytes : Bytes) :
    Faultless bad (take e n bytes) := by
  unfold take
  split
  · exact faultless_ok _
  · exact faultless_error.2 he

theorem faultless_convert {read : Reader ε α} {f : α → Except ε β} {bytes : Bytes}
    (hread : Faultless bad (read bytes)) (hf : ∀ a, Faultless bad (f a)) :
    Faultless bad (convert read f bytes) :=
  hread.bind fun _ _ => (hf _).bind fun _ _ => faultless_ok _

theorem faultless_array {e : ε} (he : ¬bad e) (n : ℕ) (bytes : Bytes) :
    Faultless bad (array e n bytes) := by
  apply faultless_convert (faultless_take he n bytes)
  intro front
  split
  · exact faultless_ok _
  · exact faultless_error.2 he

theorem faultless_u8 {e : ε} (he : ¬bad e) (bytes : Bytes) : Faultless bad (u8 e bytes) := by
  apply faultless_convert (faultless_take he 1 bytes)
  intro front
  cases front with
  | nil => exact faultless_error.2 he
  | cons byte front => exact faultless_ok _

theorem faultless_u32 {e : ε} (he : ¬bad e) (bytes : Bytes) : Faultless bad (u32 e bytes) :=
  faultless_convert (faultless_take he 4 bytes) fun _ => faultless_ok _

theorem faultless_u64 {e : ε} (he : ¬bad e) (bytes : Bytes) : Faultless bad (u64 e bytes) :=
  faultless_convert (faultless_take he 8 bytes) fun _ => faultless_ok _

theorem faultless_word {e : ε} (he : ¬bad e) (w : ℕ) (bytes : Bytes) :
    Faultless bad (word e w bytes) :=
  faultless_convert (faultless_take he w bytes) fun _ => faultless_ok _

/-- Values are read without a fault when each is, behind those that were read. -/
theorem faultless_many_iff {read : Reader ε α} {n : ℕ} {bytes : Bytes} :
    Faultless bad (many read n bytes) ↔ ∀ i < n, ∀ l rest, many read i bytes = .ok (l, rest) →
      Faultless bad (read rest) := by
  induction n generalizing bytes with
  | zero => simp [many]
  | succ n ih =>
    rw [many, faultless_bind]
    constructor
    · rintro ⟨hfirst, hmore⟩ i hi l rest hread
      cases i with
      | zero =>
        cases hread
        exact hfirst
      | succ i =>
        obtain ⟨⟨a, rest'⟩, ha, hread⟩ := DistrHnsw.bind_eq_ok.1 hread
        obtain ⟨⟨l', rest''⟩, hl, hread⟩ := DistrHnsw.bind_eq_ok.1 hread
        cases hread
        exact ih.1 (faultless_bind.1 (hmore _ ha)).1 i (by omega) l' rest hl
    · intro h
      refine ⟨h 0 (by omega) [] bytes rfl, ?_⟩
      rintro ⟨a, rest⟩ ha
      refine faultless_bind.2 ⟨ih.2 ?_, fun _ _ => faultless_ok _⟩
      intro i hi l rest' hread
      apply h (i + 1) (by omega) (a :: l) rest'
      rw [many, ha, ok_bind]
      dsimp only
      rw [hread]
      rfl

theorem faultless_many {read : Reader ε α} (h : ∀ bytes, Faultless bad (read bytes)) (n : ℕ)
    (bytes : Bytes) : Faultless bad (many read n bytes) :=
  faultless_many_iff.2 fun _ _ _ rest _ => h rest

theorem agrees_many {read read' : Reader ε α} (h : ∀ bytes, Agrees bad (read bytes) (read' bytes))
    (n : ℕ) (bytes : Bytes) : Agrees bad (many read n bytes) (many read' n bytes) := by
  induction n generalizing bytes with
  | zero => exact agrees_refl _
  | succ n ih =>
    exact (h bytes).bind fun _ _ => (ih _).bind fun _ _ => agrees_refl _

end Reader

end DistrHnsw
