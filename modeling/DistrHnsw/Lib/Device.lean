import DistrHnsw.Lib.Bytes
import DistrHnsw.Lib.Dir

/-!
# A directory behind an unreliable device

A device holds a directory and the outcomes of the steps to come: a step that fails may have
written any prefix of its bytes.  Past the end of the list every step succeeds.  Every state the
directory passes through, also between two bytes of one write, is recorded in `moments`.
-/

namespace DistrHnsw

/-- A directory, the outcomes of the coming steps (`some n` fails after `n` bytes) and the states
passed through. -/
structure Device where
  files : Dir Bytes
  faults : List (Option ℕ)
  moments : List (Dir Bytes)

namespace Device

/-- The device on which nothing fails. -/
def reliable (files : Dir Bytes) : Device := ⟨files, [], []⟩

/-- The outcome of the next step. -/
def outcome (d : Device) : Option ℕ × Device :=
  match d.faults with
  | [] => (none, d)
  | fault :: faults => (fault, { d with faults })

/-- A step that changes no content (sync, open): whether it succeeded. -/
def touch (d : Device) : Bool × Device := (d.outcome.1.isNone, d.outcome.2)

/-- Create an empty file; fails when the name exists. -/
def createNew (d : Device) (name : ℕ) : Bool × Device :=
  let (fault, d) := d.outcome
  if fault.isSome ∨ (d.files.get? name).isSome then (false, d)
  else
    let files := d.files.put name []
    (true, { d with files, moments := d.moments ++ [files] })

/-- Append to a file; a failing write leaves a prefix. -/
def writeAll (d : Device) (name : ℕ) (bytes : Bytes) : Bool × Device :=
  let (fault, d) := d.outcome
  let written := fault.getD bytes.length
  let after (n : ℕ) := d.files.modify name (· ++ bytes.take n)
  (fault.isNone,
    { d with files := after written, moments := d.moments ++ (List.range (written + 1)).map after })

/-- Remove a file. -/
def remove (d : Device) (name : ℕ) : Bool × Device :=
  let (fault, d) := d.outcome
  if fault.isSome ∨ (d.files.get? name).isNone then (false, d)
  else
    let files := d.files.erase name
    (true, { d with files, moments := d.moments ++ [files] })

/-- Cut a file to its first `length` bytes. -/
def truncate (d : Device) (name length : ℕ) : Bool × Device :=
  let (fault, d) := d.outcome
  if fault.isSome ∨ (d.files.get? name).isNone then (false, d)
  else
    let files := d.files.modify name (·.take length)
    (true, { d with files, moments := d.moments ++ [files] })

/-- Move a finished temporary file over a name, in one step. -/
def rename (d : Device) (name : ℕ) (content : Bytes) : Bool × Device :=
  let (fault, d) := d.outcome
  if fault.isSome then (false, d)
  else
    let files := d.files.put name content
    (true, { d with files, moments := d.moments ++ [files] })

/-- Go on after a step that succeeded, fail with `e` after one that did not. -/
def orFail {ε α : Type} (step : Bool × Device) (e : ε) (next : Device → Except ε α × Device) :
    Except ε α × Device :=
  if step.1 then next step.2 else (.error e, step.2)

/-- The directory is now, and was at every recorded moment since `d`, one of those in `P`. -/
structure Through (P : Dir Bytes → Prop) (d d' : Device) : Prop where
  files : P d'.files
  moments : ∀ m ∈ d'.moments, m ∈ d.moments ∨ P m

/-! ## What a step does -/

variable (d : Device)

@[simp] theorem outcome_files : d.outcome.2.files = d.files := by
  unfold outcome
  split <;> rfl

@[simp] theorem outcome_moments : d.outcome.2.moments = d.moments := by
  unfold outcome
  split <;> rfl

theorem outcome_of_reliable (h : d.faults = []) : d.outcome = (none, d) := by
  unfold outcome
  rw [h]

@[simp] theorem touch_files : d.touch.2.files = d.files := d.outcome_files

@[simp] theorem touch_moments : d.touch.2.moments = d.moments := d.outcome_moments

/-- A creation either leaves the directory or adds the empty file and passes through that. -/
theorem createNew_cases (name : ℕ) :
    ((d.createNew name).1 = false ∧ (d.createNew name).2.files = d.files ∧
      (d.createNew name).2.moments = d.moments) ∨
    ((d.createNew name).1 = true ∧ (d.createNew name).2.files = d.files.put name [] ∧
      (d.createNew name).2.moments = d.moments ++ [d.files.put name []]) := by
  unfold createNew
  dsimp only
  split
  · exact Or.inl ⟨rfl, d.outcome_files, d.outcome_moments⟩
  · exact Or.inr ⟨rfl, by simp, by simp⟩

/-- A step that changes the directory at once, or leaves it. -/
def Swaps (d : Device) (files : Dir Bytes) (step : Bool × Device) : Prop :=
  (step.1 = false ∧ step.2.files = d.files ∧ step.2.moments = d.moments) ∨
    (step.1 = true ∧ step.2.files = files ∧ step.2.moments = d.moments ++ [files])

theorem swaps_rename (name : ℕ) (content : Bytes) :
    d.Swaps (d.files.put name content) (d.rename name content) := by
  unfold rename
  dsimp only
  split
  · exact Or.inl ⟨rfl, d.outcome_files, d.outcome_moments⟩
  · exact Or.inr ⟨rfl, by simp, by simp⟩

theorem swaps_remove (name : ℕ) : d.Swaps (d.files.erase name) (d.remove name) := by
  unfold remove
  dsimp only
  split
  · exact Or.inl ⟨rfl, d.outcome_files, d.outcome_moments⟩
  · exact Or.inr ⟨rfl, by simp, by simp⟩

theorem swaps_truncate (name length : ℕ) :
    d.Swaps (d.files.modify name (·.take length)) (d.truncate name length) := by
  unfold truncate
  dsimp only
  split
  · exact Or.inl ⟨rfl, d.outcome_files, d.outcome_moments⟩
  · exact Or.inr ⟨rfl, by simp, by simp⟩

/-- A write leaves a prefix of its bytes, all of them when it succeeds, and passes through
prefixes only. -/
theorem writeAll_spec (name : ℕ) (bytes : Bytes) :
    ∃ n, (d.writeAll name bytes).2.files = d.files.modify name (· ++ bytes.take n) ∧
      ((d.writeAll name bytes).1 = true → n = bytes.length) ∧
      ∀ m ∈ (d.writeAll name bytes).2.moments, m ∈ d.moments ∨
        ∃ k, m = d.files.modify name (· ++ bytes.take k) := by
  refine ⟨d.outcome.1.getD bytes.length, by simp [writeAll], ?_, ?_⟩
  · intro h
    have hnone : d.outcome.1 = none := by simpa [writeAll] using h
    simp [hnone]
  · intro m hm
    simp only [writeAll, outcome_moments, outcome_files, List.mem_append, List.mem_map] at hm
    rcases hm with hm | ⟨k, -, rfl⟩
    · exact Or.inl hm
    · exact Or.inr ⟨k, rfl⟩

/-! ## Steps of a reliable device -/

section Reliable

variable {d} (h : d.faults = [])

include h

theorem touch_of_reliable : d.touch = (true, d) := by
  rw [touch, d.outcome_of_reliable h]
  rfl

theorem rename_of_reliable {name : ℕ} {content : Bytes} :
    d.rename name content = (true, { d with
      files := d.files.put name content, moments := d.moments ++ [d.files.put name content] }) := by
  simp [rename, d.outcome_of_reliable h]

theorem createNew_of_reliable {name : ℕ} (hnew : d.files.get? name = none) :
    d.createNew name = (true, { d with
      files := d.files.put name [], moments := d.moments ++ [d.files.put name []] }) := by
  simp [createNew, d.outcome_of_reliable h, hnew]

theorem writeAll_of_reliable (name : ℕ) (bytes : Bytes) :
    (d.writeAll name bytes).1 = true ∧ (d.writeAll name bytes).2.faults = [] ∧
      (d.writeAll name bytes).2.files = d.files.modify name (· ++ bytes) := by
  simp [writeAll, d.outcome_of_reliable h, h]

theorem remove_of_reliable {name : ℕ} {content : Bytes}
    (hold : d.files.get? name = some content) : (d.remove name).1 = true ∧
      (d.remove name).2.faults = [] ∧ (d.remove name).2.files = d.files.erase name := by
  simp [remove, d.outcome_of_reliable h, hold, h]

theorem truncate_of_reliable {name : ℕ} {content : Bytes}
    (hold : d.files.get? name = some content) (length : ℕ) :
    (d.truncate name length).1 = true ∧ (d.truncate name length).2.faults = [] ∧
      (d.truncate name length).2.files = d.files.modify name (·.take length) := by
  simp [truncate, d.outcome_of_reliable h, hold, h]

end Reliable

/-- What holds of both outcomes of a step holds of the computation it starts. -/
theorem orFail_rule {ε α : Type} {step : Bool × Device} {e : ε}
    {next : Device → Except ε α × Device} {Q : Except ε α × Device → Prop}
    (hfail : step.1 = false → Q (.error e, step.2)) (hok : step.1 = true → Q (next step.2)) :
    Q (orFail step e next) := by
  unfold orFail
  split
  · exact hok ‹_›
  · exact hfail (Bool.eq_false_iff.2 ‹_›)

/-- A computation that succeeds got past its first step. -/
theorem orFail_of_ok {ε α : Type} {step : Bool × Device} {e : ε} {a : α}
    {next : Device → Except ε α × Device} (h : (orFail step e next).1 = .ok a) :
    orFail step e next = next step.2 := by
  unfold orFail at h ⊢
  split at h
  · rename_i hstep
    rw [if_pos hstep]
  · cases h

/-! ## Passing through states -/

section Through

variable {P : Dir Bytes → Prop} {d d' d'' : Device}

theorem Through.trans (h : Through P d d') (h' : Through P d' d'') : Through P d d'' where
  files := h'.files
  moments _ hm := (h'.moments _ hm).elim (h.moments _) Or.inr

/-- What holds throughout holds of every moment. -/
theorem Through.passes (h : Through P d d') (hold : P d.files) (hmoments : d.moments = []) {m : Dir Bytes}
    (hm : m ∈ d.files :: d'.files :: d'.moments) : P m := by
  rcases List.mem_cons.1 hm with rfl | hm
  · exact hold
  rcases List.mem_cons.1 hm with rfl | hm
  · exact h.files
  rcases h.moments m hm with hm | hm
  · rw [hmoments] at hm
    cases hm
  · exact hm

theorem Through.unchanged (h : P d.files) (hfiles : d'.files = d.files)
    (hmoments : d'.moments = d.moments) : Through P d d' where
  files := hfiles ▸ h
  moments _ hm := Or.inl (hmoments ▸ hm)

theorem Through.touch (h : P d.files) : Through P d d.touch.2 :=
  .unchanged h d.touch_files d.touch_moments

theorem Through.createNew {name : ℕ} (h : P d.files) (hnew : P (d.files.put name [])) :
    Through P d (d.createNew name).2 := by
  rcases d.createNew_cases name with ⟨-, hfiles, hmoments⟩ | ⟨-, hfiles, hmoments⟩
  · exact .unchanged h hfiles hmoments
  · refine ⟨hfiles ▸ hnew, fun m hm => ?_⟩
    rw [hmoments, List.mem_append, List.mem_singleton] at hm
    rcases hm with hm | rfl
    · exact Or.inl hm
    · exact Or.inr hnew

theorem Through.swap {step : Bool × Device} {files : Dir Bytes} (hstep : d.Swaps files step)
    (h : P d.files) (hnew : P files) : Through P d step.2 := by
  rcases hstep with ⟨-, hfiles, hmoments⟩ | ⟨-, hfiles, hmoments⟩
  · exact .unchanged h hfiles hmoments
  · refine ⟨hfiles ▸ hnew, fun m hm => ?_⟩
    rw [hmoments, List.mem_append, List.mem_singleton] at hm
    rcases hm with hm | rfl
    · exact Or.inl hm
    · exact Or.inr hnew

theorem Through.writeAll {name : ℕ} {bytes : Bytes}
    (h : ∀ n, P (d.files.modify name (· ++ bytes.take n))) :
    Through P d (d.writeAll name bytes).2 := by
  obtain ⟨n, hfiles, -, hmoments⟩ := d.writeAll_spec name bytes
  exact ⟨hfiles ▸ h n, fun m hm => (hmoments m hm).imp_right fun ⟨k, hk⟩ => hk ▸ h k⟩

end Through

end Device

end DistrHnsw
