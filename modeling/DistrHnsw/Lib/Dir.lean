import Mathlib.Data.List.Nodup
import Mathlib.Order.Nat
import Mathlib.Tactic.Common

/-!
# Directories of numbered files

A directory whose files are named by numbers, listed in increasing order of name.  The order is
part of the value, so a directory with two files of one name cannot be built.
-/

namespace DistrHnsw

variable {α : Type}

/-- Files named by numbers, in increasing order of name. -/
@[ext]
structure Dir (α : Type) where
  files : List (ℕ × α)
  sorted : files.Pairwise fun a b => a.1 < b.1

namespace Dir

/-- The directory without files. -/
def empty : Dir α := ⟨[], List.Pairwise.nil⟩

def names (d : Dir α) : List ℕ := d.files.map Prod.fst

/-- The content of the file `name`. -/
def get? (d : Dir α) (name : ℕ) : Option α := (d.files.find? fun file => file.1 == name).map Prod.snd

/-- Keep the files whose name passes. -/
def filterNames (d : Dir α) (keep : ℕ → Bool) : Dir α :=
  ⟨d.files.filter fun file => keep file.1, d.sorted.filter _⟩

/-- Remove the file `name`. -/
def erase (d : Dir α) (name : ℕ) : Dir α := d.filterNames (· != name)

/-- Create or replace the file `name`. -/
def put (d : Dir α) (name : ℕ) (content : α) : Dir α where
  files := d.files.filter (fun file => decide (file.1 < name)) ++
    (name, content) :: d.files.filter fun file => decide (name < file.1)
  sorted := by
    rw [List.pairwise_append, List.pairwise_cons]
    refine ⟨d.sorted.filter _, ⟨fun file hfile => ?_, d.sorted.filter _⟩, fun file hfile => ?_⟩
    · exact of_decide_eq_true (List.mem_filter.1 hfile).2
    · have hlt := of_decide_eq_true (List.mem_filter.1 hfile).2
      intro other hother
      rcases List.mem_cons.1 hother with rfl | hother
      · exact hlt
      · exact hlt.trans (of_decide_eq_true (List.mem_filter.1 hother).2)

/-- Change the content of the file `name`, if there is one. -/
def modify (d : Dir α) (name : ℕ) (f : α → α) : Dir α where
  files := d.files.map fun file => if file.1 = name then (file.1, f file.2) else file
  sorted := by
    rw [List.pairwise_map]
    refine d.sorted.imp fun {a b} h => ?_
    split <;> split <;> exact h

/-! ## Listing -/

theorem sorted_names (d : Dir α) : d.names.Pairwise (· < ·) := by
  rw [names, List.pairwise_map]
  exact d.sorted

theorem mem_names {d : Dir α} {name : ℕ} : name ∈ d.names ↔ ∃ content, (name, content) ∈ d.files := by
  simp [names]

/-- Two entries of one name are the same file. -/
theorem content_unique {d : Dir α} {name : ℕ} {a b : α} (ha : (name, a) ∈ d.files)
    (hb : (name, b) ∈ d.files) : a = b := by
  have hnodup : (d.files.map Prod.fst).Nodup := d.sorted_names.imp fun h => Nat.ne_of_lt h
  exact congrArg Prod.snd (List.inj_on_of_nodup_map hnodup ha hb rfl)

theorem get?_eq_some {d : Dir α} {name : ℕ} {content : α} :
    d.get? name = some content ↔ (name, content) ∈ d.files := by
  unfold get?
  constructor
  · intro h
    obtain ⟨file, hfind, rfl⟩ := Option.map_eq_some_iff.1 h
    have hname : file.1 = name := by simpa using List.find?_some hfind
    exact hname ▸ List.mem_of_find?_eq_some hfind
  · intro hmem
    cases hfind : d.files.find? fun file => file.1 == name with
    | none => exact absurd (List.find?_eq_none.1 hfind _ hmem) (by simp)
    | some file =>
      have hname : file.1 = name := by simpa using List.find?_some hfind
      have hfile : (name, file.2) ∈ d.files := hname ▸ List.mem_of_find?_eq_some hfind
      exact congrArg some (content_unique hfile hmem)

/-- The newest file has the largest name. -/
theorem lt_of_files_eq {d : Dir α} {init : List (ℕ × α)} {last : ℕ × α}
    (h : d.files = init ++ [last]) {file : ℕ × α} (hfile : file ∈ init) : file.1 < last.1 := by
  have hsorted := d.sorted
  rw [h, List.pairwise_append] at hsorted
  exact hsorted.2.2 file hfile last (by simp)

/-! ## Changes -/

@[simp] theorem files_empty : (empty : Dir α).files = [] := rfl

theorem mem_put {d : Dir α} {name other : ℕ} {content content' : α} :
    (other, content') ∈ (d.put name content).files ↔
      (other = name ∧ content' = content) ∨ (other ≠ name ∧ (other, content') ∈ d.files) := by
  simp only [put, List.mem_append, List.mem_filter, decide_eq_true_eq, List.mem_cons,
    Prod.mk.injEq]
  constructor
  · rintro (⟨hmem, hlt⟩ | heq | ⟨hmem, hlt⟩)
    · exact Or.inr ⟨Nat.ne_of_lt hlt, hmem⟩
    · exact Or.inl heq
    · exact Or.inr ⟨Nat.ne_of_gt hlt, hmem⟩
  · rintro (heq | ⟨hne, hmem⟩)
    · exact Or.inr (Or.inl heq)
    · rcases Nat.lt_or_gt_of_ne hne with hlt | hgt
      · exact Or.inl ⟨hmem, hlt⟩
      · exact Or.inr (Or.inr ⟨hmem, hgt⟩)

/-- A file named above all others is listed last. -/
theorem files_put_last {d : Dir α} {name : ℕ} {content : α} (h : ∀ file ∈ d.files, file.1 < name) :
    (d.put name content).files = d.files ++ [(name, content)] := by
  have hall : d.files.filter (fun file => decide (file.1 < name)) = d.files :=
    List.filter_eq_self.2 fun file hfile => decide_eq_true (h file hfile)
  have hnone : d.files.filter (fun file => decide (name < file.1)) = [] :=
    List.filter_eq_nil_iff.2 fun file hfile => by
      simpa using (h file hfile).le
  simp only [put, hall, hnone]

/-- Changing the newest file leaves the others. -/
theorem files_modify_last {d : Dir α} {init : List (ℕ × α)} {name : ℕ} {content : α} {f : α → α}
    (h : d.files = init ++ [(name, content)]) :
    (d.modify name f).files = init ++ [(name, f content)] := by
  have hinit : init.map (fun file => if file.1 = name then (file.1, f file.2) else file) = init := by
    refine (List.map_congr_left fun file hfile => ?_).trans (List.map_id init)
    exact if_neg (Nat.ne_of_lt (lt_of_files_eq h hfile))
  simp [modify, h, hinit]

/-- Removing the newest file leaves the others. -/
theorem files_erase_last {d : Dir α} {init : List (ℕ × α)} {name : ℕ} {content : α}
    (h : d.files = init ++ [(name, content)]) : (d.erase name).files = init := by
  have hinit : init.filter (fun file => file.1 != name) = init :=
    List.filter_eq_self.2 fun file hfile => by
      simpa using Nat.ne_of_lt (lt_of_files_eq h hfile)
  simp [erase, filterNames, h, hinit]

/-- Removing the oldest file leaves the others. -/
theorem files_erase_first {d : Dir α} {rest : List (ℕ × α)} {name : ℕ} {content : α}
    (h : d.files = (name, content) :: rest) : (d.erase name).files = rest := by
  have hsorted := d.sorted
  rw [h, List.pairwise_cons] at hsorted
  have hrest : rest.filter (fun file => file.1 != name) = rest :=
    List.filter_eq_self.2 fun file hfile => by
      simpa using Nat.ne_of_gt (hsorted.1 file hfile)
  simp [erase, filterNames, h, hrest]

theorem get?_last {d : Dir α} {init : List (ℕ × α)} {name : ℕ} {content : α}
    (h : d.files = init ++ [(name, content)]) : d.get? name = some content := by
  apply get?_eq_some.2
  rw [h]
  exact List.mem_append_right _ List.mem_cons_self

/-- A name above the newest one is free. -/
theorem get?_eq_none_of_lt {d : Dir α} {name : ℕ} (h : ∀ file ∈ d.files, file.1 < name) :
    d.get? name = none := by
  cases hget : d.get? name with
  | none => rfl
  | some content => exact absurd (h _ (get?_eq_some.1 hget)) (Nat.lt_irrefl name)

end Dir

end DistrHnsw
