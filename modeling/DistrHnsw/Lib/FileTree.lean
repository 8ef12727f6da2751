import DistrHnsw.Lib.Bytes
import Mathlib.Algebra.BigOperators.Group.List.Basic
import Mathlib.Data.List.AList
import Mathlib.Data.List.Sort
import Mathlib.Order.Defs.LinearOrder

/-!
# File trees

Directories and files under their paths, with the calls a program makes on them.  A path lists its
names from the innermost out, so a directory's entries are the paths one name longer.  What a node
stands in is a directory, in every value of the type.
-/

namespace DistrHnsw

/-- A directory, or a file with its content. -/
inductive Node where
  | dir
  | file (content : Bytes)
deriving DecidableEq

/-- Why a call did nothing. -/
inductive IoError where
  | notFound
  | alreadyExists
  | other
deriving DecidableEq, Repr

/-- The nodes there are, each under its path. -/
structure FileTree (ν : Type) [LinearOrder ν] where
  nodes : AList fun _ : List ν => Node
  root : nodes.lookup [] = some .dir
  parents : ∀ name parent, name :: parent ∈ nodes → nodes.lookup parent = some .dir

namespace FileTree

variable {ν : Type} [LinearOrder ν] (t : FileTree ν)

/-! ## Looking -/

def node? (path : List ν) : Option Node := t.nodes.lookup path

def isDir (path : List ν) : Bool := t.node? path = some .dir

/-- The content of the file under a path. -/
def file? (path : List ν) : Option Bytes :=
  match t.node? path with
  | some (.file content) => some content
  | _ => none

/-- The name under which a path is an entry of the directory `path`. -/
def entryOf (path : List ν) : List ν → Option ν
  | name :: parent => if parent = path then some name else none
  | [] => none

/-- The names in a directory, in no particular order. -/
def readDir (path : List ν) : Option (List ν) :=
  if t.isDir path then some (t.nodes.keys.filterMap (entryOf path)) else none

/-- The names in a directory in increasing order. -/
def sortedEntries (path : List ν) : Option (List ν) :=
  (t.readDir path).map fun names => names.mergeSort fun a b => decide (a ≤ b)

variable {t} {path other parent : List ν} {content : Bytes} {name : ν}

theorem isDir_iff : t.isDir path = true ↔ t.node? path = some .dir := decide_eq_true_iff

theorem isDir_eq_false_iff : t.isDir path = false ↔ t.node? path ≠ some .dir := decide_eq_false_iff_not

theorem file?_eq_some : t.file? path = some content ↔ t.node? path = some (.file content) := by
  unfold file?
  split <;> simp_all

theorem node?_ne_none : t.node? path ≠ none ↔ path ∈ t.nodes := by
  rw [ne_eq, node?, AList.lookup_eq_none, not_not]

theorem mem_entries {node : Node} : ⟨path, node⟩ ∈ t.nodes.entries ↔ t.node? path = some node :=
  AList.mem_lookup_iff.symm

theorem node?_of_file (h : t.file? path = some content) : t.node? path ≠ none := by
  rw [file?_eq_some.1 h]
  exact Option.some_ne_none _

theorem node?_of_isDir (h : t.isDir path = true) : t.node? path ≠ none := by
  rw [isDir_iff.1 h]
  exact Option.some_ne_none _

/-- What a node stands in is a directory. -/
theorem isDir_parent (h : t.node? (name :: parent) ≠ none) : t.isDir parent = true :=
  isDir_iff.2 (t.parents name parent (node?_ne_none.1 h))

theorem not_isDir_of_file (h : t.file? path = some content) : t.isDir path = false := by
  rw [isDir, file?_eq_some.1 h]
  rfl

theorem isDir_parent_of_file (h : t.file? (name :: parent) = some content) : t.isDir parent = true :=
  isDir_parent (node?_of_file h)

theorem entryOf_eq_some : entryOf path other = some name ↔ other = name :: path := by
  cases other with
  | nil => simp [entryOf]
  | cons n parent => by_cases h : parent = path <;> simp [entryOf, h]

theorem readDir_eq_some {names : List ν} (h : t.readDir path = some names) :
    names = t.nodes.keys.filterMap (entryOf path) := by
  unfold readDir at h
  split at h
  · exact (Option.some.inj h).symm
  · cases h

theorem mem_readDir {names : List ν} (h : t.readDir path = some names) :
    name ∈ names ↔ t.node? (name :: path) ≠ none := by
  rw [readDir_eq_some h, List.mem_filterMap, node?_ne_none, AList.mem_keys]
  simp only [entryOf_eq_some, exists_eq_right]

/-- A directory names each of its entries once. -/
theorem nodup_readDir {names : List ν} (h : t.readDir path = some names) : names.Nodup := by
  rw [readDir_eq_some h]
  refine t.nodes.keys_nodup.filterMap fun p q n hp hq => ?_
  rw [entryOf_eq_some.1 hp, entryOf_eq_some.1 hq]

theorem sortedEntries_eq_some {names : List ν} (h : t.sortedEntries path = some names) :
    names.Pairwise (· < ·) ∧ ∀ name, name ∈ names ↔ t.node? (name :: path) ≠ none := by
  obtain ⟨read, hread, rfl⟩ := Option.map_eq_some_iff.1 h
  constructor
  · have hsorted : (read.mergeSort fun a b => decide (a ≤ b)).Pairwise
        fun a b => decide (a ≤ b) = true :=
      List.pairwise_mergeSort (by simpa using fun a b c => le_trans) (by simpa using le_total) read
    have hnodup : (read.mergeSort fun a b => decide (a ≤ b)).Nodup :=
      (List.mergeSort_perm read _).nodup_iff.2 (nodup_readDir hread)
    exact (hsorted.and hnodup).imp fun h => lt_of_le_of_ne (of_decide_eq_true h.1) h.2
  · intro name
    rw [List.mem_mergeSort]
    exact mem_readDir hread

theorem sortedEntries_isSome : (t.sortedEntries path).isSome = t.isDir path := by
  unfold sortedEntries readDir
  split <;> simp_all

/-! ## Changing -/

variable (t)

/-- Put a node in a directory, over nothing or over a file. -/
def put (name : ν) (parent : List ν) (node : Node) (hparent : t.isDir parent = true)
    (hfree : t.isDir (name :: parent) = false) : FileTree ν where
  nodes := t.nodes.insert (name :: parent) node
  root := by rw [AList.lookup_insert_ne (by simp), t.root]
  parents n p hmem := by
    have hdir : t.nodes.lookup p = some .dir := by
      rcases (AList.mem_insert _).1 hmem with heq | hmem
      · obtain ⟨rfl, rfl⟩ := List.cons.inj heq
        exact isDir_iff.1 hparent
      · exact t.parents n p hmem
    have hne : p ≠ name :: parent := by
      rintro rfl
      exact isDir_eq_false_iff.1 hfree hdir
    rw [AList.lookup_insert_ne hne, hdir]

/-- Take a file away. -/
def drop (path : List ν) (hfile : t.isDir path = false) : FileTree ν where
  nodes := t.nodes.erase path
  root := by
    rw [AList.lookup_erase_ne, t.root]
    rintro rfl
    exact isDir_eq_false_iff.1 hfile t.root
  parents n p hmem := by
    have hdir := t.parents n p (AList.mem_erase.1 hmem).2
    rw [AList.lookup_erase_ne, hdir]
    rintro rfl
    exact isDir_eq_false_iff.1 hfile hdir

/-- Make a new node in an existing directory. -/
def create (node : Node) : List ν → Except IoError (FileTree ν)
  | [] => .error .alreadyExists
  | name :: parent =>
    if hnew : t.node? (name :: parent) = none then
      if hparent : t.isDir parent = true then
        .ok (t.put name parent node hparent (by rw [isDir, hnew]; rfl))
      else .error .notFound
    else .error .alreadyExists

def createDir (path : List ν) : Except IoError (FileTree ν) := t.create .dir path

/-- Make an empty file that was not there. -/
def createNew (path : List ν) : Except IoError (FileTree ν) := t.create (.file []) path

/-- Append to a file. -/
def append : List ν → Bytes → FileTree ν
  | [], _ => t
  | name :: parent, bytes =>
    match hfile : t.file? (name :: parent) with
    | none => t
    | some content =>
      t.put name parent (.file (content ++ bytes)) (isDir_parent_of_file hfile)
        (not_isDir_of_file hfile)

def removeFile (path : List ν) : Except IoError (FileTree ν) :=
  match t.node? path with
  | none => .error .notFound
  | some _ => if hfile : t.isDir path = false then .ok (t.drop path hfile) else .error .other

/-- Move a file over a name that is free or a file's. -/
def rename (source : List ν) : List ν → Except IoError (FileTree ν)
  | [] => .error .other
  | name :: parent =>
    match t.file? source, t.removeFile source with
    | some content, .ok t =>
      if h : t.isDir parent = true ∧ t.isDir (name :: parent) = false then
        .ok (t.put name parent (.file content) h.1 h.2)
      else .error .other
    | _, _ => .error .notFound

/-! ## What a change leaves -/

variable {t} {t' : FileTree ν} {node : Node} {bytes : Bytes} {source target : List ν}

theorem node?_put {hparent : t.isDir parent = true} {hfree : t.isDir (name :: parent) = false} :
    (t.put name parent node hparent hfree).node? path =
      if path = name :: parent then some node else t.node? path := by
  unfold node? put
  split
  · subst path
    exact AList.lookup_insert _
  · exact AList.lookup_insert_ne ‹_›

theorem node?_drop {hfile : t.isDir path = false} :
    (t.drop path hfile).node? other = if other = path then none else t.node? other := by
  unfold node? drop
  split
  · subst other
    exact AList.lookup_erase _ _
  · exact AList.lookup_erase_ne ‹_›

theorem create_eq_ok (h : t.create node path = .ok t') : t.node? path = none ∧
    ∃ name parent hparent hfree, path = name :: parent ∧ t' = t.put name parent node hparent hfree := by
  cases path with
  | nil => cases h
  | cons name parent =>
    rw [create] at h
    split at h
    · split at h
      · exact ⟨‹_›, name, parent, _, _, rfl, (Except.ok.inj h).symm⟩
      · cases h
    · cases h

theorem create_ok (hnew : t.node? (name :: parent) = none) (hparent : t.isDir parent = true) :
    ∃ t', t.create node (name :: parent) = .ok t' := by
  rw [create, dif_pos hnew, dif_pos hparent]
  exact ⟨_, rfl⟩

theorem create_known (h : t.node? path ≠ none) : t.create node path = .error .alreadyExists := by
  cases path with
  | nil => rfl
  | cons name parent => exact dif_neg h

theorem append_of_file (h : t.file? path = some content) (bytes : Bytes) : ∃ name parent hparent hfree,
    path = name :: parent ∧
      t.append path bytes = t.put name parent (.file (content ++ bytes)) hparent hfree := by
  cases path with
  | nil => exact absurd (t.root.symm.trans (file?_eq_some.1 h)) (by simp)
  | cons name parent =>
    rw [append]
    split
    · rename_i hnone
      cases hnone.symm.trans h
    · rename_i old hold
      obtain rfl := Option.some.inj (hold.symm.trans h)
      exact ⟨name, parent, isDir_parent_of_file h, not_isDir_of_file h, rfl, rfl⟩

theorem append_of_none (h : t.file? path = none) : t.append path bytes = t := by
  cases path with
  | nil => rfl
  | cons name parent =>
    rw [append]
    split
    · rfl
    · rename_i old hold
      cases hold.symm.trans h

theorem removeFile_eq_ok (h : t.removeFile path = .ok t') :
    t.node? path ≠ none ∧ ∃ hfile, t' = t.drop path hfile := by
  unfold removeFile at h
  split at h
  · cases h
  · rename_i node hnode
    split at h
    · exact ⟨by simp [hnode], ‹_›, (Except.ok.inj h).symm⟩
    · cases h

theorem rename_eq_ok (h : t.rename source path = .ok t') : ∃ content, t.file? source = some content ∧
    ∃ name parent hfile hparent hfree, path = name :: parent ∧
      t' = (t.drop source hfile).put name parent (.file content) hparent hfree := by
  cases path with
  | nil => cases h
  | cons name parent =>
    rw [rename] at h
    split at h
    · rename_i content rest hsource hremove
      split at h
      · obtain ⟨-, hfile, rfl⟩ := removeFile_eq_ok hremove
        exact ⟨content, hsource, name, parent, hfile, _, _, rfl, (Except.ok.inj h).symm⟩
      · cases h
    · cases h

theorem node?_create (h : t.create node path = .ok t') :
    t'.node? other = if other = path then some node else t.node? other := by
  obtain ⟨-, name, parent, hparent, hfree, rfl, rfl⟩ := create_eq_ok h
  exact node?_put

theorem node?_append (hne : other ≠ path) : (t.append path bytes).node? other = t.node? other := by
  cases hfile : t.file? path with
  | none => rw [append_of_none hfile]
  | some content =>
    obtain ⟨name, parent, hparent, hfree, rfl, hput⟩ := append_of_file hfile bytes
    rw [hput, node?_put, if_neg hne]

theorem file?_append (h : t.file? path = some content) :
    (t.append path bytes).file? path = some (content ++ bytes) := by
  obtain ⟨name, parent, hparent, hfree, rfl, hput⟩ := append_of_file h bytes
  rw [hput, file?_eq_some, node?_put, if_pos rfl]

theorem node?_removeFile (h : t.removeFile path = .ok t') (hne : other ≠ path) :
    t'.node? other = t.node? other := by
  obtain ⟨-, hfile, rfl⟩ := removeFile_eq_ok h
  rw [node?_drop, if_neg hne]

theorem node?_rename (h : t.rename source path = .ok t') (hsource : other ≠ source)
    (htarget : other ≠ path) : t'.node? other = t.node? other := by
  obtain ⟨content, -, name, parent, hfile, hparent, hfree, rfl, rfl⟩ := rename_eq_ok h
  rw [node?_put, if_neg htarget, node?_drop, if_neg hsource]

/-! ## Weighing -/

/-- The nodes weighed one by one. -/
def weigh (weight : List ν → Node → ℕ) (t : FileTree ν) : ℕ :=
  (t.nodes.entries.map fun entry => weight entry.1 entry.2).sum

/-- What the node under one path weighs. -/
def weighAt (weight : List ν → Node → ℕ) (t : FileTree ν) (path : List ν) : ℕ :=
  (t.node? path).elim 0 (weight path)

variable {weight : List ν → Node → ℕ}

/-- A node taken out of a list of nodes. -/
theorem sum_kerase (l : List ((_ : List ν) × Node)) :
    ((l.kerase path).map fun entry => weight entry.1 entry.2).sum +
      (l.dlookup path).elim 0 (weight path) = (l.map fun entry => weight entry.1 entry.2).sum := by
  induction l with
  | nil => simp
  | cons entry l ih =>
    obtain ⟨p, node⟩ := entry
    by_cases h : path = p
    · subst h
      simp [List.kerase_cons_eq, Nat.add_comm]
    · rw [List.kerase_cons_ne h, List.dlookup_cons_ne _ _ h]
      simp only [List.map_cons, List.sum_cons]
      omega

theorem weigh_drop {hfile : t.isDir path = false} :
    (t.drop path hfile).weigh weight + t.weighAt weight path = t.weigh weight :=
  sum_kerase t.nodes.entries

theorem weigh_put {hparent : t.isDir parent = true} {hfree : t.isDir (name :: parent) = false} :
    (t.put name parent node hparent hfree).weigh weight + t.weighAt weight (name :: parent) =
      t.weigh weight + weight (name :: parent) node := by
  have hsum : (((t.nodes.entries.kerase (name :: parent)).map fun entry =>
      weight entry.1 entry.2).sum + (t.nodes.entries.dlookup (name :: parent)).elim 0
        (weight (name :: parent)) = (t.nodes.entries.map fun entry => weight entry.1 entry.2).sum) :=
    sum_kerase t.nodes.entries
  unfold weigh weighAt put node? AList.lookup AList.insert List.kinsert
  simp only [List.map_cons, List.sum_cons]
  omega

theorem weigh_create (h : t.create node path = .ok t') :
    t'.weigh weight = t.weigh weight + weight path node := by
  obtain ⟨hnone, name, parent, hparent, hfree, rfl, rfl⟩ := create_eq_ok h
  have hput : (t.put name parent node hparent hfree).weigh weight +
      t.weighAt weight (name :: parent) = t.weigh weight + weight (name :: parent) node := weigh_put
  rw [weighAt, hnone] at hput
  simpa using hput

theorem weigh_append (h : t.file? path = some content) : (t.append path bytes).weigh weight +
    weight path (.file content) = t.weigh weight + weight path (.file (content ++ bytes)) := by
  obtain ⟨name, parent, hparent, hfree, rfl, hput⟩ := append_of_file h bytes
  have hold : t.weighAt weight (name :: parent) = weight (name :: parent) (.file content) := by
    rw [weighAt, file?_eq_some.1 h]
    rfl
  rw [hput, ← hold]
  exact weigh_put

theorem weigh_rename (hne : path ≠ source) (hfile : t.file? source = some content)
    (h : t.rename source path = .ok t') :
    t'.weigh weight + t.weighAt weight source + t.weighAt weight path =
      t.weigh weight + weight path (.file content) := by
  obtain ⟨moved, hmoved, name, parent, hdrop, hparent, hfree, rfl, rfl⟩ := rename_eq_ok h
  obtain rfl := Option.some.inj (hmoved.symm.trans hfile)
  have hput : ((t.drop source hdrop).put name parent (.file moved) hparent hfree).weigh weight +
      (t.drop source hdrop).weighAt weight (name :: parent) =
        (t.drop source hdrop).weigh weight + weight (name :: parent) (.file moved) := weigh_put
  have hleft : (t.drop source hdrop).weigh weight + t.weighAt weight source = t.weigh weight :=
    weigh_drop
  have hother : (t.drop source hdrop).weighAt weight (name :: parent) =
      t.weighAt weight (name :: parent) := by
    rw [weighAt, node?_drop, if_neg hne, weighAt]
  omega

theorem weigh_removeFile (h : t.removeFile path = .ok t') :
    t'.weigh weight + t.weighAt weight path = t.weigh weight := by
  obtain ⟨-, hfile, rfl⟩ := removeFile_eq_ok h
  exact weigh_drop

end FileTree

end DistrHnsw
