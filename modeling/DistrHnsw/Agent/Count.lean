import DistrHnsw.Agent.Open
import DistrHnsw.Lib.Result

/-!
# The byte count

The count and the stored files change at different steps of a call, so between calls in progress
they differ by what the calls still owe.  As long as no step goes astray the debts cancel, and the
count of a quiet store is the sum of the sizes of its objects, as opening it again would find.
-/

namespace DistrHnsw.Agent

/-- The path of an object, not of a directory or a temporary file. -/
def isObjectPath : List Name → Bool
  | [name, _, _, _] => !isTemporary name
  | _ => false

def sizeOf : Node → ℕ
  | .dir => 0
  | .file content => content.length

/-- What a node weighs: the size of an object file. -/
def weightOf (path : List Name) (node : Node) : ℕ := if isObjectPath path then sizeOf node else 0

variable {v v' : Volume} {kind : ObjectKind} {hash : ObjectHash} {uuid : Name} {path : List Name}
  {size : ℕ}

/-! ## The weight of a volume is the sum over the plain walk -/

/-- The object files of a volume under their paths. -/
def objectFiles (v : Volume) : List (List Name × ℕ) :=
  (v.nodes.entries.filter fun entry => isObjectPath entry.1).map fun entry =>
    (entry.1, sizeOf entry.2)

/-- The objects of the plain walks under their paths. -/
def walkedFiles (v : Volume) : List (List Name × ℕ) :=
  ObjectKind.all.flatMap fun kind =>
    (plainWalk v kind).map fun object => (objectPath kind object.hash, object.size)

theorem weigh_eq_sum : v.weigh weightOf = ((objectFiles v).map Prod.snd).sum := by
  unfold FileTree.weigh objectFiles
  induction v.nodes.entries with
  | nil => rfl
  | cons entry entries ih =>
    rw [List.map_cons, List.sum_cons, ih]
    by_cases h : isObjectPath entry.1 = true <;> simp [weightOf, h]

theorem mem_objectFiles : (path, size) ∈ objectFiles v ↔
    isObjectPath path = true ∧ ∃ node, v.node? path = some node ∧ size = sizeOf node := by
  simp only [objectFiles, List.mem_map, List.mem_filter, Prod.mk.injEq, ← FileTree.mem_entries]
  constructor
  · rintro ⟨⟨p, node⟩, ⟨hmem, hobject⟩, rfl, rfl⟩
    exact ⟨hobject, node, hmem, rfl⟩
  · rintro ⟨hobject, node, hmem, rfl⟩
    exact ⟨⟨path, node⟩, ⟨hmem, hobject⟩, rfl, rfl⟩

theorem nodup_objectFiles : (objectFiles v).Nodup := by
  apply List.Nodup.of_map Prod.fst
  unfold objectFiles
  rw [List.map_map]
  exact v.nodes.keys_nodup.sublist (List.filter_sublist.map Sigma.fst)

theorem isObjectPath_objectPath (kind : ObjectKind) (hash : ObjectHash) :
    isObjectPath (objectPath kind hash) = true := by
  show (!isTemporary hash.text) = true
  rw [not_isTemporary]
  rfl

theorem mem_walkedFiles (hv : Laid v) : (path, size) ∈ walkedFiles v ↔
    isObjectPath path = true ∧ ∃ node, v.node? path = some node ∧ size = sizeOf node := by
  simp only [walkedFiles, List.mem_flatMap, List.mem_map, Prod.mk.injEq]
  constructor
  · rintro ⟨kind, -, object, hobject, rfl, rfl⟩
    obtain ⟨content, hfile, hsize⟩ := (mem_plainWalk hv).1 hobject
    exact ⟨isObjectPath_objectPath kind object.hash, _, FileTree.file?_eq_some.1 hfile, hsize⟩
  · rintro ⟨hobject, node, hnode, rfl⟩
    unfold isObjectPath at hobject
    split at hobject
    · rename_i name second first kindName
      obtain ⟨hfile, hname⟩ := hv.fits _ node hnode
      have hsecond : v.isDir [second, first, kindName] = true :=
        FileTree.isDir_parent (by rw [hnode]; exact Option.some_ne_none _)
      have hfirst : v.isDir [first, kindName] = true :=
        FileTree.isDir_parent (FileTree.node?_of_isDir hsecond)
      have hkind : v.isDir [kindName] = true := FileTree.isDir_parent (FileTree.node?_of_isDir hfirst)
      obtain ⟨-, kind, rfl⟩ := hv.fits _ .dir (FileTree.isDir_iff.1 hkind)
      obtain ⟨hash, rfl, rfl, rfl⟩ := hname.resolve_left (by simpa using hobject)
      cases node with
      | dir => exact absurd rfl hfile
      | file content =>
        exact ⟨kind, kind.mem_all, ⟨hash, content.length⟩,
          (mem_plainWalk hv).2 ⟨content, FileTree.file?_eq_some.2 hnode, rfl⟩, rfl, rfl⟩
    · cases hobject

theorem asStr_injective : Function.Injective ObjectKind.asStr := by
  intro a b h
  cases a <;> cases b <;> first | rfl | exact absurd h (by decide)

theorem nodup_walkedFiles (hv : Laid v) : (walkedFiles v).Nodup := by
  unfold walkedFiles
  rw [List.Nodup, List.pairwise_flatMap]
  refine ⟨fun kind _ => ?_, ?_⟩
  · rw [List.pairwise_map]
    refine (plainWalk_sorted hv).imp ?_
    intro a b hlt heq
    obtain ⟨hpath, -⟩ := Prod.mk.inj heq
    rw [(List.cons.inj hpath).1] at hlt
    exact lt_irrefl _ hlt
  · have hkinds : ObjectKind.all.Nodup := by decide
    refine hkinds.imp ?_
    intro a b hne x hx y hy heq
    obtain ⟨o, -, rfl⟩ := List.mem_map.1 hx
    obtain ⟨o', -, rfl⟩ := List.mem_map.1 hy
    simp only [objectPath, parentOf, firstPrefix, namespaceOf, Prod.mk.injEq, List.cons.injEq,
      and_true] at heq
    exact hne (asStr_injective heq.1.2.2.2)

theorem weigh_eq_storedBytes (hv : Laid v) : v.weigh weightOf = storedBytes v := by
  have hperm : (objectFiles v).Perm (walkedFiles v) := by
    refine (List.perm_ext_iff_of_nodup nodup_objectFiles (nodup_walkedFiles hv)).2 fun file => ?_
    rw [mem_objectFiles, mem_walkedFiles hv]
  rw [weigh_eq_sum, (hperm.map Prod.snd).sum_eq, walkedFiles, storedBytes, List.map_flatMap,
    List.map_flatMap]
  simp only [List.map_map, Function.comp_def]

/-! ## What a change weighs -/

theorem weightOf_dir : weightOf path .dir = 0 := by
  unfold weightOf
  split <;> rfl

theorem weightOf_temporary {node : Node} :
    weightOf (temporaryName uuid :: parentOf kind hash) node = 0 := by
  have hnot : isObjectPath (temporaryName uuid :: parentOf kind hash) = false := by
    show (!isTemporary (temporaryName uuid)) = false
    rw [isTemporary_temporaryName]
    rfl
  rw [weightOf, hnot]
  rfl

theorem weighAt_temporary : v.weighAt weightOf (temporaryName uuid :: parentOf kind hash) = 0 := by
  unfold FileTree.weighAt
  cases v.node? (temporaryName uuid :: parentOf kind hash) with
  | none => rfl
  | some node => exact weightOf_temporary

/-- The size of the file under the object's name, 0 if there is none. -/
def sizeAt (v : Volume) (kind : ObjectKind) (hash : ObjectHash) : ℕ :=
  ((v.file? (objectPath kind hash)).map List.length).getD 0

theorem weighAt_object : v.weighAt weightOf (objectPath kind hash) = sizeAt v kind hash := by
  unfold FileTree.weighAt sizeAt FileTree.file? weightOf
  rw [isObjectPath_objectPath]
  cases v.node? (objectPath kind hash) with
  | none => rfl
  | some node => cases node <;> rfl

theorem weigh_createDir (h : v.createDir path = .ok v') : v'.weigh weightOf = v.weigh weightOf := by
  rw [FileTree.weigh_create h, weightOf_dir, Nat.add_zero]

theorem weigh_createNew (h : v.createNew (temporaryName uuid :: parentOf kind hash) = .ok v') :
    v'.weigh weightOf = v.weigh weightOf := by
  rw [FileTree.weigh_create h, weightOf_temporary, Nat.add_zero]

theorem weigh_append {bytes : Bytes} :
    (v.append (temporaryName uuid :: parentOf kind hash) bytes).weigh weightOf = v.weigh weightOf := by
  cases hfile : v.file? (temporaryName uuid :: parentOf kind hash) with
  | none => rw [FileTree.append_of_none hfile]
  | some content =>
    have hweigh : (v.append (temporaryName uuid :: parentOf kind hash) bytes).weigh weightOf + _ = _ :=
      FileTree.weigh_append hfile
    simpa [weightOf_temporary] using hweigh

theorem weigh_sweep (h : v.removeFile (temporaryName uuid :: parentOf kind hash) = .ok v') :
    v'.weigh weightOf = v.weigh weightOf := by
  rw [← FileTree.weigh_removeFile h, weighAt_temporary, Nat.add_zero]

/-- A temporary file never has the name of an object. -/
theorem objectPath_ne_temporary {kind' : ObjectKind} {hash' : ObjectHash} :
    objectPath kind hash ≠ temporaryName uuid :: parentOf kind' hash' := by
  intro heq
  have hname := not_isTemporary hash
  rw [(List.cons.inj heq).1, isTemporary_temporaryName] at hname
  cases hname

theorem weigh_move {content : Bytes}
    (hfile : v.file? (temporaryName uuid :: parentOf kind hash) = some content)
    (h : v.rename (temporaryName uuid :: parentOf kind hash) (objectPath kind hash) = .ok v') :
    v'.weigh weightOf + sizeAt v kind hash = v.weigh weightOf + content.length := by
  have hweigh : v'.weigh weightOf + _ + _ = _ :=
    FileTree.weigh_rename objectPath_ne_temporary hfile h
  have hweight : weightOf (objectPath kind hash) (.file content) = content.length := by
    rw [weightOf, isObjectPath_objectPath]
    rfl
  rwa [weighAt_temporary, Nat.add_zero, weighAt_object, hweight] at hweigh

/-! ## Debts -/

/-- What a call has done to the volume and not yet to the count. -/
def owed : Call → ℤ
  | .put p (.syncParent replaced) => p.bytes.length - replaced
  | .put p (.count replaced) => p.bytes.length - replaced
  | .delete _ (.syncParent size) => -size
  | .delete _ (.count size) => -size
  | _ => 0

/-- The step keeps the books: what is replaced or removed has the size the call read, the directory
sync after it succeeds unless nothing is owed, and the count neither saturates nor overflows. -/
def Straight (fault : Option Fault) (s : State) : Call → Prop
  | .put p (.rename replaced) => fault.isNone → sizeAt s.volume p.kind p.expected = replaced
  | .put p (.syncParent replaced) => fault.isSome → p.bytes.length = replaced
  | .put p (.count replaced) =>
    replaced ≤ s.usedBytes ∧ s.usedBytes - replaced + p.bytes.length < 2 ^ 64
  | .delete d (.remove size) =>
    fault.isNone → s.volume.node? d.path ≠ none → sizeAt s.volume d.kind d.hash = size
  | .delete _ (.syncParent size) => fault.isSome → size = 0
  | .delete _ (.count size) => size ≤ s.usedBytes
  | _ => True

instance (fault : Option Fault) (s : State) (call : Call) : Decidable (Straight fault s call) := by
  unfold Straight
  split <;> infer_instance

/-- The count and what is owed, less what is stored. -/
def error (s : State) (call : Call) : ℤ := s.usedBytes + owed call - s.volume.weigh weightOf

/-- What a PUT has written to its temporary file. -/
def Written (v : Volume) : Call → Prop
  | .put p (.write _) => v.file? p.temporary = some []
  | .put p (.syncFile _) => v.file? p.temporary = some p.bytes
  | .put p (.rename _) => v.file? p.temporary = some p.bytes
  | _ => True

variable [Digests] {fault : Option Fault} {s : State}

theorem Put.error_step (p : Put) (phase : Put.Phase) (hwritten : Written s.volume (.put p phase))
    (hstraight : Straight fault s (.put p phase)) :
    error ((Call.put p phase).step fault s).2 ((Call.put p phase).step fault s).1 =
      error s (.put p phase) := by
  cases phase with
  | ensureFirst | ensureSecond =>
    simp only [Call.step, Put.step, Put.ensure]
    split
    · rfl
    · split
      · rename_i v hv
        simp only [error, owed, weigh_createDir hv]
      · rfl
      · rfl
  | checkFirst | checkSecond =>
    simp only [Call.step, Put.step, Put.check]
    split <;> rfl
  | syncNamespace | syncFirst | existing | syncFile =>
    simp only [Call.step, Put.step, Put.sync]
    split <;> rfl
  | get =>
    simp only [Call.step, Put.step]
    split
    · rfl
    · split
      · rfl
      · rfl
      · split <;> rfl
  | syncKnown left =>
    cases left with
    | nil => rfl
    | cons dir left =>
      simp only [Call.step, Put.step, Put.sync]
      split <;> rfl
  | measure => rfl
  | create replaced =>
    simp only [Call.step, Put.step]
    split
    · rfl
    · split
      · rename_i v hv
        simp only [error, owed, weigh_createNew hv]
      · rfl
  | write replaced =>
    cases fault with
    | none => simp only [Call.step, Put.step, error, owed, Put.temporary, weigh_append]
    | some fault => simp only [Call.step, Put.step, error, owed, Put.temporary, weigh_append]
  | rename replaced =>
    simp only [Call.step, Put.step]
    split
    · rfl
    · rename_i hfault
      split
      · rename_i v hv
        have hsize : sizeAt s.volume p.kind p.expected = replaced := hstraight (by simpa using hfault)
        have hmove := weigh_move hwritten hv
        simp only [error, owed]
        omega
      · rfl
  | syncParent replaced =>
    simp only [Call.step, Put.step, Put.sync]
    split
    · rename_i hfault
      have hsize : p.bytes.length = replaced := hstraight hfault
      simp only [error, owed]
      omega
    · rfl
  | count replaced =>
    obtain ⟨hle, hlt⟩ := hstraight
    simp only [Call.step, Put.step, error, owed, Nat.mod_eq_of_lt hlt]
    omega
  | clean e =>
    simp only [Call.step, Put.step]
    split
    · rfl
    · split
      · rename_i v hv
        simp only [error, owed, weigh_sweep hv]
      · rfl
  | done result => rfl

theorem Delete.error_step (d : Delete) (phase : Delete.Phase)
    (hstraight : Straight fault s (.delete d phase)) :
    error ((Call.delete d phase).step fault s).2 ((Call.delete d phase).step fault s).1 =
      error s (.delete d phase) := by
  cases phase with
  | metadata =>
    simp only [Call.step, Delete.step]
    split
    · rfl
    · split <;> rfl
  | remove size =>
    simp only [Call.step, Delete.step]
    split
    · rfl
    · rename_i hfault
      split
      · rename_i v hv
        have hremoved := FileTree.removeFile_eq_ok hv
        have hsize : sizeAt s.volume d.kind d.hash = size :=
          hstraight (by simpa using hfault) hremoved.1
        have hweigh : v.weigh weightOf + s.volume.weighAt weightOf d.path =
          s.volume.weigh weightOf := FileTree.weigh_removeFile hv
        rw [Delete.path, weighAt_object] at hweigh
        simp only [error, owed]
        omega
      · rfl
  | syncParent size =>
    simp only [Call.step, Delete.step]
    split
    · rename_i hfault
      have hsize : size = 0 := hstraight hfault
      simp only [error, owed]
      omega
    · rfl
  | count size =>
    have hle : size ≤ s.usedBytes := hstraight
    simp only [Call.step, Delete.step, error, owed]
    omega
  | done result => rfl

theorem Call.error_step (call : Call) (hwritten : Written s.volume call)
    (hstraight : Straight fault s call) :
    error (call.step fault s).2 (call.step fault s).1 = error s call := by
  cases call with
  | put p phase => exact p.error_step phase hwritten hstraight
  | delete d phase => exact d.error_step phase hstraight

/-! ## Temporary files -/

omit [Digests] in
/-- A call leaves every file that is neither its temporary file nor its object. -/
theorem Touch.file? {content : Bytes} (h : Touch kind hash uuid v v')
    (htemporary : path ≠ temporaryName uuid :: parentOf kind hash) (hobject : path ≠ objectPath kind hash)
    (hfile : v.file? path = some content) : v'.file? path = some content := by
  have hcreate {node : Node} {made : List Name} {v' : Volume} (ok : v.create node made = .ok v') :
      v'.file? path = some content := by
    have hnode := FileTree.file?_eq_some.1 hfile
    rw [FileTree.file?_eq_some, FileTree.node?_create ok, if_neg, hnode]
    rintro rfl
    cases (FileTree.create_eq_ok ok).1.symm.trans hnode
  cases h with
  | none => exact hfile
  | makeFirst ok => exact hcreate ok
  | makeSecond ok => exact hcreate ok
  | create ok => exact hcreate ok
  | fill bytes =>
    rw [FileTree.file?_eq_some, FileTree.node?_append htemporary]
    exact FileTree.file?_eq_some.1 hfile
  | move ok =>
    rw [FileTree.file?_eq_some, FileTree.node?_rename ok htemporary hobject]
    exact FileTree.file?_eq_some.1 hfile
  | sweep ok =>
    rw [FileTree.file?_eq_some, FileTree.node?_removeFile ok htemporary]
    exact FileTree.file?_eq_some.1 hfile
  | remove ok =>
    rw [FileTree.file?_eq_some, FileTree.node?_removeFile ok hobject]
    exact FileTree.file?_eq_some.1 hfile

/-- A PUT finds in its temporary file what it wrote. -/
theorem Put.written_step (p : Put) (phase : Put.Phase) (hwritten : Written s.volume (.put p phase)) :
    Written ((Call.put p phase).step fault s).2.volume ((Call.put p phase).step fault s).1 := by
  cases phase with
  | ensureFirst | ensureSecond =>
    simp only [Call.step, Put.step, Put.ensure]
    split
    · trivial
    · split <;> trivial
  | checkFirst | checkSecond =>
    simp only [Call.step, Put.step, Put.check]
    split <;> trivial
  | syncNamespace | syncFirst | existing | syncParent =>
    simp only [Call.step, Put.step, Put.sync]
    split <;> trivial
  | get =>
    simp only [Call.step, Put.step]
    split
    · trivial
    · split
      · trivial
      · trivial
      · split <;> trivial
  | syncKnown left =>
    cases left with
    | nil => trivial
    | cons dir left =>
      simp only [Call.step, Put.step, Put.sync]
      split <;> trivial
  | create replaced =>
    simp only [Call.step, Put.step]
    split
    · trivial
    · split
      · rename_i v hv
        show v.file? p.temporary = some []
        rw [FileTree.file?_eq_some, FileTree.node?_create hv, if_pos rfl]
      · trivial
  | write replaced =>
    cases fault with
    | none => exact FileTree.file?_append hwritten
    | some fault => trivial
  | syncFile replaced =>
    simp only [Call.step, Put.step, Put.sync]
    split
    · trivial
    · exact hwritten
  | rename replaced =>
    simp only [Call.step, Put.step]
    split
    · trivial
    · split <;> trivial
  | clean e =>
    simp only [Call.step, Put.step]
    split
    · trivial
    · split <;> trivial
  | measure | count | done => trivial

/-! ## The books -/

/-- No two calls share a temporary file. -/
def Apart (a b : Call) : Prop := ∀ path ∈ a.temporary?, b.temporary? ≠ some path

omit [Digests] in
theorem Apart.symm {a b : Call} (h : Apart a b) : Apart b a :=
  fun path hb ha => h path ha hb

/-- What holds between any two straight steps. -/
structure Books (server : Server) : Prop where
  laid : Laid server.state.volume
  written : ∀ call ∈ server.calls, Written server.state.volume call
  apart : server.calls.Pairwise Apart
  bounded : server.state.usedBytes < 2 ^ 64
  balance : (server.state.usedBytes : ℤ) + (server.calls.map owed).sum =
    server.state.volume.weigh weightOf

theorem temporary?_step (call : Call) : (call.step fault s).1.temporary? = call.temporary? := by
  cases call <;> rfl

/-- A call leaves what other PUTs wrote. -/
theorem Written.other {call other : Call} (hwritten : Written s.volume other) (h : Apart call other) :
    Written (call.step fault s).2.volume other := by
  have hkeep {p : Put} {phase : Put.Phase} {content : Bytes} (hother : Apart call (.put p phase))
      (hfile : s.volume.file? p.temporary = some content) :
      (call.step fault s).2.volume.file? p.temporary = some content := by
    cases call with
    | put q phase =>
      refine Touch.file? (q.touch fault s phase) (fun heq => ?_) objectPath_ne_temporary.symm hfile
      exact hother _ rfl (congrArg some heq)
    | delete d phase =>
      refine Touch.file? (d.touch ('.' :: p.uuid) fault s phase) (fun heq => ?_)
        objectPath_ne_temporary.symm hfile
      have hlength := congrArg List.length (List.cons.inj heq).1
      simp [temporaryName] at hlength
  cases other with
  | delete d phase => trivial
  | put p phase =>
    cases phase with
    | write replaced | syncFile replaced | rename replaced => exact hkeep h hwritten
    | _ => trivial

theorem Apart.of_step {call other : Call} (h : Apart call other) :
    Apart (call.step fault s).1 other :=
  fun path hpath => h path (temporary?_step call ▸ hpath)

theorem usedBytes_step (call : Call) (h : s.usedBytes < 2 ^ 64) :
    (call.step fault s).2.usedBytes < 2 ^ 64 := by
  cases call with
  | put p phase =>
    cases phase with
    | count replaced => exact Nat.mod_lt _ (by decide)
    | syncKnown left => cases left <;> exact h
    | write replaced => cases fault <;> exact h
    | ensureFirst | ensureSecond | get | create | rename | clean =>
      simp only [Call.step, Put.step, Put.ensure]
      split
      · exact h
      · split <;> exact h
    | checkFirst | checkSecond =>
      simp only [Call.step, Put.step, Put.check]
      split <;> exact h
    | _ => exact h
  | delete d phase =>
    cases phase with
    | count size => exact lt_of_le_of_lt (Nat.sub_le _ _) h
    | metadata | remove =>
      simp only [Call.step, Delete.step]
      split
      · exact h
      · split <;> exact h
    | _ => exact h

theorem Starts.clean {call : Call} (h : call.Starts) (v : Volume) : owed call = 0 ∧ Written v call := by
  cases h with
  | delete d => exact ⟨rfl, trivial⟩
  | put p =>
    unfold Put.start
    split
    · exact ⟨rfl, trivial⟩
    · exact ⟨rfl, trivial⟩

theorem Books.step {server server' : Server} (h : Books server)
    (hstep : server.StepIf Straight server') : Books server' := by
  have hlaid := Laid.step hstep h.laid
  cases hstep with
  | @start s calls call starts fresh =>
    obtain ⟨howed, hwritten⟩ := Starts.clean starts s.volume
    refine ⟨hlaid, ?_, ?_, h.bounded, ?_⟩
    · intro other hother
      rcases List.mem_append.1 hother with hother | hother
      · exact h.written other hother
      · rwa [List.mem_singleton.1 hother]
    · refine List.pairwise_append.2 ⟨h.apart, List.pairwise_singleton _ _, fun a ha b hb => ?_⟩
      obtain rfl := List.mem_singleton.1 hb
      exact Apart.symm fun path hpath => (fresh path hpath).2 a ha
    · have hbalance : (s.usedBytes : ℤ) + (calls.map owed).sum = s.volume.weigh weightOf := h.balance
      simp only [List.map_append, List.sum_append, List.map_singleton, List.sum_singleton, howed]
      omega
  | @advance s before call after fault allows =>
    have happart := List.pairwise_append.1 h.apart
    obtain ⟨hafter, -⟩ := List.pairwise_cons.1 happart.2.1
    have hothers : ∀ other ∈ before ++ after, Apart call other := by
      intro other hother
      rcases List.mem_append.1 hother with hother | hother
      · exact (happart.2.2 other hother call List.mem_cons_self).symm
      · exact hafter other hother
    have hcall : Written s.volume call := h.written call (by simp)
    refine ⟨hlaid, ?_, ?_, usedBytes_step call h.bounded, ?_⟩
    · intro other hother
      rcases List.mem_append.1 hother with hother | hother
      · exact (h.written other (by simp [hother])).other (hothers other (by simp [hother]))
      · rcases List.mem_cons.1 hother with rfl | hother
        · cases call with
          | put p phase => exact p.written_step phase hcall
          | delete d phase => trivial
        · exact (h.written other (by simp [hother])).other (hothers other (by simp [hother]))
    · refine List.pairwise_append.2 ⟨happart.1, List.pairwise_cons.2 ⟨?_, ?_⟩, ?_⟩
      · exact fun other hother => (hafter other hother).of_step
      · exact (List.pairwise_cons.1 happart.2.1).2
      · intro other hother b hb
        rcases List.mem_cons.1 hb with rfl | hb
        · exact (hothers other (List.mem_append_left _ hother)).of_step.symm
        · exact happart.2.2 other hother b (List.mem_cons_of_mem _ hb)
    · have hbalance : (s.usedBytes : ℤ) + ((before ++ call :: after).map owed).sum =
        s.volume.weigh weightOf := h.balance
      have herror := Call.error_step call hcall allows
      simp only [error] at herror
      simp only [List.map_append, List.sum_append, List.map_cons, List.sum_cons] at hbalance ⊢
      omega

theorem Books.run {server server' : Server} (h : Books server)
    (hrun : Relation.ReflTransGen (Server.StepIf Straight) server server') : Books server' := by
  induction hrun with
  | refl => exact h
  | tail _ last ih => exact ih.step last

omit [Digests] in
/-- An opened store keeps its books. -/
theorem books_open (hv : ∀ path node, v.node? path = some node → Fits path node) {fuel : ℕ}
    (hopen : openStore fuel v = some (.ok s)) (hsize : storedBytes s.volume < 2 ^ 64) :
    Books ⟨s, []⟩ := by
  obtain ⟨hlaid, hcount⟩ := openStore_counts hv hopen
  refine ⟨hlaid, by simp, List.Pairwise.nil, ?_, ?_⟩
  · rwa [hcount hsize]
  · simp [hcount hsize, weigh_eq_storedBytes hlaid]

omit [Digests] in
theorem owed_of_done {call : Call} (h : call.isDone = true) : owed call = 0 := by
  unfold Call.isDone at h
  split at h
  · rfl
  · rfl
  · cases h

/-- A store that was opened and whose steps were all straight counts, whenever nothing is in
progress, what it stores, as opening it again would. -/
theorem used_bytes_exact (hv : ∀ path node, v.node? path = some node → Fits path node) {fuel : ℕ}
    (hopen : openStore fuel v = some (.ok s)) (hsize : storedBytes s.volume < 2 ^ 64)
    {server : Server} (hrun : Relation.ReflTransGen (Server.StepIf Straight) ⟨s, []⟩ server)
    (hquiet : server.Quiet) : server.state.usedBytes = storedBytes server.state.volume ∧
      ∃ enough, ∀ fuel, enough ≤ fuel →
        openStore fuel server.state.volume = some (.ok server.state) := by
  have hbooks := (books_open hv hopen hsize).run hrun
  have howed : (server.calls.map owed).sum = 0 :=
    List.sum_eq_zero fun debt hdebt => by
      obtain ⟨call, hcall, rfl⟩ := List.mem_map.1 hdebt
      exact owed_of_done (hquiet call hcall)
  have hbalance := hbooks.balance
  rw [howed, weigh_eq_storedBytes hbooks.laid] at hbalance
  have hexact : server.state.usedBytes = storedBytes server.state.volume := by omega
  refine ⟨hexact, ?_⟩
  obtain ⟨enough, hagain⟩ := openStore_laid hbooks.laid (hexact ▸ hbooks.bounded)
  refine ⟨enough, fun fuel hfuel => ?_⟩
  rw [hagain fuel hfuel, ← hexact]

/-! ## A call alone -/

/-- The calls a call makes when nothing else runs. -/
def playOut : List (Option Fault) → Call → State → Call × State
  | [], call, s => (call, s)
  | fault :: faults, call, s => playOut faults (call.step fault s).1 (call.step fault s).2

/-- Each of these steps is allowed. -/
def Allowed (allowed : Option Fault → State → Call → Prop) : List (Option Fault) → Call → State → Prop
  | [], _, _ => True
  | fault :: faults, call, s =>
    allowed fault s call ∧ Allowed allowed faults (call.step fault s).1 (call.step fault s).2

instance decidableAllowed {allowed : Option Fault → State → Call → Prop}
    [∀ fault s call, Decidable (allowed fault s call)] :
    ∀ (faults : List (Option Fault)) (call : Call) (s : State),
      Decidable (Allowed allowed faults call s)
  | [], _, _ => .isTrue trivial
  | fault :: faults, call, s =>
    have : Decidable (Allowed allowed faults (call.step fault s).1 (call.step fault s).2) :=
      decidableAllowed faults _ _
    inferInstanceAs (Decidable (allowed fault s call ∧ _))

theorem run_playOut {allowed : Option Fault → State → Call → Prop} {faults : List (Option Fault)}
    {call : Call} (h : Allowed allowed faults call s) :
    Relation.ReflTransGen (Server.StepIf allowed) ⟨s, [call]⟩
      ⟨(playOut faults call s).2, [(playOut faults call s).1]⟩ := by
  induction faults generalizing call s with
  | nil => exact .refl
  | cons fault faults ih => exact .head (.advance [] call [] fault h.1) (ih h.2)

theorem run_put {allowed : Option Fault → State → Call → Prop} {faults : List (Option Fault)} {p : Put}
    (hfresh : s.volume.node? p.temporary = none) (h : Allowed allowed faults (.put p p.start) s) :
    Relation.ReflTransGen (Server.StepIf allowed) ⟨s, []⟩
      ⟨(playOut faults (.put p p.start) s).2, [(playOut faults (.put p p.start) s).1]⟩ := by
  refine .head (.start (.put p) fun path hpath => ⟨?_, by simp⟩) (run_playOut h)
  obtain rfl := Option.some.inj hpath
  exact hfresh

theorem allowed_true {faults : List (Option Fault)} {call : Call} :
    Allowed (fun _ _ _ => True) faults call s := by
  induction faults generalizing call s with
  | nil => trivial
  | cons fault faults ih => exact ⟨trivial, ih⟩

omit [Digests] in
theorem quiet_singleton {call : Call} (h : call.isDone = true) : Server.Quiet ⟨s, [call]⟩ := by
  intro other hother
  rwa [List.mem_singleton.1 hother]

/-! A put of one byte to a store opened on a fresh volume. -/

def samplePut : Put := ⟨.chunk, @ObjectHash.digest .standard [7], [7], []⟩

def sampleState : Option State := (openStore 1 freshVolume).bind Except.toOption

/-- Where the put stands after the calls. -/
def sampleEnd (faults : List (Option Fault)) (s : State) : Call × State :=
  @playOut .standard faults (.put samplePut (@Put.start samplePut .standard)) s

omit [Digests] in
theorem run_sample {allowed : Option Fault → State → Call → Prop} {faults : List (Option Fault)}
    {s : State} (hfresh : s.volume.node? samplePut.temporary = none)
    (h : @Allowed .standard allowed faults (.put samplePut (@Put.start samplePut .standard)) s) :
    Relation.ReflTransGen (@Server.StepIf .standard allowed) ⟨s, []⟩
      ⟨(sampleEnd faults s).2, [(sampleEnd faults s).1]⟩ :=
  @run_put .standard s allowed faults samplePut hfresh h

omit [Digests] in
/-- The directory sync after the rename fails, and the object is stored but not counted. -/
theorem failed_sync_miscounts : ¬ ∀ (v : Volume) (fuel : ℕ) (s : State) (server : Server),
    (∀ path node, v.node? path = some node → Fits path node) → openStore fuel v = some (.ok s) →
    storedBytes s.volume < 2 ^ 64 → Relation.ReflTransGen (@Server.Step .standard) ⟨s, []⟩ server →
    server.Quiet → server.state.usedBytes = storedBytes server.state.volume := by
  have hplay : (sampleState.map fun s =>
      let last := sampleEnd (List.replicate 9 none ++ [some ⟨0⟩, none]) s
      (s.volume.node? samplePut.temporary, storedBytes s.volume, last.1.isDone, last.2.usedBytes,
        storedBytes last.2.volume)) = some (none, 0, true, 0, 1) := by decide +kernel
  intro h
  obtain ⟨s, hs, hplay⟩ := Option.map_eq_some_iff.1 hplay
  obtain ⟨result, hopen, hresult⟩ := Option.bind_eq_some_iff.1 hs
  simp only [Prod.mk.injEq] at hplay
  obtain ⟨hfresh, hsize, hdone, hused, hstored⟩ := hplay
  have hrun := run_sample hfresh
    (@allowed_true .standard s (List.replicate 9 none ++ [some ⟨0⟩, none]) _)
  generalize sampleEnd (List.replicate 9 none ++ [some ⟨0⟩, none]) s = last at *
  have hexact := h freshVolume 1 s _ fits_fresh (toOption_eq_some.1 hresult ▸ hopen) (by omega) hrun
    (quiet_singleton hdone)
  exact absurd (hused.symm.trans (hexact.trans hstored)) (by decide)

omit [Digests] in
theorem used_bytes_exact_put : ∃ (v : Volume) (s : State) (server : Server),
    openStore 1 v = some (.ok s) ∧
    Relation.ReflTransGen (@Server.StepIf .standard Straight) ⟨s, []⟩ server ∧
    server.state.usedBytes = 1 ∧ server.state.usedBytes = storedBytes server.state.volume := by
  have hplay : (sampleState.map fun s =>
      let last := sampleEnd (List.replicate 11 none) s
      (s.volume.node? samplePut.temporary, storedBytes s.volume,
        decide (@Allowed .standard Straight (List.replicate 11 none)
          (.put samplePut (@Put.start samplePut .standard)) s),
        last.1.isDone, last.2.usedBytes)) = some (none, 0, true, true, 1) := by decide +kernel
  obtain ⟨s, hs, hplay⟩ := Option.map_eq_some_iff.1 hplay
  obtain ⟨result, hopen, hresult⟩ := Option.bind_eq_some_iff.1 hs
  simp only [Prod.mk.injEq, decide_eq_true_eq] at hplay
  obtain ⟨hfresh, hsize, hallowed, hdone, hused⟩ := hplay
  have hok : openStore 1 freshVolume = some (.ok s) := toOption_eq_some.1 hresult ▸ hopen
  have hrun := run_sample hfresh hallowed
  generalize sampleEnd (List.replicate 11 none) s = last at *
  have hexact := @used_bytes_exact freshVolume .standard s fits_fresh 1 hok
    (by omega) _ hrun (quiet_singleton hdone)
  exact ⟨freshVolume, s, _, hok, hrun, hused, hexact.1⟩

end DistrHnsw.Agent
