import DistrHnsw.Agent.Paging
import Mathlib.Logic.Relation

/-!
# What a call does to the volume

Every step of a PUT or a DELETE makes at most one change to the volume, of one of seven kinds.  Each
of them leaves a volume that PUTs leave, so every volume of a run lists as the plain walk says.
-/

namespace DistrHnsw.Agent

/-- The changes a call may make to the volume: it makes the prefix directories of its object, creates,
fills, moves or removes its temporary file, or removes the object. -/
inductive Touch (kind : ObjectKind) (hash : ObjectHash) (uuid : Name) : Volume → Volume → Prop
  | none (v : Volume) : Touch kind hash uuid v v
  | makeFirst {v v' : Volume} (ok : v.createDir (firstPrefix kind hash) = .ok v') :
      Touch kind hash uuid v v'
  | makeSecond {v v' : Volume} (ok : v.createDir (parentOf kind hash) = .ok v') :
      Touch kind hash uuid v v'
  | create {v v' : Volume} (ok : v.createNew (temporaryName uuid :: parentOf kind hash) = .ok v') :
      Touch kind hash uuid v v'
  | fill {v : Volume} (bytes : Bytes) :
      Touch kind hash uuid v (v.append (temporaryName uuid :: parentOf kind hash) bytes)
  | move {v v' : Volume}
      (ok : v.rename (temporaryName uuid :: parentOf kind hash) (objectPath kind hash) = .ok v') :
      Touch kind hash uuid v v'
  | sweep {v v' : Volume} (ok : v.removeFile (temporaryName uuid :: parentOf kind hash) = .ok v') :
      Touch kind hash uuid v v'
  | remove {v v' : Volume} (ok : v.removeFile (objectPath kind hash) = .ok v') :
      Touch kind hash uuid v v'

theorem Put.touch [Digests] (p : Put) (fault : Option Fault) (s : State) (phase : Put.Phase) :
    Touch p.kind p.expected p.uuid s.volume (p.step fault s phase).2.volume := by
  cases phase with
  | ensureFirst =>
    simp only [Put.step, Put.ensure]
    split
    · exact .none _
    · split
      · exact .makeFirst ‹_›
      · exact .none _
      · exact .none _
  | ensureSecond =>
    simp only [Put.step, Put.ensure]
    split
    · exact .none _
    · split
      · exact .makeSecond ‹_›
      · exact .none _
      · exact .none _
  | checkFirst | checkSecond =>
    simp only [Put.step, Put.check]
    split <;> exact .none _
  | get =>
    simp only [Put.step]
    split
    · exact .none _
    · split <;> exact .none _
  | syncKnown left => cases left <;> exact .none _
  | create replaced =>
    simp only [Put.step]
    split
    · exact .none _
    · split
      · exact .create ‹_›
      · exact .none _
  | write replaced =>
    cases fault with
    | none => exact .fill _
    | some fault => exact .fill _
  | rename replaced =>
    simp only [Put.step]
    split
    · exact .none _
    · split
      · exact .move ‹_›
      · exact .none _
  | clean error =>
    simp only [Put.step]
    split
    · exact .none _
    · split
      · exact .sweep ‹_›
      · exact .none _
  | _ => exact .none _

theorem Delete.touch (d : Delete) (uuid : Name) (fault : Option Fault) (s : State)
    (phase : Delete.Phase) : Touch d.kind d.hash uuid s.volume (d.step fault s phase).2.volume := by
  cases phase with
  | metadata =>
    simp only [Delete.step]
    split
    · exact .none _
    · split <;> exact .none _
  | remove size =>
    simp only [Delete.step]
    split
    · exact .none _
    · split
      · exact .remove ‹_›
      · exact .none _
  | _ => exact .none _

/-! ## Laid volumes stay laid -/

variable {v v' : Volume} {kind : ObjectKind} {hash : ObjectHash} {name uuid : Name}
  {path parent : List Name} {node : Node}

theorem isHexPrefix_first (hash : ObjectHash) : isHexPrefix hash.first = true := by
  refine decide_eq_true ⟨?_, fun c hc => hash.digits c (List.mem_of_mem_take hc)⟩
  rw [ObjectHash.first, List.length_take, hash.length]
  rfl

theorem isHexPrefix_second (hash : ObjectHash) : isHexPrefix hash.second = true := by
  refine decide_eq_true ⟨?_, fun c hc =>
    hash.digits c (List.mem_of_mem_drop (List.mem_of_mem_take hc))⟩
  rw [ObjectHash.second, List.length_take, List.length_drop, hash.length]
  rfl

theorem isTemporary_temporaryName (uuid : Name) : isTemporary (temporaryName uuid) = true :=
  decide_eq_true ⟨rfl, ⟨'.' :: uuid, rfl⟩⟩

theorem Laid.put (hv : Laid v) {hparent : v.isDir parent = true}
    {hfree : v.isDir (name :: parent) = false} (hfits : Fits (name :: parent) node) :
    Laid (v.put name parent node hparent hfree) where
  kinds kind := by
    rw [FileTree.isDir_iff, FileTree.node?_put, if_neg]
    · exact FileTree.isDir_iff.1 (hv.kinds kind)
    · intro h
      rw [← h, hv.kinds kind] at hfree
      cases hfree
  fits path found hfound := by
    rw [FileTree.node?_put] at hfound
    split at hfound
    · subst path
      exact Option.some.inj hfound ▸ hfits
    · exact hv.fits path found hfound

theorem Laid.drop (hv : Laid v) {hfile : v.isDir path = false} : Laid (v.drop path hfile) where
  kinds kind := by
    rw [FileTree.isDir_iff, FileTree.node?_drop, if_neg]
    · exact FileTree.isDir_iff.1 (hv.kinds kind)
    · intro h
      rw [← h, hv.kinds kind] at hfile
      cases hfile
  fits other found hfound := by
    rw [FileTree.node?_drop] at hfound
    split at hfound
    · cases hfound
    · exact hv.fits other found hfound

theorem fits_temporary (kind : ObjectKind) (hash : ObjectHash) (uuid : Name) (content : Bytes) :
    Fits (temporaryName uuid :: parentOf kind hash) (.file content) :=
  ⟨by simp, .inl (isTemporary_temporaryName uuid)⟩

theorem fits_object (kind : ObjectKind) (hash : ObjectHash) (content : Bytes) :
    Fits (objectPath kind hash) (.file content) := ⟨by simp, .inr ⟨hash, rfl, rfl, rfl⟩⟩

theorem Laid.create (hv : Laid v) (h : v.create node path = .ok v') (hfits : Fits path node) :
    Laid v' := by
  obtain ⟨-, name, parent, hparent, hfree, rfl, rfl⟩ := FileTree.create_eq_ok h
  exact hv.put hfits

theorem Laid.removeFile (hv : Laid v) (h : v.removeFile path = .ok v') : Laid v' := by
  obtain ⟨-, hfile, rfl⟩ := FileTree.removeFile_eq_ok h
  exact hv.drop

theorem Laid.touch (hv : Laid v) (h : Touch kind hash uuid v v') : Laid v' := by
  cases h with
  | none => exact hv
  | makeFirst ok => exact hv.create ok ⟨rfl, isHexPrefix_first hash⟩
  | makeSecond ok => exact hv.create ok ⟨rfl, isHexPrefix_second hash⟩
  | create ok => exact hv.create ok (fits_temporary kind hash uuid [])
  | fill bytes =>
    cases hfile : v.file? (temporaryName uuid :: parentOf kind hash) with
    | none => rwa [FileTree.append_of_none hfile]
    | some content =>
      obtain ⟨name, parent, hparent, hfree, hpath, h⟩ := FileTree.append_of_file hfile bytes
      rw [h]
      exact hv.put (hpath ▸ fits_temporary kind hash uuid _)
  | move ok =>
    obtain ⟨content, -, name, parent, hfile, hparent, hfree, hpath, rfl⟩ := FileTree.rename_eq_ok ok
    exact hv.drop.put (hpath ▸ fits_object kind hash content)
  | sweep ok => exact hv.removeFile ok
  | remove ok => exact hv.removeFile ok

theorem Call.touch [Digests] (call : Call) (fault : Option Fault) (s : State) :
    ∃ kind hash uuid, Touch kind hash uuid s.volume (call.step fault s).2.volume := by
  cases call with
  | put p phase => exact ⟨_, _, _, p.touch fault s phase⟩
  | delete d phase => exact ⟨_, _, [], d.touch [] fault s phase⟩

theorem Laid.step [Digests] {allowed : Option Fault → State → Call → Prop} {server server' : Server}
    (h : server.StepIf allowed server') (hv : Laid server.state.volume) :
    Laid server'.state.volume := by
  cases h with
  | start starts fresh => exact hv
  | advance before call after fault allows =>
    obtain ⟨kind, hash, uuid, h⟩ := call.touch fault _
    exact hv.touch h

/-- Every volume of a run is laid. -/
theorem Laid.run [Digests] {allowed : Option Fault → State → Call → Prop} {server server' : Server}
    (h : Relation.ReflTransGen (Server.StepIf allowed) server server')
    (hv : Laid server.state.volume) : Laid server'.state.volume := by
  induction h with
  | refl => exact hv
  | tail _ last ih => exact ih.step last

end DistrHnsw.Agent
