import DistrHnsw.Lib.Digest
import DistrHnsw.Lib.FileTree
import DistrHnsw.Lib.Text
import Mathlib.Data.Char
import Mathlib.Data.List.Lex

/-!
# The agent's object store

Objects are files under two prefixes of their hash, one namespace for each kind.  A PUT or a DELETE
is a machine that makes one filesystem call or one update of the byte counter at a time; any call
may fail.  Names are texts, compared character by character as the filesystem's bytes are.
-/

namespace DistrHnsw.Agent

abbrev Name := List Char

/-- The volume below the `objects` directory. -/
abbrev Volume := FileTree Name

inductive ObjectKind where
  | chunk
  | manifest
  | deletionMarker
deriving DecidableEq, Repr

def ObjectKind.all : List ObjectKind := [.chunk, .manifest, .deletionMarker]

def ObjectKind.asStr : ObjectKind → Name
  | .chunk => "chunk".toList
  | .manifest => "manifest".toList
  | .deletionMarker => "deletion_marker".toList

/-- A BLAKE3 hash in lowercase hexadecimal. -/
structure ObjectHash where
  text : Name
  length : text.length = 64
  digits : ∀ c ∈ text, c ∈ Hex.lower.digits
deriving DecidableEq

namespace ObjectHash

def parse (text : Name) : Option ObjectHash :=
  if h : text.length = 64 ∧ ∀ c ∈ text, c ∈ Hex.lower.digits then some ⟨text, h.1, h.2⟩ else none

def digest [Digests] (bytes : Bytes) : ObjectHash where
  text := Hex.encode (blake3 bytes).1
  length := by rw [Hex.length_encode, (blake3 bytes).2]
  digits := Hex.encode_digits _

/-- The first two digits. -/
def first (hash : ObjectHash) : Name := hash.text.take 2

/-- The two digits after them. -/
def second (hash : ObjectHash) : Name := (hash.text.drop 2).take 2

@[ext] theorem ext {a b : ObjectHash} (h : a.text = b.text) : a = b := by
  cases a
  cases b
  cases h
  rfl

theorem parse_eq_some {text : Name} {hash : ObjectHash} : parse text = some hash ↔ text = hash.text := by
  unfold parse
  constructor
  · intro h
    split at h
    · exact congrArg ObjectHash.text (Option.some.inj h)
    · cases h
  · rintro rfl
    exact dif_pos ⟨hash.length, hash.digits⟩

end ObjectHash

inductive StoreError where
  | notFound (hash : ObjectHash)
  | hashMismatch (expected actual : ObjectHash)
  | invalidInventoryLimit (limit : ℕ)
  | malformedInventoryEntry (path : List Name)
  | io (error : IoError)

/-- The directory of a kind. -/
def namespaceOf (kind : ObjectKind) : List Name := [kind.asStr]

def firstPrefix (kind : ObjectKind) (hash : ObjectHash) : List Name := hash.first :: namespaceOf kind

def parentOf (kind : ObjectKind) (hash : ObjectHash) : List Name := hash.second :: firstPrefix kind hash

def objectPath (kind : ObjectKind) (hash : ObjectHash) : List Name := hash.text :: parentOf kind hash

/-- The name of a PUT's temporary file. -/
def temporaryName (uuid : Name) : Name := '.' :: uuid ++ ".tmp".toList

def isTemporary (name : Name) : Bool := name.head? = some '.' ∧ ".tmp".toList <:+ name

/-- The volume and the bytes its objects are believed to hold. -/
structure State where
  volume : Volume
  usedBytes : ℕ

/-! ## The machines -/

/-- A call that fails; a failing write fails after `written` bytes. -/
structure Fault where
  written : ℕ

structure Put where
  kind : ObjectKind
  expected : ObjectHash
  bytes : Bytes
  uuid : Name

namespace Put

/-- What a PUT does next. -/
inductive Phase where
  | ensureFirst
  | syncNamespace
  | checkFirst
  | ensureSecond
  | syncFirst
  | checkSecond
  | existing
  | get
  | syncKnown (left : List (List Name))
  | measure
  | create (replacedBytes : ℕ)
  | write (replacedBytes : ℕ)
  | syncFile (replacedBytes : ℕ)
  | rename (replacedBytes : ℕ)
  | syncParent (replacedBytes : ℕ)
  | count (replacedBytes : ℕ)
  | clean (error : StoreError)
  | done (result : Except StoreError Unit)

variable (put : Put)

def finalPath : List Name := objectPath put.kind put.expected

def temporary : List Name := temporaryName put.uuid :: parentOf put.kind put.expected

def start [Digests] : Phase :=
  if ObjectHash.digest put.bytes = put.expected then .ensureFirst
  else .done (.error (.hashMismatch put.expected (ObjectHash.digest put.bytes)))

/-- `create_dir`, the first call of `ensure_child_directory`. -/
def ensure (child : List Name) (made kept : Phase) (fault : Option Fault) (s : State) : Phase × State :=
  if fault.isSome then (.done (.error (.io .other)), s)
  else
    match s.volume.createDir child with
    | .ok volume => (made, { s with volume })
    | .error .alreadyExists => (kept, s)
    | .error error => (.done (.error (.io error)), s)

/-- What `ensure_child_directory` does with a child that was there. -/
def check (child : List Name) (next : Phase) (fault : Option Fault) (s : State) : Phase × State :=
  if fault.isNone ∧ s.volume.isDir child then (next, s)
  else (.done (.error (.io .alreadyExists)), s)

def sync (next failed : Phase) (fault : Option Fault) (s : State) : Phase × State :=
  (if fault.isSome then failed else next, s)

/-- The next call of `put`. -/
def step [Digests] (fault : Option Fault) (s : State) : Phase → Phase × State
  | .ensureFirst =>
    ensure (firstPrefix put.kind put.expected) .syncNamespace .checkFirst fault s
  | .syncNamespace => sync .ensureSecond (.done (.error (.io .other))) fault s
  | .checkFirst => check (firstPrefix put.kind put.expected) .ensureSecond fault s
  | .ensureSecond => ensure (parentOf put.kind put.expected) .syncFirst .checkSecond fault s
  | .syncFirst => sync .existing (.done (.error (.io .other))) fault s
  | .checkSecond => check (parentOf put.kind put.expected) .existing fault s
  | .existing =>
    -- an object that cannot be looked at counts as absent
    (if fault.isNone ∧ s.volume.node? put.finalPath ≠ none then .get else .create 0, s)
  | .get =>
    if fault.isSome then (.done (.error (.io .other)), s)
    else
      match s.volume.node? put.finalPath with
      | none => (.done (.error (.notFound put.expected)), s)
      | some .dir => (.done (.error (.io .other)), s)
      | some (.file content) =>
        (if ObjectHash.digest content = put.expected then
          .syncKnown [parentOf put.kind put.expected, firstPrefix put.kind put.expected,
            namespaceOf put.kind]
        else .measure, s)
  | .syncKnown [] => (.done (.ok ()), s)
  | .syncKnown (_ :: left) => sync (.syncKnown left) (.done (.error (.io .other))) fault s
  | .measure =>
    (.create (if fault.isSome then 0 else ((s.volume.file? put.finalPath).map List.length).getD 0), s)
  | .create replaced =>
    if fault.isSome then (.clean (.io .other), s)
    else
      match s.volume.createNew put.temporary with
      | .ok volume => (.write replaced, { s with volume })
      | .error error => (.clean (.io error), s)
  | .write replaced =>
    match fault with
    | some fault =>
      let volume := s.volume.append put.temporary (put.bytes.take fault.written)
      (.clean (.io .other), { s with volume })
    | none => (.syncFile replaced, { s with volume := s.volume.append put.temporary put.bytes })
  | .syncFile replaced => sync (.rename replaced) (.clean (.io .other)) fault s
  | .rename replaced =>
    if fault.isSome then (.clean (.io .other), s)
    else
      match s.volume.rename put.temporary put.finalPath with
      | .ok volume => (.syncParent replaced, { s with volume })
      | .error error => (.clean (.io error), s)
  | .syncParent replaced => sync (.count replaced) (.clean (.io .other)) fault s
  | .count replaced =>
    let usedBytes := (s.usedBytes - replaced + put.bytes.length) % 2 ^ 64
    (.done (.ok ()), { s with usedBytes })
  | .clean error =>
    if fault.isSome then (.done (.error error), s)
    else
      match s.volume.removeFile put.temporary with
      | .ok volume => (.done (.error error), { s with volume })
      | .error _ => (.done (.error error), s)
  | .done result => (.done result, s)

end Put

structure Delete where
  kind : ObjectKind
  hash : ObjectHash

namespace Delete

/-- What a DELETE does next. -/
inductive Phase where
  | metadata
  | remove (size : ℕ)
  | syncParent (size : ℕ)
  | count (size : ℕ)
  | done (result : Except StoreError Bool)

variable (delete : Delete)

def path : List Name := objectPath delete.kind delete.hash

/-- The next call of `delete`. -/
def step (fault : Option Fault) (s : State) : Phase → Phase × State
  | .metadata =>
    if fault.isSome then (.done (.error (.io .other)), s)
    else
      match s.volume.node? delete.path with
      | none => (.done (.ok false), s)
      | some .dir => (.remove 0, s)
      | some (.file content) => (.remove content.length, s)
  | .remove size =>
    if fault.isSome then (.done (.error (.io .other)), s)
    else
      match s.volume.removeFile delete.path with
      | .ok volume => (.syncParent size, { s with volume })
      | .error error => (.done (.error (.io error)), s)
  | .syncParent size =>
    (if fault.isSome then .done (.error (.io .other)) else .count size, s)
  | .count size => (.done (.ok true), { s with usedBytes := s.usedBytes - size })
  | .done result => (.done result, s)

end Delete

/-! ## Calls side by side -/

/-- A call of the store's interface and where it stands. -/
inductive Call where
  | put (put : Put) (phase : Put.Phase)
  | delete (delete : Delete) (phase : Delete.Phase)

namespace Call

def step [Digests] (fault : Option Fault) (s : State) : Call → Call × State
  | .put p phase => let (phase, s) := p.step fault s phase; (.put p phase, s)
  | .delete d phase => let (phase, s) := d.step fault s phase; (.delete d phase, s)

/-- The call has returned. -/
def isDone : Call → Bool
  | .put _ (.done _) => true
  | .delete _ (.done _) => true
  | _ => false

/-- The temporary file of a PUT. -/
def temporary? : Call → Option (List Name)
  | .put p _ => some p.temporary
  | .delete _ _ => none

/-- A call that was just made. -/
inductive Starts [Digests] : Call → Prop
  | put (p : Put) : Starts (.put p p.start)
  | delete (d : Delete) : Starts (.delete d .metadata)

end Call

/-- The store and the calls made to it so far. -/
structure Server where
  state : State
  calls : List Call

namespace Server

/-- One step: a call is made, with a temporary name of its own, or makes its next filesystem call or
counter update, as the condition allows. -/
inductive StepIf [Digests] (allowed : Option Fault → State → Call → Prop) : Server → Server → Prop
  | start {s : State} {calls : List Call} {call : Call} (starts : call.Starts)
      (fresh : ∀ path ∈ call.temporary?,
        s.volume.node? path = none ∧ ∀ other ∈ calls, other.temporary? ≠ some path) :
      StepIf allowed ⟨s, calls⟩ ⟨s, calls ++ [call]⟩
  | advance {s : State} (before : List Call) (call : Call) (after : List Call) (fault : Option Fault)
      (allows : allowed fault s call) :
      StepIf allowed ⟨s, before ++ call :: after⟩
        ⟨(call.step fault s).2, before ++ (call.step fault s).1 :: after⟩

/-- Any step. -/
abbrev Step [Digests] : Server → Server → Prop := StepIf fun _ _ _ => True

/-- Nothing is in progress. -/
def Quiet (server : Server) : Prop := ∀ call ∈ server.calls, call.isDone

end Server

end DistrHnsw.Agent
