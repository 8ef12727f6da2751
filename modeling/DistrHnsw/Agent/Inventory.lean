import DistrHnsw.Agent.Store
import DistrHnsw.Lib.Look

/-!
# Inventory

A page of the objects of one kind after a cursor, read directory by directory while PUTs and DELETEs
go on, and the plain walk over the same three levels that it abbreviates.
-/

namespace DistrHnsw.Agent

def maxInventoryPage : ℕ := 1000

structure InventoryObject where
  hash : ObjectHash
  size : ℕ
deriving DecidableEq

structure InventoryPage where
  objects : List InventoryObject
  nextAfter : Option ObjectHash
deriving DecidableEq

/-- A call that looks at the volume. -/
abbrev Walk := Look Volume StoreError

def isDirectory (path : List Name) : Walk Bool := .see fun v => .ok (v.isDir path)

def isFile (path : List Name) : Walk Bool := .see fun v => .ok (v.file? path).isSome

/-- The length of a file that is there. -/
def metadata (path : List Name) : Walk ℕ :=
  .see fun v =>
    match v.file? path with
    | some content => .ok content.length
    | none => .error (.io .notFound)

def sortedEntries (path : List Name) : Walk (List Name) :=
  .see fun v =>
    match v.sortedEntries path with
    | some names => .ok names
    | none => .error (.io .notFound)

def isHexPrefix (name : Name) : Bool := name.length = 2 ∧ ∀ c ∈ name, c ∈ Hex.lower.digits

/-- The objects of a page so far, and whether a further one was met. -/
structure Walked where
  objects : List InventoryObject
  hasMore : Bool

section Walks

variable (after : Option ObjectHash) (limit : ℕ)

/-- The entries of one second-level directory. -/
def walkEntries (dir : List Name) (first second : Name) : Walked → List Name → Walk Walked
  | page, [] => pure page
  | page, name :: rest =>
    if isTemporary name then walkEntries dir first second page rest
    else do
      if !(← isFile (name :: dir)) then
        .fail (.malformedInventoryEntry (name :: dir))
      else
        match ObjectHash.parse name with
        | none => .fail (.malformedInventoryEntry (name :: dir))
        | some hash =>
          if first ≠ hash.first ∨ second ≠ hash.second then
            .fail (.malformedInventoryEntry (name :: dir))
          else if after.any fun cursor => hash.text ≤ cursor.text then
            walkEntries dir first second page rest
          else if page.objects.length = limit then pure { page with hasMore := true }
          else do
            let size ← metadata (name :: dir)
            let objects := page.objects ++ [⟨hash, size⟩]
            walkEntries dir first second { page with objects } rest

/-- The second-level directories below `dir`, from the cursor's on. -/
def walkSeconds (dir : List Name) (first : Name) : Walked → List Name → Walk Walked
  | page, [] => pure page
  | page, second :: rest => do
    if !(← isDirectory (second :: dir)) ∨ !isHexPrefix second then
      .fail (.malformedInventoryEntry (second :: dir))
    else if after.any fun cursor => first ++ second < cursor.text.take 4 then
      walkSeconds dir first page rest
    else do
      let entries ← sortedEntries (second :: dir)
      let page ← walkEntries after limit (second :: dir) first second page entries
      if page.hasMore then pure page else walkSeconds dir first page rest

/-- The first-level directories below `dir`, from the cursor's on. -/
def walkFirsts (dir : List Name) : Walked → List Name → Walk Walked
  | page, [] => pure page
  | page, first :: rest => do
    if !(← isDirectory (first :: dir)) ∨ !isHexPrefix first then
      .fail (.malformedInventoryEntry (first :: dir))
    else if after.any fun cursor => first < cursor.text.take 2 then
      walkFirsts dir page rest
    else do
      let seconds ← sortedEntries (first :: dir)
      let page ← walkSeconds after limit (first :: dir) first page seconds
      if page.hasMore then pure page else walkFirsts dir page rest

end Walks

def inventory (kind : ObjectKind) (after : Option ObjectHash) (limit : ℕ) : Walk InventoryPage :=
  if limit = 0 then .fail (.invalidInventoryLimit limit)
  else do
    let firsts ← sortedEntries (namespaceOf kind)
    let page ← walkFirsts after (min limit maxInventoryPage) (namespaceOf kind) ⟨[], false⟩ firsts
    let nextAfter := if page.hasMore then page.objects.getLast?.map InventoryObject.hash else none
    pure ⟨page.objects, nextAfter⟩

end DistrHnsw.Agent
