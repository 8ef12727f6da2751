import DistrHnsw.Agent.Store
import DistrHnsw.Lib.Reader
import Mathlib.Data.Finset.Card
import Mathlib.Data.List.Chain

/-!
# Listing an agent's inventory

Scrub, recovery and the lifecycle jobs each read an agent's namespace page by page.  The agent answers
what it likes: a hash is any text, and the cursor of the next request is the agent's choice, held
against nothing.  A listing goes up and ends exactly when the cursors go up and no page reaches back
behind the one before.
-/

namespace DistrHnsw.Portal

open Agent (Name ObjectKind)
open Reader (utf8Bytes u64ToLe)

/-- An object as an agent reports it. -/
structure InventoryObject where
  hash : Name
  size : UInt64
deriving DecidableEq

structure InventoryPage where
  objects : List InventoryObject
  nextAfter : Option Name
deriving DecidableEq

/-- An HTTP status and the text it is shown by. -/
structure Status where
  code : ℕ
  text : String

/-- What a request for a page comes to. -/
inductive Answer where
  /-- The request failed, or its body does not decode. -/
  | failed (error : String)
  | rejected (status : Status) (body : String)
  | page (page : InventoryPage)

/-! ## The loops -/

/-- A listing under way, with the cursor of the next request, or its result. -/
inductive Progress (ε α : Type) where
  | asking (after : Option Name) (listed : List InventoryObject)
  | done (result : Except ε α)

/-- What each of the loops does in its own way. -/
structure Pager (ε : Type) where
  /-- Whether a page has to go up from the cursor it was asked for with. -/
  ordered : Bool
  failed : String → ε
  rejected : Status → String → ε
  malformed : ε

/-- Every object of a page comes after the one before it, the first one after `previous`. -/
def inOrder : Option Name → List InventoryObject → Bool
  | _, [] => true
  | previous, object :: rest =>
    if previous.any (object.hash ≤ ·) then false else inOrder (some object.hash) rest

section Loop

variable {ε α β : Type} (pager : Pager ε)

/-- One turn of the loop. -/
def Pager.step : Progress ε (List InventoryObject) → Answer → Progress ε (List InventoryObject)
  | .done result, _ => .done result
  | .asking _ _, .failed error => .done (.error (pager.failed error))
  | .asking _ _, .rejected status body => .done (.error (pager.rejected status body))
  | .asking after listed, .page page =>
    if pager.ordered && !inOrder after page.objects then .done (.error pager.malformed)
    else
      match page.nextAfter with
      | some cursor =>
        if page.objects.isEmpty then .done (.error pager.malformed)
        else .asking (some cursor) (listed ++ page.objects)
      | none => .done (.ok (listed ++ page.objects))

/-- The loop after a number of answers. -/
def Pager.run (answers : ℕ → Answer) : ℕ → Progress ε (List InventoryObject)
  | 0 => .asking none []
  | n + 1 => pager.step (run answers n) (answers n)

/-- What follows the loop. -/
def Progress.andThen (f : α → Except ε β) : Progress ε α → Progress ε β
  | .asking after listed => .asking after listed
  | .done result => .done (result >>= f)

end Loop

inductive ScrubError where
  | inventoryRejected (agent : Name) (status : ℕ) (body : String)
  | malformedInventory (agent : Name)
  | http (error : String)
  | invalidHash (value : Name)

structure Listing where
  objects : List (Name × UInt64)
  finalCursor : Option Agent.ObjectHash
  digest : Name

def scanInventory : Bytes := utf8Bytes "distr-hnsw:scan-inventory:v1"

/-- The bytes of an object that go into a digest. -/
def digested (object : InventoryObject) : Bytes :=
  utf8Bytes (String.ofList object.hash) ++ u64ToLe object.size

def scanPager (agent : Name) : Pager ScrubError where
  ordered := true
  failed := .http
  rejected status body := .inventoryRejected agent status.code body
  malformed := .malformedInventory agent

/-- The end of `list_namespace`: the last hash must be one. -/
def closeListing [Digests] (kind : ObjectKind) (listed : List InventoryObject) : Except ScrubError Listing :=
  let objects := listed.map fun object => (object.hash, object.size)
  let digest := Hex.encode (blake3 (scanInventory ++ utf8Bytes (String.ofList kind.asStr) ++
    listed.flatMap digested)).1
  match objects.getLast? with
  | none => .ok ⟨objects, none, digest⟩
  | some (hash, _) =>
    match Agent.ObjectHash.parse hash with
    | some cursor => .ok ⟨objects, some cursor, digest⟩
    | none => .error (.invalidHash hash)

def listNamespace [Digests] (agent : Name) (kind : ObjectKind) (answers : ℕ → Answer) (n : ℕ) :
    Progress ScrubError Listing :=
  ((scanPager agent).run answers n).andThen (closeListing kind)

inductive RecoveryError where
  | inventoryRejected (agent : Name) (status : ℕ) (body : String)
  | malformedInventory (agent : Name)
  | http (error : String)

def recoverPager (agent : Name) : Pager RecoveryError where
  ordered := true
  failed := .http
  rejected status body := .inventoryRejected agent status.code body
  malformed := .malformedInventory agent

/-- What `recover` knows of the inventories it has read. -/
structure Inventories where
  objectCount : ℕ
  /-- The bytes that go into the digest of the inventories. -/
  hashed : Bytes
  /-- The size of each object by kind, hash and agent. -/
  listings : Name × Name → Name → Option UInt64

/-- The body of `recover`'s innermost loop. -/
def Inventories.add (agent : Name) (kind : ObjectKind) (inventories : Inventories)
    (object : InventoryObject) : Inventories where
  objectCount := inventories.objectCount + 1
  hashed := inventories.hashed ++ utf8Bytes (String.ofList agent) ++
    utf8Bytes (String.ofList kind.asStr) ++ digested object
  listings := Function.update inventories.listings (kind.asStr, object.hash)
    (Function.update (inventories.listings (kind.asStr, object.hash)) agent (some object.size))

/-- `recover`'s loop over the pages of one agent and kind: the objects it meets, and what it then
knows. -/
def recoverInventory (agent : Name) (kind : ObjectKind) (inventories : Inventories)
    (answers : ℕ → Answer) (n : ℕ) : Progress RecoveryError (List InventoryObject × Inventories) :=
  ((recoverPager agent).run answers n).andThen fun listed =>
    .ok (listed, listed.foldl (Inventories.add agent kind) inventories)

/-- The pager of `list_hashes` takes the objects of a page as they come. -/
def hashesPager : Pager String where
  ordered := false
  failed error := error
  rejected status _ := "inventory returned HTTP " ++ status.text
  malformed := "inventory cursor did not advance"

def listHashes (answers : ℕ → Answer) (n : ℕ) : Progress String (List Name) :=
  (hashesPager.run answers n).andThen fun listed => .ok (listed.map InventoryObject.hash)

/-! ## What a listing is for -/

/-- The cursors of the requests go up, a listing that is returned goes up, and the loop ends when the
agent's cursors are finitely many. -/
structure Strict {ε α : Type} (answers : ℕ → Answer) (progress : ℕ → Progress ε α)
    (hashes : α → List Name) : Prop where
  cursors : ∀ n after after' listed listed', progress n = .asking after listed →
    progress (n + 1) = .asking after' listed' →
      ∃ cursor, after' = some cursor ∧ ∀ previous ∈ after, previous < cursor
  listing : ∀ n result, progress n = .done (.ok result) →
    (hashes result).Pairwise (· < ·) ∧ (hashes result).Nodup
  ends : ∀ H : Finset Name,
    (∀ n page cursor, answers n = .page page → page.nextAfter = some cursor → cursor ∈ H) →
      ∃ n ≤ H.card + 1, ∃ result, progress n = .done result

/-! ## What the agent has to answer -/

section Answers

variable (ordered : Bool) (answers : ℕ → Answer)

/-- The cursor that comes with an answer. -/
def Answer.cursor : Answer → Option Name
  | .page p => p.nextAfter
  | _ => none

def Answer.objects : Answer → List InventoryObject
  | .page p => p.objects
  | _ => []

/-- The cursor of a request. -/
def cursorOf : ℕ → Option Name
  | 0 => none
  | n + 1 => (answers n).cursor

/-- The answer is a page that a loop takes. -/
def Taken (n : ℕ) : Prop :=
  ∃ page, answers n = .page page ∧ (ordered = true → inOrder (cursorOf answers n) page.objects = true)

/-- A further request follows the answer. -/
def GoesOn (n : ℕ) : Prop :=
  Taken ordered answers n ∧ (answers n).objects ≠ [] ∧ (answers n).cursor.isSome = true

/-- The answer is the last page of a listing. -/
def Closes (n : ℕ) : Prop := Taken ordered answers n ∧ (answers n).cursor = none

/-- The objects of the first answers. -/
def listedBy (n : ℕ) : List InventoryObject := (List.range n).flatMap fun k => (answers k).objects

/-- The second page starts after the last object of the first. -/
def Follows (first second : List InventoryObject) : Prop :=
  ∀ a ∈ first.getLast?, ∀ b ∈ second.head?, a.hash < b.hash

/-- The cursors go up, and in a listing that closes each page follows the one before; a loop that does
not look at the order of a page needs that to go up as well. -/
structure Forward (accepts : List InventoryObject → Prop) : Prop where
  cursors : ∀ n, (∀ k ≤ n, GoesOn ordered answers k) →
    ∀ previous ∈ cursorOf answers n, ∀ cursor ∈ (answers n).cursor, previous < cursor
  follows : ∀ n, (∀ k < n, GoesOn ordered answers k) → Closes ordered answers n →
    accepts (listedBy answers (n + 1)) → ∀ k < n, Follows (answers k).objects (answers (k + 1)).objects
  pages : ordered = false → ∀ n, (∀ k < n, GoesOn ordered answers k) → Closes ordered answers n →
    accepts (listedBy answers (n + 1)) →
      ∀ k ≤ n, ((answers k).objects.map InventoryObject.hash).Pairwise (· < ·)

end Answers

/-! ## The loops and the answers -/

section Proofs

variable {ε α : Type} {pager : Pager ε} {answers : ℕ → Answer} {n : ℕ} {after : Option Name}
  {listed : List InventoryObject}

theorem inOrder_iff {previous : Option Name} {objects : List InventoryObject} :
    inOrder previous objects = true ↔
      (∀ a ∈ previous, ∀ b ∈ objects.head?, a < b.hash) ∧ objects.IsChain (·.hash < ·.hash) := by
  induction objects generalizing previous with
  | nil => simp [inOrder]
  | cons object rest ih =>
    unfold inOrder
    cases previous with
    | none => simp [ih, List.isChain_cons]
    | some hash =>
      by_cases h : object.hash ≤ hash
      · simp [h]
      · simp [h, ih, List.isChain_cons, not_le.1 h]

theorem listedBy_succ : listedBy answers (n + 1) = listedBy answers n ++ (answers n).objects := by
  simp [listedBy, List.range_succ]

theorem step_taken {page : InventoryPage} (h : pager.ordered = true → inOrder after page.objects = true) :
    pager.step (.asking after listed) (.page page) =
      match page.nextAfter with
      | some cursor =>
        if page.objects.isEmpty then .done (.error pager.malformed)
        else .asking (some cursor) (listed ++ page.objects)
      | none => .done (.ok (listed ++ page.objects)) := by
  refine if_neg ?_
  simpa using h

section Turns

variable (h : pager.run answers n = .asking (cursorOf answers n) (listedBy answers n))

include h

theorem run_goesOn (hgoes : GoesOn pager.ordered answers n) :
    pager.run answers (n + 1) = .asking (cursorOf answers (n + 1)) (listedBy answers (n + 1)) := by
  obtain ⟨⟨page, hpage, horder⟩, hobjects, hcursor⟩ := hgoes
  rw [listedBy_succ, cursorOf]
  rw [hpage] at hobjects hcursor ⊢
  change page.objects ≠ [] at hobjects
  obtain ⟨cursor, hcursor⟩ := Option.isSome_iff_exists.1 hcursor
  change page.nextAfter = some cursor at hcursor
  unfold Pager.run
  rw [h, hpage, step_taken horder]
  simp [Answer.cursor, Answer.objects, hcursor, hobjects]

theorem run_closes (hcloses : Closes pager.ordered answers n) :
    pager.run answers (n + 1) = .done (.ok (listedBy answers (n + 1))) := by
  obtain ⟨⟨page, hpage, horder⟩, hcursor⟩ := hcloses
  rw [listedBy_succ]
  rw [hpage] at hcursor ⊢
  change page.nextAfter = none at hcursor
  unfold Pager.run
  rw [h, hpage, step_taken horder]
  simp [Answer.objects, hcursor]

theorem run_fails (hgoes : ¬ GoesOn pager.ordered answers n) (hcloses : ¬ Closes pager.ordered answers n) :
    ∃ error, pager.run answers (n + 1) = .done (.error error) := by
  unfold Pager.run
  rw [h]
  cases hanswer : answers n with
  | failed error => exact ⟨_, rfl⟩
  | rejected status body => exact ⟨_, rfl⟩
  | page page =>
    by_cases horder : pager.ordered = true → inOrder (cursorOf answers n) page.objects = true
    · have htaken : Taken pager.ordered answers n := ⟨page, hanswer, horder⟩
      rw [step_taken horder]
      cases hcursor : page.nextAfter with
      | none => exact absurd ⟨htaken, by rw [hanswer]; exact hcursor⟩ hcloses
      | some cursor =>
        have hempty : page.objects = [] := by
          by_contra hne
          exact hgoes ⟨htaken, by rw [hanswer]; exact hne, by rw [hanswer]; simp [Answer.cursor, hcursor]⟩
        exact ⟨pager.malformed, by simp [hempty]⟩
    · refine ⟨pager.malformed, if_pos ?_⟩
      simpa using horder

end Turns

/-- As long as it goes on, the loop has the cursor and the objects of the answers. -/
theorem run_asks (h : ∀ k < n, GoesOn pager.ordered answers k) :
    pager.run answers n = .asking (cursorOf answers n) (listedBy answers n) := by
  induction n with
  | zero => rfl
  | succ n ih => exact run_goesOn (ih fun k hk => h k (by omega)) (h n (by omega))

theorem run_done {result : Except ε (List InventoryObject)} (h : pager.run answers n = .done result)
    (k : ℕ) :
    pager.run answers (n + k) = .done result := by
  induction k with
  | zero => exact h
  | succ k ih =>
    rw [← Nat.add_assoc]
    unfold Pager.run
    rw [ih]
    rfl

theorem run_eq_asking : pager.run answers n = .asking after listed ↔
    (∀ k < n, GoesOn pager.ordered answers k) ∧ after = cursorOf answers n ∧
      listed = listedBy answers n := by
  constructor
  · intro h
    have hgoes : ∀ k < n, GoesOn pager.ordered answers k := by
      intro k
      induction k using Nat.strong_induction_on with
      | _ k ih =>
        intro hk
        by_contra hstops
        have hrun := run_asks fun j hj => ih j hj (by omega)
        have hover : ∃ result, pager.run answers (k + 1) = .done result := by
          by_cases hcloses : Closes pager.ordered answers k
          · exact ⟨_, run_closes hrun hcloses⟩
          · obtain ⟨error, hrun⟩ := run_fails hrun hstops hcloses
            exact ⟨_, hrun⟩
        obtain ⟨result, hover⟩ := hover
        have hlast := run_done hover (n - (k + 1))
        rw [show k + 1 + (n - (k + 1)) = n by omega, h] at hlast
        cases hlast
    have hrun := run_asks hgoes
    rw [h] at hrun
    injection hrun with hafter hlisted
    exact ⟨hgoes, hafter, hlisted⟩
  · rintro ⟨hgoes, rfl, rfl⟩
    exact run_asks hgoes

theorem run_eq_ok : (pager.run answers n = .done (.ok listed)) ↔
    ∃ k < n, (∀ j < k, GoesOn pager.ordered answers j) ∧ Closes pager.ordered answers k ∧
      listed = listedBy answers (k + 1) := by
  constructor
  · intro h
    induction n with
    | zero => cases h
    | succ n ih =>
      cases hrun : pager.run answers n with
      | done result =>
        have hover := run_done hrun 1
        rw [h] at hover
        cases hover
        obtain ⟨k, hk, hrest⟩ := ih hrun
        exact ⟨k, by omega, hrest⟩
      | asking after already =>
        obtain ⟨hgoes, rfl, rfl⟩ := run_eq_asking.1 hrun
        by_cases hcloses : Closes pager.ordered answers n
        · rw [run_closes hrun hcloses] at h
          cases h
          exact ⟨n, by omega, hgoes, hcloses, rfl⟩
        · by_cases hnext : GoesOn pager.ordered answers n
          · rw [run_goesOn hrun hnext] at h
            cases h
          · obtain ⟨error, hfails⟩ := run_fails hrun hnext hcloses
            rw [hfails] at h
            cases h
  · rintro ⟨k, hk, hgoes, hcloses, rfl⟩
    have hover := run_done (run_closes (run_asks hgoes) hcloses) (n - (k + 1))
    rwa [show k + 1 + (n - (k + 1)) = n by omega] at hover

/-- What the pages list goes up when each page does and follows the one before. -/
theorem isChain_listedBy (h : ∀ k < n, (answers k).objects ≠ []) :
    (listedBy answers (n + 1)).IsChain (·.hash < ·.hash) ↔
      (∀ k ≤ n, (answers k).objects.IsChain (·.hash < ·.hash)) ∧
        ∀ k < n, Follows (answers k).objects (answers (k + 1)).objects := by
  induction n with
  | zero => simp [listedBy]
  | succ n ih =>
    have hlast : (listedBy answers (n + 1)).getLast? = (answers n).objects.getLast? := by
      rw [listedBy_succ, List.getLast?_append_of_ne_nil _ (h n (by omega))]
    rw [listedBy_succ, List.isChain_append, ih fun k hk => h k (by omega), hlast]
    constructor
    · rintro ⟨⟨hchains, hfollows⟩, hchain, hfollow⟩
      refine ⟨fun k hk => ?_, fun k hk => ?_⟩
      · rcases Nat.lt_or_eq_of_le hk with hk | rfl
        · exact hchains k (by omega)
        · exact hchain
      · rcases Nat.lt_or_eq_of_le (Nat.le_of_lt_succ hk) with hk | rfl
        · exact hfollows k hk
        · exact hfollow
    · rintro ⟨hchains, hfollows⟩
      exact ⟨⟨fun k hk => hchains k (by omega), fun k hk => hfollows k (by omega)⟩,
        hchains _ le_rfl, hfollows n (by omega)⟩

theorem pairwise_listed {objects : List InventoryObject} :
    (objects.map InventoryObject.hash).Pairwise (· < ·) ↔ objects.IsChain (·.hash < ·.hash) := by
  rw [← List.isChain_iff_pairwise, List.isChain_map]

/-! ## The end of the loop -/

/-- Cursors that go up are as many as the requests. -/
theorem cursors_strictMono {ordered : Bool} (hgoes : ∀ k < n, GoesOn ordered answers k)
    (hup : ∀ k, (∀ j ≤ k, GoesOn ordered answers j) →
      ∀ previous ∈ cursorOf answers k, ∀ cursor ∈ (answers k).cursor, previous < cursor)
    {i j : ℕ} (hij : i < j) (hj : j < n) :
    ∀ a ∈ (answers i).cursor, ∀ b ∈ (answers j).cursor, a < b := by
  induction j with
  | zero => omega
  | succ j ih =>
    intro a ha b hb
    have hlast := hup (j + 1) fun k hk => hgoes k (by omega)
    obtain ⟨c, hc⟩ := Option.isSome_iff_exists.1 (hgoes j (by omega)).2.2
    have hcb : c < b := hlast c hc b hb
    rcases Nat.lt_or_eq_of_le (Nat.le_of_lt_succ hij) with hij | rfl
    · exact lt_trans (ih hij (by omega) a ha c hc) hcb
    · rw [hc] at ha
      cases ha
      exact hcb

theorem run_ends
    (hup : ∀ k, (∀ j ≤ k, GoesOn pager.ordered answers j) →
      ∀ previous ∈ cursorOf answers k, ∀ cursor ∈ (answers k).cursor, previous < cursor)
    {H : Finset Name} (hH : ∀ n, ∀ cursor ∈ (answers n).cursor, cursor ∈ H) :
    ∃ result, pager.run answers (H.card + 1) = .done result := by
  cases hrun : pager.run answers (H.card + 1) with
  | done result => exact ⟨result, rfl⟩
  | asking after listed =>
    exfalso
    have hgoes := (run_eq_asking.1 hrun).1
    have hsome : ∀ k < H.card + 1, ∃ cursor, (answers k).cursor = some cursor := fun k hk =>
      Option.isSome_iff_exists.1 (hgoes k hk).2.2
    -- one more cursor than there are hashes
    have hcard : (Finset.range (H.card + 1)).card ≤ H.card := by
      refine Finset.card_le_card_of_injOn (fun k => (answers k).cursor.getD []) ?_ ?_
      · intro k hk
        obtain ⟨cursor, hcursor⟩ := hsome k (Finset.mem_range.1 hk)
        have hmem := hH k cursor hcursor
        simpa [hcursor] using hmem
      · intro i hi j hj heq
        have hi := Finset.mem_range.1 hi
        have hj := Finset.mem_range.1 hj
        obtain ⟨a, ha⟩ := hsome i hi
        obtain ⟨b, hb⟩ := hsome j hj
        simp only [ha, hb, Option.getD_some] at heq
        rcases lt_trichotomy i j with hij | hij | hij
        · have hlt := cursors_strictMono hgoes hup hij hj a ha b hb
          exact absurd heq hlt.ne
        · exact hij
        · have hlt := cursors_strictMono hgoes hup hij hi b hb a ha
          exact absurd heq hlt.ne'
    rw [Finset.card_range] at hcard
    omega

/-! ## Strict listings -/

section Strict

variable {f : List InventoryObject → Except ε α} {hashes : α → List Name}
  {accepts : List InventoryObject → Prop}

theorem andThen_eq_asking {progress : Progress ε (List InventoryObject)} :
    progress.andThen f = .asking after listed ↔ progress = .asking after listed := by
  cases progress <;> simp [Progress.andThen]

theorem andThen_eq_ok {progress : Progress ε (List InventoryObject)} {result : α} :
    progress.andThen f = .done (.ok result) ↔
      ∃ listed, progress = .done (.ok listed) ∧ f listed = .ok result := by
  cases progress with
  | asking after listed => simp [Progress.andThen]
  | done r => cases r <;> simp [Progress.andThen, bind, Except.bind]

/-- The listing of a loop is strict exactly when the agent's answers go forward. -/
theorem Pager.strict_iff (hf : ∀ listed, accepts listed ↔ ∃ result, f listed = .ok result)
    (hhashes : ∀ listed result, f listed = .ok result → hashes result = listed.map InventoryObject.hash) :
    Strict answers (fun n => (pager.run answers n).andThen f) hashes ↔
      Forward pager.ordered answers accepts := by
  constructor
  · intro hstrict
    have hlisting : ∀ n, (∀ k < n, GoesOn pager.ordered answers k) → Closes pager.ordered answers n →
        accepts (listedBy answers (n + 1)) →
          (listedBy answers (n + 1)).IsChain (·.hash < ·.hash) := by
      intro n hgoes hcloses haccepts
      obtain ⟨result, hresult⟩ := (hf _).1 haccepts
      have hrun := run_eq_ok.2 ⟨n, n.lt_succ_self, hgoes, hcloses, rfl⟩
      have hup := (hstrict.listing (n + 1) result (andThen_eq_ok.2 ⟨_, hrun, hresult⟩)).1
      rwa [hhashes _ _ hresult, pairwise_listed] at hup
    refine ⟨fun n hgoes previous hprevious cursor hcursor => ?_, fun n hgoes hcloses haccepts => ?_,
      fun _ n hgoes hcloses haccepts k hk => ?_⟩
    · have hrun := run_asks fun k hk => hgoes k (Nat.le_of_lt hk)
      have hnext := run_asks fun k (hk : k < n + 1) => hgoes k (Nat.le_of_lt_succ hk)
      obtain ⟨c, hc, hlt⟩ :=
        hstrict.cursors n _ _ _ _ (andThen_eq_asking.2 hrun) (andThen_eq_asking.2 hnext)
      have heq : cursor = c := Option.some.inj (hcursor.symm.trans hc)
      rw [heq]
      exact hlt previous hprevious
    · exact ((isChain_listedBy fun k hk => (hgoes k hk).2.1).1 (hlisting n hgoes hcloses haccepts)).2
    · rw [pairwise_listed]
      exact ((isChain_listedBy fun k hk => (hgoes k hk).2.1).1 (hlisting n hgoes hcloses haccepts)).1 k hk
  · intro hforward
    refine ⟨fun n after after' listed listed' hrun hnext => ?_, fun n result hresult => ?_,
      fun H hH => ?_⟩
    · obtain ⟨_, rfl, _⟩ := run_eq_asking.1 (andThen_eq_asking.1 hrun)
      obtain ⟨hgoes, rfl, _⟩ := run_eq_asking.1 (andThen_eq_asking.1 hnext)
      obtain ⟨cursor, hcursor⟩ := Option.isSome_iff_exists.1 (hgoes n n.lt_succ_self).2.2
      exact ⟨cursor, hcursor, fun previous hprevious =>
        hforward.cursors n (fun k hk => hgoes k (Nat.lt_succ_of_le hk)) previous hprevious cursor hcursor⟩
    · obtain ⟨listed, hrun, hresult⟩ := andThen_eq_ok.1 hresult
      obtain ⟨k, _, hgoes, hcloses, rfl⟩ := run_eq_ok.1 hrun
      have haccepts : accepts (listedBy answers (k + 1)) := (hf _).2 ⟨result, hresult⟩
      have hchains : ∀ j ≤ k, (answers j).objects.IsChain (·.hash < ·.hash) := by
        intro j hj
        cases hordered : pager.ordered with
        | false => exact pairwise_listed.1 (hforward.pages hordered k hgoes hcloses haccepts j hj)
        | true =>
          have htaken : Taken pager.ordered answers j := by
            rcases Nat.lt_or_eq_of_le hj with hj | rfl
            · exact (hgoes j hj).1
            · exact hcloses.1
          obtain ⟨page, hpage, horder⟩ := htaken
          rw [hpage]
          exact (inOrder_iff.1 (horder hordered)).2
      have hup : (hashes result).Pairwise (· < ·) := by
        rw [hhashes _ _ hresult, pairwise_listed, isChain_listedBy fun j hj => (hgoes j hj).2.1]
        exact ⟨hchains, hforward.follows k hgoes hcloses haccepts⟩
      exact ⟨hup, hup.imp fun h => h.ne⟩
    · have hcursors : ∀ n, ∀ cursor ∈ (answers n).cursor, cursor ∈ H := by
        intro n cursor hcursor
        cases hanswer : answers n with
        | page page =>
          rw [hanswer] at hcursor
          exact hH n page cursor hanswer hcursor
        | _ =>
          rw [hanswer] at hcursor
          cases hcursor
      obtain ⟨result, hrun⟩ := run_ends hforward.cursors hcursors
      exact ⟨H.card + 1, le_rfl, result >>= f, by simp only [hrun, Progress.andThen]⟩

end Strict

end Proofs

/-- The last object listed has a hash that is one. -/
def EndsWithHash (listed : List InventoryObject) : Prop :=
  ∀ last ∈ listed.getLast?, (Agent.ObjectHash.parse last.hash).isSome = true

theorem closeListing_ok [Digests] {kind : ObjectKind} {listed : List InventoryObject} :
    EndsWithHash listed ↔ ∃ listing, closeListing kind listed = .ok listing := by
  simp only [EndsWithHash, closeListing, List.getLast?_map]
  cases listed.getLast? with
  | none => simp
  | some last => cases h : Agent.ObjectHash.parse last.hash <;> simp [h]

theorem closeListing_objects [Digests] {kind : ObjectKind} {listed : List InventoryObject} {listing : Listing}
    (h : closeListing kind listed = .ok listing) :
    listing.objects.map Prod.fst = listed.map InventoryObject.hash := by
  have hobjects : listing.objects = listed.map fun object => (object.hash, object.size) := by
    simp only [closeListing] at h
    split at h
    · cases h
      rfl
    · split at h <;> cases h
      rfl
  rw [hobjects, List.map_map]
  rfl

/-- A listing of any of the three loops goes up and ends exactly when the agent's answers go forward. -/
theorem listings_strict_iff [Digests] (agent : Name) (kind : ObjectKind) (inventories : Inventories)
    (answers : ℕ → Answer) :
    (Strict answers (listNamespace agent kind answers) (fun listing => listing.objects.map Prod.fst) ↔
      Forward true answers EndsWithHash) ∧
    (Strict answers (recoverInventory agent kind inventories answers)
        (fun result => result.1.map InventoryObject.hash) ↔ Forward true answers fun _ => True) ∧
    (Strict answers (listHashes answers) id ↔ Forward false answers fun _ => True) := by
  refine ⟨?_, ?_, ?_⟩
  · exact (scanPager agent).strict_iff (fun listed => closeListing_ok) fun listed listing =>
      closeListing_objects
  · refine (recoverPager agent).strict_iff (fun listed => ?_) fun listed result h => ?_
    · simp
    · cases h
      rfl
  · refine hashesPager.strict_iff (fun listed => ?_) fun listed result h => ?_
    · simp
    · cases h
      rfl

/-! ## An agent whose cursor stays behind -/

def behind : Name := List.replicate 64 'a'

def held : InventoryObject := ⟨List.replicate 64 'b', 1⟩

/-- The one object, and a cursor before it, to every request. -/
def forever (_ : ℕ) : Answer := .page ⟨[held], some behind⟩

/-- The one object twice, the second time as the last page. -/
def twice (n : ℕ) : Answer := .page ⟨[held], if n = 0 then some behind else none⟩

theorem run_forever {ε : Type} (pager : Pager ε) (n : ℕ) :
    pager.run forever (n + 1) = .asking (some behind) (listedBy forever (n + 1)) := by
  refine run_asks fun k _ => ⟨⟨_, rfl, fun _ => ?_⟩, by simp [forever, Answer.objects], rfl⟩
  cases k with
  | zero => rfl
  | succ k =>
    change inOrder (some behind) [held] = true
    decide +kernel

theorem run_twice {ε : Type} (pager : Pager ε) : pager.run twice 2 = .done (.ok [held, held]) := by
  refine run_eq_ok.2 ⟨1, by omega, fun k hk => ?_, ⟨⟨_, rfl, fun _ => ?_⟩, rfl⟩, rfl⟩
  · obtain rfl : k = 0 := by omega
    exact ⟨⟨_, rfl, fun _ => rfl⟩, by simp [twice, Answer.objects], rfl⟩
  · change inOrder (some behind) [held] = true
    decide +kernel

/-- Every loop takes the same page again and again, and returns a hash twice. -/
theorem cursor_stays_behind :
    (∀ n, @listNamespace Digests.standard [] .chunk forever (n + 1) =
        .asking (some behind) (listedBy forever (n + 1))) ∧
      (∀ n, recoverInventory [] .chunk ⟨0, [], fun _ _ => none⟩ forever (n + 1) =
        .asking (some behind) (listedBy forever (n + 1))) ∧
      (∀ n, listHashes forever (n + 1) = .asking (some behind) (listedBy forever (n + 1))) ∧
      (∃ listing, @listNamespace Digests.standard [] .chunk twice 2 = .done (.ok listing) ∧
        listing.objects.map Prod.fst = [held.hash, held.hash]) ∧
      (∃ inventories, recoverInventory [] .chunk ⟨0, [], fun _ _ => none⟩ twice 2 =
        .done (.ok ([held, held], inventories))) ∧
      listHashes twice 2 = .done (.ok [held.hash, held.hash]) ∧
      ¬ Strict twice (@listNamespace Digests.standard [] .chunk twice)
        (fun listing => listing.objects.map Prod.fst) ∧
      ¬ Strict twice (recoverInventory [] .chunk ⟨0, [], fun _ _ => none⟩ twice)
        (fun result => result.1.map InventoryObject.hash) ∧
      ¬ Strict twice (listHashes twice) id := by
  have hforever {ε α : Type} (pager : Pager ε) (f : List InventoryObject → Except ε α) (n : ℕ) :
      (pager.run forever (n + 1)).andThen f = .asking (some behind) (listedBy forever (n + 1)) :=
    andThen_eq_asking.2 (run_forever pager n)
  have htwice : ∃ listing, @listNamespace Digests.standard [] .chunk twice 2 = .done (.ok listing) ∧
      listing.objects.map Prod.fst = [held.hash, held.hash] := by
    have hends : EndsWithHash [held, held] := by
      intro last hlast
      cases hlast
      decide +kernel
    obtain ⟨listing, hlisting⟩ := (@closeListing_ok Digests.standard .chunk [held, held]).1 hends
    exact ⟨listing, andThen_eq_ok.2 ⟨_, run_twice _, hlisting⟩,
      @closeListing_objects Digests.standard _ _ _ hlisting⟩
  have hrecover : recoverInventory [] .chunk ⟨0, [], fun _ _ => none⟩ twice 2 =
      .done (.ok ([held, held],
        [held, held].foldl (Inventories.add [] .chunk) ⟨0, [], fun _ _ => none⟩)) :=
    andThen_eq_ok.2 ⟨_, run_twice _, rfl⟩
  have hhashes : listHashes twice 2 = .done (.ok [held.hash, held.hash]) :=
    andThen_eq_ok.2 ⟨_, run_twice _, rfl⟩
  have hrepeats : ¬ [held.hash, held.hash].Nodup := by simp
  refine ⟨hforever _ _, hforever _ _, hforever _ _, htwice, ⟨_, hrecover⟩, hhashes,
    fun h => ?_, fun h => ?_, fun h => ?_⟩
  · obtain ⟨listing, hrun, hobjects⟩ := htwice
    have hnodup := (h.listing 2 listing hrun).2
    rw [hobjects] at hnodup
    exact hrepeats hnodup
  · exact hrepeats (h.listing 2 _ hrecover).2
  · exact hrepeats (h.listing 2 _ hhashes).2

end DistrHnsw.Portal
