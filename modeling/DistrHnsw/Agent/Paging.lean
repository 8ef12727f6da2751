import DistrHnsw.Agent.PlainWalk

/-!
# Paging beside other calls

Whatever happens between two looks at the volume, a listing goes up, names no object twice and names
every object that stays on the volume.
-/

namespace DistrHnsw.Agent

variable {kind : ObjectKind} {dir names : List Name} {first second : Name} {limit : ℕ}
  {page : Walked} {object : InventoryObject} {after : Option ObjectHash}

/-! ## A page among changes -/

/-- What a stretch of the walk adds: objects in order, after the cursor and of the kind `Here`. -/
structure Grown (after : Option ObjectHash) (limit : ℕ) (Here : ObjectHash → Prop) (page result : Walked)
    (new : List InventoryObject) : Prop where
  objects : result.objects = page.objects ++ new
  sorted : new.Pairwise fun a b => a.hash.text < b.hash.text
  here : ∀ object ∈ new, Here object.hash ∧ later after object = true
  length : result.objects.length ≤ limit
  full : result.hasMore = true → result.objects.length = limit

/-- The walk has met the object, or stopped before it. -/
def Covered (hash : ObjectHash) (page : Walked) : Prop :=
  hash ∈ page.objects.map InventoryObject.hash ∨
    page.hasMore = true ∧ ∀ object ∈ page.objects, object.hash.text < hash.text

/-- The object lies ahead of the walk. -/
def Ahead (hash : ObjectHash) (page : Walked) : Prop :=
  ∀ object ∈ page.objects, object.hash.text < hash.text

variable {P : Volume → Prop} {Here Here' : ObjectHash → Prop} {result : Walked}
  {new : List InventoryObject} {hash : ObjectHash}

theorem Room.grown (h : Room limit page) : Grown after limit Here page page [] :=
  ⟨(List.append_nil _).symm, List.Pairwise.nil, by simp, h.length, by simp [h.hasMore]⟩

theorem Grown.weaken (h : Grown after limit Here page result new) (himp : ∀ hash, Here hash → Here' hash) :
    Grown after limit Here' page result new :=
  { h with here := fun object hobject => (h.here object hobject).imp_left (himp _) }

/-- One stretch after the other. -/
theorem Grown.trans {middle : Walked} {rest : List InventoryObject}
    (h : Grown after limit Here page middle new) (h' : Grown after limit Here' middle result rest)
    (hlt : ∀ a b : ObjectHash, Here a → Here' b → a.text < b.text) :
    Grown after limit (fun hash => Here hash ∨ Here' hash) page result (new ++ rest) where
  objects := by rw [h'.objects, h.objects, List.append_assoc]
  sorted := List.pairwise_append.2 ⟨h.sorted, h'.sorted, fun a ha b hb =>
    hlt _ _ (h.here a ha).1 (h'.here b hb).1⟩
  here object hobject := by
    rcases List.mem_append.1 hobject with hobject | hobject
    · exact (h.here object hobject).imp_left Or.inl
    · exact (h'.here object hobject).imp_left Or.inr
  length := h'.length
  full := h'.full

theorem walkEntries_grown (hnames : names.Pairwise (· < ·)) (hpage : Room limit page) :
    (walkEntries after limit dir first second page names).Yields P fun result =>
      ∃ new, Grown after limit
        (fun hash => hash.first = first ∧ hash.second = second ∧ hash.text ∈ names) page result new := by
  induction names generalizing page with
  | nil => exact ⟨[], hpage.grown⟩
  | cons name names ih =>
    obtain ⟨hhead, hnames'⟩ := List.pairwise_cons.1 hnames
    have hskip : (walkEntries after limit dir first second page names).Yields P fun result =>
        ∃ new, Grown after limit (fun hash => hash.first = first ∧ hash.second = second ∧
          hash.text ∈ name :: names) page result new :=
      (ih hnames' hpage).mono fun result h => h.imp fun new h => h.weaken fun hash h =>
        ⟨h.1, h.2.1, List.mem_cons_of_mem name h.2.2⟩
    unfold walkEntries
    by_cases htemporary : isTemporary name = true
    · rw [if_pos htemporary]
      exact hskip
    rw [if_neg htemporary]
    refine Look.yields_bind.2 (Look.yields_see.2 fun s _ there _ => ?_)
    split
    · trivial
    split
    · trivial
    · rename_i hash hparse
      split
      · trivial
      rename_i hstem
      split
      · exact hskip
      rename_i hlater
      split
      · rename_i hfull
        exact ⟨[], (List.append_nil _).symm, List.Pairwise.nil, by simp, hpage.length, fun _ => hfull⟩
      rename_i hfull
      refine Look.yields_bind.2 (Look.yields_see.2 fun s _ size _ => ?_)
      obtain rfl := ObjectHash.parse_eq_some.1 hparse
      simp only [ne_eq, not_or, not_not] at hstem
      have hlength := hpage.length
      have hgrown : Grown after limit (· = hash) page
          { page with objects := page.objects ++ [⟨hash, size⟩] } [⟨hash, size⟩] := by
        refine ⟨rfl, List.pairwise_singleton _ _, ?_, ?_, by simp [hpage.hasMore]⟩
        · simp [later, hlater]
        · rw [List.length_append, List.length_singleton]
          omega
      have hroom : Room limit { page with objects := page.objects ++ [⟨hash, size⟩] } :=
        ⟨hpage.hasMore, hgrown.length⟩
      refine (ih hnames' hroom).mono fun result h => ?_
      obtain ⟨new, h⟩ := h
      refine ⟨[⟨hash, size⟩] ++ new, ?_⟩
      refine (hgrown.trans h fun a b ha hb => ?_).weaken fun a ha => ?_
      · rw [ha]
        exact hhead b.text hb.2.2
      · rcases ha with rfl | ha
        · exact ⟨hstem.1.symm, hstem.2.symm, List.mem_cons_self⟩
        · exact ⟨ha.1, ha.2.1, List.mem_cons_of_mem _ ha.2.2⟩

theorem covered_of_grown (h : Grown after limit Here page result new)
    (hmem : hash ∈ page.objects.map InventoryObject.hash) : Covered hash result := by
  left
  rw [h.objects, List.map_append]
  exact List.mem_append_left _ hmem

/-- The walk of a directory meets each name it was given, or stops before it. -/
theorem walkEntries_covered (hnames : names.Pairwise (· < ·)) (hpage : Room limit page)
    (hmem : hash.text ∈ names) (hahead : Ahead hash page)
    (hlater : ∀ size, later after ⟨hash, size⟩ = true) :
    (walkEntries after limit dir first second page names).Yields P (Covered hash) := by
  induction names generalizing page with
  | nil => cases hmem
  | cons name names ih =>
    obtain ⟨hhead, hnames'⟩ := List.pairwise_cons.1 hnames
    unfold walkEntries
    by_cases htemporary : isTemporary name = true
    · rw [if_pos htemporary]
      rcases List.mem_cons.1 hmem with rfl | hmem
      · rw [not_isTemporary] at htemporary
        cases htemporary
      · exact ih hnames' hpage hmem hahead
    rw [if_neg htemporary]
    refine Look.yields_bind.2 (Look.yields_see.2 fun s _ there _ => ?_)
    split
    · trivial
    split
    · trivial
    · rename_i found hparse
      obtain rfl := ObjectHash.parse_eq_some.1 hparse
      split
      · trivial
      split
      · rename_i hskip
        rcases List.mem_cons.1 hmem with heq | hmem
        · have hfalse : later after ⟨found, 0⟩ = false := later_eq_false hskip
          rw [← ObjectHash.ext heq, hlater 0] at hfalse
          cases hfalse
        · exact ih hnames' hpage hmem hahead
      split
      · exact .inr ⟨rfl, hahead⟩
      rename_i hfull
      refine Look.yields_bind.2 (Look.yields_see.2 fun s _ size _ => ?_)
      have hlength := hpage.length
      have hroom : Room limit { page with objects := page.objects ++ [⟨found, size⟩] } := by
        refine ⟨hpage.hasMore, ?_⟩
        rw [List.length_append, List.length_singleton]
        omega
      rcases List.mem_cons.1 hmem with heq | hmem
      · refine (walkEntries_grown hnames' hroom).mono fun result ⟨new, h⟩ => covered_of_grown h ?_
        simp [ObjectHash.ext heq]
      · refine ih hnames' hroom hmem fun object hobject => ?_
        rcases List.mem_append.1 hobject with hobject | hobject
        · exact hahead object hobject
        · rw [List.mem_singleton.1 hobject]
          exact hhead _ hmem

theorem Grown.room (h : Grown after limit Here page result new) (hmore : ¬ result.hasMore = true) :
    Room limit result := ⟨Bool.eq_false_iff.2 hmore, h.length⟩

/-- Objects under lower prefixes leave the object ahead. -/
theorem Grown.ahead (h : Grown after limit Here page result new) (hahead : Ahead hash page)
    (hlt : ∀ other, Here other → other.text < hash.text) : Ahead hash result := by
  intro object hobject
  rw [h.objects, List.mem_append] at hobject
  rcases hobject with hobject | hobject
  · exact hahead object hobject
  · exact hlt _ (h.here object hobject).1

/-- A prefix that is skipped is not that of a later object. -/
theorem not_skipped {n : ℕ} (hlater : ∀ size, later after ⟨hash, size⟩ = true) :
    ¬ after.any (fun cursor => hash.text.take n < cursor.text.take n) = true := by
  intro hskip
  have hnone : [(⟨hash, 0⟩ : InventoryObject)].filter (later after) = [] :=
    filter_later_of_lt hskip (by simp)
  rw [List.filter_cons_of_pos (hlater 0)] at hnone
  cases hnone

theorem sortedEntries_yields {Q : List Name → Prop}
    (h : ∀ v, P v → ∀ names, names.Pairwise (· < ·) →
      (∀ name, name ∈ names ↔ FileTree.node? v (name :: dir) ≠ none) → Q names) :
    (sortedEntries dir).Yields P Q := by
  refine Look.yields_see.2 fun v hv names hnames => ?_
  split at hnames
  · rename_i entries hentries
    obtain rfl := Except.ok.inj hnames
    obtain ⟨hsorted, hmem⟩ := FileTree.sortedEntries_eq_some hentries
    exact h v hv entries hsorted hmem
  · cases hnames

theorem walkSeconds_grown (hnames : names.Pairwise (· < ·)) (hpage : Room limit page) :
    (walkSeconds after limit dir first page names).Yields P fun result =>
      ∃ new, Grown after limit (fun hash => hash.first = first ∧ hash.second ∈ names)
        page result new := by
  induction names generalizing page with
  | nil => exact ⟨[], hpage.grown⟩
  | cons second names ih =>
    obtain ⟨hhead, hnames'⟩ := List.pairwise_cons.1 hnames
    unfold walkSeconds
    refine Look.yields_bind.2 (Look.yields_see.2 fun s _ there _ => ?_)
    split
    · trivial
    split
    · exact (ih hnames' hpage).mono fun result h => h.imp fun new h =>
        h.weaken fun hash h => ⟨h.1, List.mem_cons_of_mem _ h.2⟩
    refine Look.yields_bind.2 (sortedEntries_yields fun v _ entries hentries _ => ?_)
    refine Look.yields_bind.2 ((walkEntries_grown hentries hpage).mono fun middle h => ?_)
    obtain ⟨new, h⟩ := h
    split
    · exact ⟨new, h.weaken fun hash h => ⟨h.1, h.2.1 ▸ List.mem_cons_self⟩⟩
    rename_i hmore
    refine (ih hnames' (h.room hmore)).mono fun result h' => ?_
    obtain ⟨rest, h'⟩ := h'
    refine ⟨new ++ rest, (h.trans h' fun a b ha hb => ?_).weaken fun hash h => ?_⟩
    · exact lt_of_second_lt (ha.1.trans hb.1.symm) (ha.2.1 ▸ hhead _ hb.2)
    · rcases h with h | h
      · exact ⟨h.1, h.2.1 ▸ List.mem_cons_self⟩
      · exact ⟨h.1, List.mem_cons_of_mem _ h.2⟩

/-- The object is on the volume. -/
def Holds (kind : ObjectKind) (hash : ObjectHash) (v : Volume) : Prop :=
  (v.file? (objectPath kind hash)).isSome = true

theorem Holds.node {v : Volume} (h : Holds kind hash v) : v.node? (objectPath kind hash) ≠ none := by
  obtain ⟨content, hcontent⟩ := Option.isSome_iff_exists.1 h
  exact FileTree.node?_of_file hcontent

theorem Holds.parent {v : Volume} (h : Holds kind hash v) : v.node? (parentOf kind hash) ≠ none :=
  FileTree.node?_of_isDir (FileTree.isDir_parent h.node)

theorem Holds.firstPrefix {v : Volume} (h : Holds kind hash v) :
    v.node? (firstPrefix kind hash) ≠ none :=
  FileTree.node?_of_isDir (FileTree.isDir_parent h.parent)

theorem walkSeconds_covered (hnames : names.Pairwise (· < ·)) (hpage : Room limit page)
    (hmem : hash.second ∈ names) (hahead : Ahead hash page)
    (hlater : ∀ size, later after ⟨hash, size⟩ = true) :
    (walkSeconds after limit (firstPrefix kind hash) hash.first page names).Yields (Holds kind hash)
      (Covered hash) := by
  induction names generalizing page with
  | nil => cases hmem
  | cons second names ih =>
    obtain ⟨hhead, hnames'⟩ := List.pairwise_cons.1 hnames
    unfold walkSeconds
    refine Look.yields_bind.2 (Look.yields_see.2 fun s _ there _ => ?_)
    split
    · trivial
    rcases List.mem_cons.1 hmem with rfl | hmem
    · rw [if_neg (by rw [← hash.take_four]; exact not_skipped hlater)]
      refine Look.yields_bind.2 (sortedEntries_yields fun v hv entries hentries hin => ?_)
      have hcovered : (walkEntries after limit (parentOf kind hash) hash.first hash.second page
          entries).Yields (Holds kind hash) (Covered hash) :=
        walkEntries_covered hentries hpage ((hin _).2 hv.node) hahead hlater
      refine Look.yields_bind.2 (((walkEntries_grown hentries hpage).and hcovered).mono
        fun middle h => ?_)
      obtain ⟨⟨new, hgrown⟩, hcovered⟩ := h
      split
      · exact hcovered
      rename_i hmore
      refine (walkSeconds_grown hnames' (hgrown.room hmore)).mono fun result h => ?_
      obtain ⟨rest, h⟩ := h
      exact covered_of_grown h (hcovered.resolve_right fun hstop => hmore hstop.1)
    · split
      · exact ih hnames' hpage hmem hahead
      refine Look.yields_bind.2 (sortedEntries_yields fun v hv entries hentries _ => ?_)
      refine Look.yields_bind.2 ((walkEntries_grown hentries hpage).mono fun middle h => ?_)
      obtain ⟨new, hgrown⟩ := h
      have hahead' : Ahead hash middle := hgrown.ahead hahead fun other h =>
        lt_of_second_lt h.1 (h.2.1 ▸ hhead _ hmem)
      split
      · exact .inr ⟨‹_›, hahead'⟩
      · exact ih hnames' (hgrown.room ‹_›) hmem hahead'

theorem walkFirsts_grown (hnames : names.Pairwise (· < ·)) (hpage : Room limit page) :
    (walkFirsts after limit dir page names).Yields P fun result =>
      ∃ new, Grown after limit (fun hash => hash.first ∈ names) page result new := by
  induction names generalizing page with
  | nil => exact ⟨[], hpage.grown⟩
  | cons first names ih =>
    obtain ⟨hhead, hnames'⟩ := List.pairwise_cons.1 hnames
    unfold walkFirsts
    refine Look.yields_bind.2 (Look.yields_see.2 fun s _ there _ => ?_)
    split
    · trivial
    split
    · exact (ih hnames' hpage).mono fun result h => h.imp fun new h =>
        h.weaken fun hash h => List.mem_cons_of_mem _ h
    refine Look.yields_bind.2 (sortedEntries_yields fun v _ entries hentries _ => ?_)
    refine Look.yields_bind.2 ((walkSeconds_grown hentries hpage).mono fun middle h => ?_)
    obtain ⟨new, h⟩ := h
    split
    · exact ⟨new, h.weaken fun hash h => h.1 ▸ List.mem_cons_self⟩
    rename_i hmore
    refine (ih hnames' (h.room hmore)).mono fun result h' => ?_
    obtain ⟨rest, h'⟩ := h'
    refine ⟨new ++ rest, (h.trans h' fun a b ha hb => ?_).weaken fun hash h => ?_⟩
    · exact lt_of_first_lt (ha.1 ▸ hhead _ hb)
    · rcases h with h | h
      · exact h.1 ▸ List.mem_cons_self
      · exact List.mem_cons_of_mem _ h

theorem walkFirsts_covered (hnames : names.Pairwise (· < ·)) (hpage : Room limit page)
    (hmem : hash.first ∈ names) (hahead : Ahead hash page)
    (hlater : ∀ size, later after ⟨hash, size⟩ = true) :
    (walkFirsts after limit (namespaceOf kind) page names).Yields (Holds kind hash)
      (Covered hash) := by
  induction names generalizing page with
  | nil => cases hmem
  | cons first names ih =>
    obtain ⟨hhead, hnames'⟩ := List.pairwise_cons.1 hnames
    unfold walkFirsts
    refine Look.yields_bind.2 (Look.yields_see.2 fun s _ there _ => ?_)
    split
    · trivial
    rcases List.mem_cons.1 hmem with rfl | hmem
    · have hkeep : ¬ after.any (fun cursor => hash.first < cursor.text.take 2) = true :=
        not_skipped hlater
      rw [if_neg hkeep]
      refine Look.yields_bind.2 (sortedEntries_yields fun v hv seconds hseconds hin => ?_)
      have hcovered : (walkSeconds after limit (firstPrefix kind hash) hash.first page seconds).Yields
          (Holds kind hash) (Covered hash) :=
        walkSeconds_covered hseconds hpage ((hin _).2 hv.parent) hahead hlater
      refine Look.yields_bind.2 (((walkSeconds_grown hseconds hpage).and hcovered).mono
        fun middle h => ?_)
      obtain ⟨⟨new, hgrown⟩, hcovered⟩ := h
      split
      · exact hcovered
      rename_i hmore
      refine (walkFirsts_grown hnames' (hgrown.room hmore)).mono fun result h => ?_
      obtain ⟨rest, h⟩ := h
      exact covered_of_grown h (hcovered.resolve_right fun hstop => hmore hstop.1)
    · split
      · exact ih hnames' hpage hmem hahead
      refine Look.yields_bind.2 (sortedEntries_yields fun v hv seconds hseconds _ => ?_)
      refine Look.yields_bind.2 ((walkSeconds_grown hseconds hpage).mono fun middle h => ?_)
      obtain ⟨new, hgrown⟩ := h
      have hahead' : Ahead hash middle := hgrown.ahead hahead fun other h =>
        lt_of_first_lt (h.1 ▸ hhead _ hmem)
      split
      · exact .inr ⟨‹_›, hahead'⟩
      · exact ih hnames' (hgrown.room ‹_›) hmem hahead'

/-! ## A listing -/

/-- What every page is: objects in order after the cursor, the next cursor the last of them. -/
structure PageFine (after : Option ObjectHash) (limit : ℕ) (page : InventoryPage) : Prop where
  sorted : page.objects.Pairwise fun a b => a.hash.text < b.hash.text
  above : ∀ object ∈ page.objects, later after object = true
  length : page.objects.length ≤ min limit maxInventoryPage
  next : ∀ cursor ∈ page.nextAfter, ∃ object ∈ page.objects.getLast?, object.hash = cursor

theorem inventory_fine : (inventory kind after limit).Yields P (PageFine after limit) := by
  unfold inventory
  split
  · trivial
  refine Look.yields_bind.2 (sortedEntries_yields fun v _ firsts hfirsts _ => ?_)
  refine Look.yields_bind.2 ((walkFirsts_grown hfirsts ⟨rfl, Nat.zero_le _⟩).mono fun result h => ?_)
  obtain ⟨new, h⟩ := h
  have hnew : result.objects = new := h.objects
  refine ⟨hnew ▸ h.sorted, fun object hobject => ?_, h.length, fun cursor hcursor => ?_⟩
  · rw [hnew] at hobject
    exact (h.here object hobject).2
  · split at hcursor
    · obtain ⟨object, hobject, rfl⟩ := Option.map_eq_some_iff.1 hcursor
      exact ⟨object, hobject, rfl⟩
    · cases hcursor

/-- An object that stays is on the page, or the page stops before it. -/
theorem inventory_covers (hlater : ∀ size, later after ⟨hash, size⟩ = true) :
    (inventory kind after limit).Yields (Holds kind hash) fun page =>
      hash ∈ page.objects.map InventoryObject.hash ∨
        ∃ cursor ∈ page.nextAfter, cursor.text < hash.text := by
  unfold inventory
  split
  · trivial
  rename_i hlimit
  have hroom : Room (min limit maxInventoryPage) ⟨[], false⟩ := ⟨rfl, Nat.zero_le _⟩
  refine Look.yields_bind.2 (sortedEntries_yields fun v hv firsts hfirsts hin => ?_)
  have hcovered : (walkFirsts after (min limit maxInventoryPage) (namespaceOf kind) ⟨[], false⟩
      firsts).Yields (Holds kind hash) (Covered hash) :=
    walkFirsts_covered hfirsts hroom ((hin _).2 hv.firstPrefix) (by simp [Ahead]) hlater
  refine Look.yields_bind.2 (((walkFirsts_grown hfirsts hroom).and hcovered).mono fun result h => ?_)
  obtain ⟨⟨new, hgrown⟩, hcovered⟩ := h
  rcases hcovered with hmem | ⟨hmore, hahead⟩
  · exact .inl hmem
  have hlength := hgrown.full hmore
  have hne : result.objects ≠ [] := by
    rw [← List.length_pos_iff, hlength, maxInventoryPage]
    omega
  refine .inr ⟨(result.objects.getLast hne).hash, ?_, hahead _ (List.getLast_mem hne)⟩
  simp [hmore, List.getLast?_eq_some_getLast hne]

/-- The pages from a cursor on, each call looking at the servers given, until a page names no
further one. -/
inductive Listing (kind : ObjectKind) (limit : ℕ) :
    Option ObjectHash → List Server → List InventoryPage → Prop
  | last {after : Option ObjectHash} {seen : List Server} {page : InventoryPage}
      (call : (inventory kind after limit).Among (seen.map fun server => server.state.volume) (.ok page))
      (ends : page.nextAfter = none) : Listing kind limit after seen [page]
  | more {after : Option ObjectHash} {seen later : List Server} {page : InventoryPage}
      {pages : List InventoryPage} {cursor : ObjectHash}
      (call : (inventory kind after limit).Among (seen.map fun server => server.state.volume) (.ok page))
      (follows : page.nextAfter = some cursor) (rest : Listing kind limit (some cursor) later pages) :
      Listing kind limit after (seen ++ later) (page :: pages)

variable {seen : List Server} {page : InventoryPage} {pages : List InventoryPage}

theorem PageFine.of_among (h : (inventory kind after limit).Among
    (seen.map fun server => server.state.volume) (.ok page)) : PageFine after limit page :=
  inventory_fine.among (P := fun _ => True) h fun _ _ => trivial

/-- What comes after the cursor of a page comes after all of the page. -/
theorem PageFine.before (h : PageFine after limit page) {cursor : ObjectHash}
    (hcursor : page.nextAfter = some cursor) {a b : InventoryObject} (ha : a ∈ page.objects)
    (hb : later (some cursor) b = true) : a.hash.text < b.hash.text := by
  obtain ⟨last, hlast, rfl⟩ := h.next cursor hcursor
  have hlt : last.hash.text < b.hash.text := by simpa [later] using hb
  obtain ⟨init, hinit⟩ := List.getLast?_eq_some_iff.1 hlast
  have hsorted := h.sorted
  rw [hinit] at ha hsorted
  rcases List.mem_append.1 ha with ha | ha
  · exact ((List.pairwise_append.1 hsorted).2.2 a ha last (by simp)).trans hlt
  · rwa [List.mem_singleton.1 ha]

/-- A listing goes up from its cursor. -/
theorem Listing.sorted (h : Listing kind limit after seen pages) :
    (pages.flatMap InventoryPage.objects).Pairwise (fun a b => a.hash.text < b.hash.text) ∧
      ∀ object ∈ pages.flatMap InventoryPage.objects, later after object = true := by
  induction h with
  | last call ends =>
    have hpage := PageFine.of_among call
    simpa using ⟨hpage.sorted, hpage.above⟩
  | @more after seen rest page pages cursor call follows _ ih =>
    have hpage := PageFine.of_among call
    obtain ⟨hsorted, hlater⟩ := ih
    rw [List.flatMap_cons]
    refine ⟨List.pairwise_append.2 ⟨hpage.sorted, hsorted, fun a ha b hb =>
      hpage.before follows ha (hlater b hb)⟩, fun object hobject => ?_⟩
    rcases List.mem_append.1 hobject with hobject | hobject
    · exact hpage.above object hobject
    · obtain ⟨last, hlast, rfl⟩ := hpage.next cursor follows
      exact later_trans (hpage.above last (List.mem_of_getLast? hlast)) (hlater object hobject)

theorem Listing.length (h : Listing kind limit after seen pages) :
    ∀ page ∈ pages, page.objects.length ≤ min limit maxInventoryPage := by
  induction h with
  | last call ends => simpa using (PageFine.of_among call).length
  | more call follows _ ih => exact List.forall_mem_cons.2 ⟨(PageFine.of_among call).length, ih⟩

/-- An object after the cursor that stays on the volume is listed. -/
theorem Listing.complete (h : Listing kind limit after seen pages)
    (hlater : ∀ size, later after ⟨hash, size⟩ = true)
    (hstays : ∀ server ∈ seen, Holds kind hash server.state.volume) :
    hash ∈ (pages.flatMap InventoryPage.objects).map InventoryObject.hash := by
  have hcovers {after : Option ObjectHash} {seen : List Server} {page : InventoryPage}
      (hlater : ∀ size, later after ⟨hash, size⟩ = true)
      (hstays : ∀ server ∈ seen, Holds kind hash server.state.volume)
      (call : (inventory kind after limit).Among
        (seen.map fun server => server.state.volume) (.ok page)) :=
    (inventory_covers hlater).among call fun v hv => by
      obtain ⟨server, hserver, rfl⟩ := List.mem_map.1 hv
      exact hstays server hserver
  induction h with
  | last call ends =>
    rcases hcovers hlater hstays call with hmem | ⟨cursor, hcursor, -⟩
    · simpa using hmem
    · cases ends.symm.trans hcursor
  | more call follows _ ih =>
    rw [List.flatMap_cons, List.map_append, List.mem_append]
    rcases hcovers hlater (fun server h => hstays server (List.mem_append_left _ h)) call with
      hmem | ⟨cursor, hcursor, hlt⟩
    · exact .inl hmem
    · obtain rfl := Option.some.inj (follows.symm.trans hcursor)
      exact .inr (ih (fun size => by simpa [later] using hlt)
        fun server h => hstays server (List.mem_append_right _ h))

end DistrHnsw.Agent
