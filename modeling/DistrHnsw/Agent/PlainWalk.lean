import DistrHnsw.Agent.Inventory

/-!
# The plain walk of an inventory

On a volume as PUTs leave it, a page is the next stretch of the plain walk over all three levels,
and following the cursor gives the whole of it.
-/

namespace DistrHnsw.Agent

/-! ## The order of names -/

theorem lt_of_take_lt : ∀ {n : ℕ} {a b : Name}, a.take n < b.take n → a < b
  | 0, a, b, h => by simp at h
  | n + 1, [], [], h => by simp at h
  | n + 1, [], c :: b, _ => List.nil_lt_cons c b
  | n + 1, c :: a, [], h => by simp at h
  | n + 1, c :: a, d :: b, h => by
    rw [List.take_succ_cons, List.take_succ_cons, List.cons_lt_cons_iff] at h
    rw [List.cons_lt_cons_iff]
    exact h.imp_right fun h => ⟨h.1, lt_of_take_lt h.2⟩

theorem ObjectHash.take_four (hash : ObjectHash) : hash.text.take 4 = hash.first ++ hash.second := by
  unfold first second
  rw [← List.take_add]

/-- Objects under a lower prefix have lower hashes. -/
theorem lt_of_first_lt {a b : ObjectHash} (h : a.first < b.first) : a.text < b.text := lt_of_take_lt h

theorem lt_of_second_lt {a b : ObjectHash} (hfirst : a.first = b.first) (h : a.second < b.second) :
    a.text < b.text := by
  apply lt_of_take_lt (n := 4)
  rw [a.take_four, b.take_four, hfirst]
  exact List.append_left_lt h

theorem not_isTemporary (hash : ObjectHash) : isTemporary hash.text = false := by
  have hdot : '.' ∉ Hex.lower.digits := by decide
  refine decide_eq_false fun h => hdot (hash.digits _ ?_)
  exact List.mem_of_mem_head? h.1

/-! ## The plain walk -/

/-- The object a directory entry is. -/
def objectAt (v : Volume) (dir : List Name) (name : Name) : Option InventoryObject :=
  if isTemporary name then none
  else do
    let hash ← ObjectHash.parse name
    let content ← v.file? (name :: dir)
    pure ⟨hash, content.length⟩

/-- The names in a directory, none if there is no such directory. -/
def namesIn (v : Volume) (dir : List Name) : List Name := (v.sortedEntries dir).getD []

/-- All objects of one kind, level by level. -/
def plainWalk (v : Volume) (kind : ObjectKind) : List InventoryObject :=
  (namesIn v (namespaceOf kind)).flatMap fun first =>
    (namesIn v (first :: namespaceOf kind)).flatMap fun second =>
      (namesIn v (second :: first :: namespaceOf kind)).filterMap
        (objectAt v (second :: first :: namespaceOf kind))

/-- What may stand under a path: kinds, prefix directories, and in them objects and temporary
files. -/
def Fits : List Name → Node → Prop
  | [name], node => node = .dir ∧ ∃ kind : ObjectKind, name = kind.asStr
  | [first, _], node => node = .dir ∧ isHexPrefix first = true
  | [second, _, _], node => node = .dir ∧ isHexPrefix second = true
  | [name, second, first, _], node => node ≠ .dir ∧
      (isTemporary name = true ∨
        ∃ hash : ObjectHash, name = hash.text ∧ first = hash.first ∧ second = hash.second)
  | _, _ => True

/-- A volume as PUTs leave it, with leftover temporary files. -/
structure Laid (v : Volume) : Prop where
  kinds : ∀ kind, v.isDir (namespaceOf kind) = true
  fits : ∀ path node, v.node? path = some node → Fits path node

variable {v : Volume} {kind : ObjectKind} {dir : List Name} {name first second : Name}

theorem Laid.firsts (hv : Laid v) (h : v.node? (first :: namespaceOf kind) ≠ none) :
    v.isDir (first :: namespaceOf kind) = true ∧ isHexPrefix first = true := by
  obtain ⟨node, hnode⟩ := Option.ne_none_iff_exists'.1 h
  obtain ⟨rfl, hhex⟩ := hv.fits _ node hnode
  exact ⟨FileTree.isDir_iff.2 hnode, hhex⟩

theorem Laid.seconds (hv : Laid v) (h : v.node? (second :: first :: namespaceOf kind) ≠ none) :
    v.isDir (second :: first :: namespaceOf kind) = true ∧ isHexPrefix second = true := by
  obtain ⟨node, hnode⟩ := Option.ne_none_iff_exists'.1 h
  obtain ⟨rfl, hhex⟩ := hv.fits _ node hnode
  exact ⟨FileTree.isDir_iff.2 hnode, hhex⟩

theorem Laid.entries (hv : Laid v)
    (h : v.node? (name :: second :: first :: namespaceOf kind) ≠ none) :
    (v.file? (name :: second :: first :: namespaceOf kind)).isSome = true ∧
      (isTemporary name = true ∨
        ∃ hash : ObjectHash, name = hash.text ∧ first = hash.first ∧ second = hash.second) := by
  obtain ⟨node, hnode⟩ := Option.ne_none_iff_exists'.1 h
  obtain ⟨hfile, hname⟩ := hv.fits _ node hnode
  cases node with
  | dir => exact absurd rfl hfile
  | file content => exact ⟨by rw [FileTree.file?_eq_some.2 hnode]; rfl, hname⟩

theorem mem_namesIn : name ∈ namesIn v dir ↔ v.node? (name :: dir) ≠ none := by
  unfold namesIn
  cases h : v.sortedEntries dir with
  | none =>
    have hdir : v.isDir dir = false := by rw [← FileTree.sortedEntries_isSome, h]; rfl
    refine iff_of_false List.not_mem_nil fun hnode => ?_
    rw [FileTree.isDir_parent hnode] at hdir
    cases hdir
  | some names => exact (FileTree.sortedEntries_eq_some h).2 name

theorem namesIn_sorted : (namesIn v dir).Pairwise (· < ·) := by
  unfold namesIn
  cases h : v.sortedEntries dir with
  | none => exact List.Pairwise.nil
  | some names => exact (FileTree.sortedEntries_eq_some h).1

theorem sortedEntries_alone (h : v.isDir dir = true) :
    (sortedEntries dir).alone v = .ok (namesIn v dir) := by
  rw [← FileTree.sortedEntries_isSome, Option.isSome_iff_exists] at h
  obtain ⟨names, hnames⟩ := h
  simp [sortedEntries, namesIn, hnames]

theorem objectAt_eq_some {object : InventoryObject} : objectAt v dir name = some object ↔
    name = object.hash.text ∧ ∃ content, v.file? (name :: dir) = some content ∧
      object.size = content.length := by
  unfold objectAt
  constructor
  · intro h
    split at h
    · cases h
    · obtain ⟨hash, hparse, h⟩ := Option.bind_eq_some_iff.1 h
      obtain ⟨content, hfile, h⟩ := Option.bind_eq_some_iff.1 h
      obtain rfl := Option.some.inj h
      exact ⟨ObjectHash.parse_eq_some.1 hparse, content, hfile, rfl⟩
  · rintro ⟨hname, content, hfile, hsize⟩
    have htemporary : isTemporary name = false := hname ▸ not_isTemporary object.hash
    simp [htemporary, ObjectHash.parse_eq_some.2 hname, hfile, ← hsize]

/-- The objects of one second-level directory. -/
def objectsIn (v : Volume) (kind : ObjectKind) (first second : Name) : List InventoryObject :=
  (namesIn v (second :: first :: namespaceOf kind)).filterMap
    (objectAt v (second :: first :: namespaceOf kind))

theorem plainWalk_eq : plainWalk v kind = (namesIn v (namespaceOf kind)).flatMap fun first =>
    (namesIn v (first :: namespaceOf kind)).flatMap (objectsIn v kind first) := rfl

theorem mem_objectsIn (hv : Laid v) {object : InventoryObject} :
    object ∈ objectsIn v kind first second ↔
      object.hash.first = first ∧ object.hash.second = second ∧
      ∃ content, v.file? (objectPath kind object.hash) = some content ∧
        object.size = content.length := by
  unfold objectsIn
  rw [List.mem_filterMap]
  constructor
  · rintro ⟨name, -, h⟩
    obtain ⟨rfl, content, hfile, hsize⟩ := objectAt_eq_some.1 h
    rcases (hv.entries (FileTree.node?_of_file hfile)).2 with
      htemporary | ⟨hash, hname, hfs⟩
    · rw [not_isTemporary] at htemporary
      cases htemporary
    · obtain rfl := ObjectHash.ext hname
      obtain ⟨rfl, rfl⟩ := hfs
      exact ⟨rfl, rfl, content, hfile, hsize⟩
  · rintro ⟨rfl, rfl, content, hfile, hsize⟩
    exact ⟨object.hash.text, mem_namesIn.2 (FileTree.node?_of_file hfile),
      objectAt_eq_some.2 ⟨rfl, content, hfile, hsize⟩⟩

/-- The plain walk finds exactly the stored objects. -/
theorem mem_plainWalk (hv : Laid v) {object : InventoryObject} : object ∈ plainWalk v kind ↔
    ∃ content, v.file? (objectPath kind object.hash) = some content ∧ object.size = content.length := by
  rw [plainWalk_eq, List.mem_flatMap]
  constructor
  · rintro ⟨first, -, h⟩
    obtain ⟨second, -, h⟩ := List.mem_flatMap.1 h
    exact ((mem_objectsIn hv).1 h).2.2
  · rintro ⟨content, hfile, hsize⟩
    have hparent : v.isDir (parentOf kind object.hash) = true :=
      FileTree.isDir_parent (FileTree.node?_of_file hfile)
    have hfirst : v.isDir (firstPrefix kind object.hash) = true :=
      FileTree.isDir_parent (FileTree.node?_of_isDir hparent)
    refine ⟨object.hash.first, mem_namesIn.2 (FileTree.node?_of_isDir hfirst), ?_⟩
    refine List.mem_flatMap.2 ⟨object.hash.second, ?_, (mem_objectsIn hv).2 ⟨rfl, rfl, content, hfile, hsize⟩⟩
    exact mem_namesIn.2 (FileTree.node?_of_isDir hparent)

theorem objectsIn_sorted :
    (objectsIn v kind first second).Pairwise fun a b => a.hash.text < b.hash.text := by
  unfold objectsIn
  rw [List.pairwise_filterMap]
  refine namesIn_sorted.imp fun h a ha b hb => ?_
  rw [← (objectAt_eq_some.1 ha).1, ← (objectAt_eq_some.1 hb).1]
  exact h

/-- The plain walk goes up. -/
theorem plainWalk_sorted (hv : Laid v) :
    (plainWalk v kind).Pairwise fun a b => a.hash.text < b.hash.text := by
  rw [plainWalk_eq, List.pairwise_flatMap]
  refine ⟨fun first _ => List.pairwise_flatMap.2 ⟨fun second _ => objectsIn_sorted, ?_⟩, ?_⟩
  · refine namesIn_sorted.imp fun hlt a ha b hb => ?_
    obtain ⟨hfirst, hsecond, -⟩ := (mem_objectsIn hv).1 ha
    obtain ⟨hfirst', hsecond', -⟩ := (mem_objectsIn hv).1 hb
    exact lt_of_second_lt (hfirst.trans hfirst'.symm) (by rwa [hsecond, hsecond'])
  · refine namesIn_sorted.imp fun hlt a ha b hb => ?_
    obtain ⟨second, -, ha⟩ := List.mem_flatMap.1 ha
    obtain ⟨second', -, hb⟩ := List.mem_flatMap.1 hb
    exact lt_of_first_lt (by rwa [((mem_objectsIn hv).1 ha).1, ((mem_objectsIn hv).1 hb).1])

/-! ## A page of a volume that does not change -/

/-- The object comes after the cursor. -/
def later (after : Option ObjectHash) (object : InventoryObject) : Bool :=
  !(after.any fun cursor => object.hash.text ≤ cursor.text)

/-- Take objects into a page until it is full and a further one is met. -/
def feed (limit : ℕ) (page : Walked) (more : List InventoryObject) : Walked :=
  ⟨page.objects ++ more.take (limit - page.objects.length),
    limit < page.objects.length + more.length⟩

/-- The page may still grow. -/
structure Room (limit : ℕ) (page : Walked) : Prop where
  hasMore : page.hasMore = false
  length : page.objects.length ≤ limit

variable {limit : ℕ} {page : Walked} {object : InventoryObject} {more : List InventoryObject}
  {after : Option ObjectHash}

theorem feed_nil (h : Room limit page) : feed limit page [] = page := by
  obtain ⟨hmore, hlength⟩ := h
  cases page
  subst hmore
  simpa [feed] using hlength

theorem feed_full (h : page.objects.length = limit) :
    feed limit page (object :: more) = { page with hasMore := true } := by
  simp [feed, h]

theorem feed_cons (h : page.objects.length < limit) : feed limit page (object :: more) =
    feed limit { page with objects := page.objects ++ [object] } more := by
  have hroom : limit - page.objects.length = limit - (page.objects.length + 1) + 1 := by omega
  have hlength : page.objects.length + (more.length + 1) = page.objects.length + 1 + more.length := by
    omega
  simp only [feed, hroom, hlength, List.take_succ_cons, List.length_append, List.length_cons,
    List.length_nil, List.append_assoc, List.singleton_append, Nat.zero_add]

theorem room_feed (h : Room limit page) (hmore : (feed limit page more).hasMore = false) :
    Room limit (feed limit page more) := by
  refine ⟨hmore, ?_⟩
  have hlength := h.length
  simp only [feed, List.length_append, List.length_take]
  omega

theorem feed_append (h : Room limit page) {rest : List InventoryObject} :
    feed limit page (more ++ rest) = if (feed limit page more).hasMore then feed limit page more
      else feed limit (feed limit page more) rest := by
  have hlength := h.length
  by_cases hmore : limit < page.objects.length + more.length
  · have hfirst : (feed limit page more).hasMore = true := decide_eq_true hmore
    rw [if_pos hfirst]
    unfold feed
    rw [List.take_append_of_le_length (by omega)]
    simp only [List.length_append, Walked.mk.injEq, true_and]
    simp only [decide_eq_decide]
    omega
  · have hfirst : (feed limit page more).hasMore = false := decide_eq_false hmore
    have hall : more.take (limit - page.objects.length) = more := List.take_of_length_le (by omega)
    rw [if_neg (by simp [hfirst])]
    unfold feed
    rw [hall, List.take_append, hall]
    simp only [List.length_append, List.append_assoc, Walked.mk.injEq, List.append_cancel_left_eq,
      decide_eq_decide]
    constructor
    · congr 1
      omega
    · omega

variable {names : List Name}

theorem isFile_alone (h : (v.file? dir).isSome = true) : (isFile dir).alone v = .ok true := by
  rw [isFile, Look.alone_see, h]

theorem isDirectory_alone (h : v.isDir dir = true) : (isDirectory dir).alone v = .ok true := by
  rw [isDirectory, Look.alone_see, h]

theorem metadata_alone {content : Bytes} (h : v.file? dir = some content) :
    (metadata dir).alone v = .ok content.length := by
  rw [metadata, Look.alone_see, h]

theorem later_eq_false (h : after.any (fun cursor => object.hash.text ≤ cursor.text) = true) :
    later after object = false := by
  rw [later, h]
  rfl

theorem walkEntries_alone (hnames : ∀ name ∈ names, (v.file? (name :: dir)).isSome = true ∧
      (isTemporary name = true ∨
        ∃ hash : ObjectHash, name = hash.text ∧ first = hash.first ∧ second = hash.second))
    (hpage : Room limit page) : (walkEntries after limit dir first second page names).alone v =
      .ok (feed limit page ((names.filterMap (objectAt v dir)).filter (later after))) := by
  induction names generalizing page with
  | nil => exact congrArg Except.ok (feed_nil hpage).symm
  | cons name names ih =>
    have hrest := fun n hn => hnames n (List.mem_cons_of_mem _ hn)
    obtain ⟨hfile, hkind⟩ := hnames name List.mem_cons_self
    unfold walkEntries
    by_cases htemporary : isTemporary name = true
    · have hnone : objectAt v dir name = none := by simp [objectAt, htemporary]
      rw [if_pos htemporary, ih hrest hpage, List.filterMap_cons_none hnone]
    rcases hkind with hkind | ⟨hash, rfl, rfl, rfl⟩
    · exact absurd hkind htemporary
    obtain ⟨content, hcontent⟩ := Option.isSome_iff_exists.1 hfile
    have hsome : objectAt v dir hash.text = some ⟨hash, content.length⟩ :=
      objectAt_eq_some.2 ⟨rfl, content, hcontent, rfl⟩
    rw [if_neg htemporary, List.filterMap_cons_some hsome, Look.alone_bind_of_ok (isFile_alone hfile)]
    simp only [ObjectHash.parse_eq_some.2 rfl]
    rw [if_neg (by simp), if_neg (by simp)]
    by_cases hlater : after.any (fun cursor => hash.text ≤ cursor.text) = true
    · rw [if_pos hlater, List.filter_cons_of_neg (by simp [later_eq_false, hlater]), ih hrest hpage]
    have hkeep : later after ⟨hash, content.length⟩ = true := by simp [later, hlater]
    rw [if_neg hlater, List.filter_cons_of_pos hkeep]
    by_cases hfull : page.objects.length = limit
    · rw [if_pos hfull, feed_full hfull]
      rfl
    · have hlength := hpage.length
      rw [if_neg hfull, Look.alone_bind_of_ok (metadata_alone hcontent), feed_cons (by omega)]
      refine ih hrest ⟨hpage.hasMore, ?_⟩
      rw [List.length_append, List.length_singleton]
      omega

/-- Before the cursor's prefix nothing is later. -/
theorem filter_later_of_lt {n : ℕ} {cut : Name}
    (hlt : after.any (fun cursor => cut < cursor.text.take n) = true)
    (hcut : ∀ object ∈ more, object.hash.text.take n = cut) : more.filter (later after) = [] := by
  cases after with
  | none => cases hlt
  | some cursor =>
    refine List.filter_eq_nil_iff.2 fun object hobject => ?_
    have hle : object.hash.text ≤ cursor.text := by
      apply le_of_lt (lt_of_take_lt (n := n) _)
      rw [hcut object hobject]
      exact of_decide_eq_true hlt
    simp [later, hle]

theorem walkSeconds_alone (hv : Laid v) (hpage : Room limit page)
    (hnames : ∀ second ∈ names, v.node? (second :: first :: namespaceOf kind) ≠ none) :
    (walkSeconds after limit (first :: namespaceOf kind) first page names).alone v =
      .ok (feed limit page ((names.flatMap (objectsIn v kind first)).filter (later after))) := by
  induction names generalizing page with
  | nil => exact congrArg Except.ok (feed_nil hpage).symm
  | cons second names ih =>
    have hrest := fun n hn => hnames n (List.mem_cons_of_mem _ hn)
    obtain ⟨hdir, hhex⟩ := hv.seconds (hnames second List.mem_cons_self)
    unfold walkSeconds
    rw [Look.alone_bind_of_ok (isDirectory_alone hdir), if_neg (by simp [hhex]), List.flatMap_cons,
      List.filter_append]
    by_cases hskip : after.any (fun cursor => first ++ second < cursor.text.take 4) = true
    · have hnone : (objectsIn v kind first second).filter (later after) = [] := by
        refine filter_later_of_lt hskip fun object hobject => ?_
        obtain ⟨hfirst, hsecond, -⟩ := (mem_objectsIn hv).1 hobject
        rw [object.hash.take_four, hfirst, hsecond]
      rw [if_pos hskip, hnone, List.nil_append, ih hpage hrest]
    · have hentries : (walkEntries after limit (second :: first :: namespaceOf kind) first second page
          (namesIn v (second :: first :: namespaceOf kind))).alone v =
            .ok (feed limit page ((objectsIn v kind first second).filter (later after))) :=
        walkEntries_alone
          (fun name hname => hv.entries (mem_namesIn.1 hname)) hpage
      rw [if_neg hskip, Look.alone_bind_of_ok (sortedEntries_alone hdir),
        Look.alone_bind_of_ok hentries, feed_append hpage]
      by_cases hmore : (feed limit page
          ((objectsIn v kind first second).filter (later after))).hasMore = true
      · rw [if_pos hmore, if_pos hmore]
        rfl
      · rw [if_neg hmore, if_neg hmore]
        exact ih (room_feed hpage (Bool.eq_false_iff.2 hmore)) hrest

theorem walkFirsts_alone (hv : Laid v) (hpage : Room limit page)
    (hnames : ∀ first ∈ names, v.node? (first :: namespaceOf kind) ≠ none) :
    (walkFirsts after limit (namespaceOf kind) page names).alone v =
      .ok (feed limit page ((names.flatMap fun first =>
        (namesIn v (first :: namespaceOf kind)).flatMap (objectsIn v kind first)).filter
          (later after))) := by
  induction names generalizing page with
  | nil => exact congrArg Except.ok (feed_nil hpage).symm
  | cons first names ih =>
    have hrest := fun n hn => hnames n (List.mem_cons_of_mem _ hn)
    obtain ⟨hdir, hhex⟩ := hv.firsts (hnames first List.mem_cons_self)
    unfold walkFirsts
    rw [Look.alone_bind_of_ok (isDirectory_alone hdir), if_neg (by simp [hhex]), List.flatMap_cons,
      List.filter_append]
    by_cases hskip : after.any (fun cursor => first < cursor.text.take 2) = true
    · have hnone : ((namesIn v (first :: namespaceOf kind)).flatMap (objectsIn v kind first)).filter
          (later after) = [] := by
        refine filter_later_of_lt hskip fun object hobject => ?_
        obtain ⟨second, -, hobject⟩ := List.mem_flatMap.1 hobject
        exact ((mem_objectsIn hv).1 hobject).1
      rw [if_pos hskip, hnone, List.nil_append, ih hpage hrest]
    · have hseconds : (walkSeconds after limit (first :: namespaceOf kind) first page
          (namesIn v (first :: namespaceOf kind))).alone v =
            .ok (feed limit page (((namesIn v (first :: namespaceOf kind)).flatMap
              (objectsIn v kind first)).filter (later after))) :=
        walkSeconds_alone hv hpage fun second hsecond => mem_namesIn.1 hsecond
      rw [if_neg hskip, Look.alone_bind_of_ok (sortedEntries_alone hdir),
        Look.alone_bind_of_ok hseconds, feed_append hpage]
      by_cases hmore : (feed limit page (((namesIn v (first :: namespaceOf kind)).flatMap
          (objectsIn v kind first)).filter (later after))).hasMore = true
      · rw [if_pos hmore, if_pos hmore]
        rfl
      · rw [if_neg hmore, if_neg hmore]
        exact ih (room_feed hpage (Bool.eq_false_iff.2 hmore)) hrest

/-- The page that a stretch of objects fills. -/
def pageOf (limit : ℕ) (objects : List InventoryObject) : InventoryPage where
  objects := objects.take limit
  nextAfter := if limit < objects.length then (objects.take limit).getLast?.map InventoryObject.hash
    else none

/-- On a volume that does not change, a page is the next stretch of the plain walk. -/
theorem inventory_alone (hv : Laid v) (hlimit : limit ≠ 0) : (inventory kind after limit).alone v =
    .ok (pageOf (min limit maxInventoryPage) ((plainWalk v kind).filter (later after))) := by
  have hroom : Room (min limit maxInventoryPage) ⟨[], false⟩ := ⟨rfl, Nat.zero_le _⟩
  have hwalk : (walkFirsts after (min limit maxInventoryPage) (namespaceOf kind) ⟨[], false⟩
      (namesIn v (namespaceOf kind))).alone v =
        .ok (feed (min limit maxInventoryPage) ⟨[], false⟩
          ((plainWalk v kind).filter (later after))) :=
    walkFirsts_alone hv hroom fun first hfirst => mem_namesIn.1 hfirst
  unfold inventory
  rw [if_neg hlimit, Look.alone_bind_of_ok (sortedEntries_alone (hv.kinds kind)),
    Look.alone_bind_of_ok hwalk]
  simp [feed, pageOf]

/-! ## All pages of a volume that does not change -/

/-- The pages from a cursor on, until a page names no further one. -/
def pagesOf (v : Volume) (kind : ObjectKind) (limit : ℕ) :
    ℕ → Option ObjectHash → Option (Except StoreError (List InventoryPage))
  | 0, _ => none
  | fuel + 1, after =>
    match (inventory kind after limit).alone v with
    | .error error => some (.error error)
    | .ok page =>
      match page.nextAfter with
      | none => some (.ok [page])
      | some cursor =>
        (pagesOf v kind limit fuel (some cursor)).map fun rest => rest.map fun pages => page :: pages

/-- More fuel gives the same pages. -/
theorem pagesOf_mono {fuel fuel' : ℕ} {result : Except StoreError (List InventoryPage)}
    (h : pagesOf v kind limit fuel after = some result) (hle : fuel ≤ fuel') :
    pagesOf v kind limit fuel' after = some result := by
  induction fuel generalizing fuel' after result with
  | zero => cases h
  | succ fuel ih =>
    obtain ⟨more, rfl⟩ : ∃ more, fuel' = more + 1 := ⟨fuel' - 1, by omega⟩
    unfold pagesOf at h ⊢
    cases hpage : (inventory kind after limit).alone v with
    | error e => simpa only [hpage] using h
    | ok page =>
      simp only [hpage] at h ⊢
      cases hnext : page.nextAfter with
      | none => simpa only [hnext] using h
      | some cursor =>
        simp only [hnext] at h ⊢
        obtain ⟨rest, hrest, rfl⟩ := Option.map_eq_some_iff.1 h
        rw [ih hrest (by omega), Option.map_some]

/-- What comes after the last object of a page is the rest. -/
theorem filter_later_last {objects : List InventoryObject} {n : ℕ} {last : InventoryObject}
    (hsorted : objects.Pairwise fun a b => a.hash.text < b.hash.text)
    (hlast : (objects.take n).getLast? = some last) :
    objects.filter (later (some last.hash)) = objects.drop n := by
  have hmem : last ∈ objects.take n := List.mem_of_getLast? hlast
  obtain ⟨init, hinit⟩ := List.getLast?_eq_some_iff.1 hlast
  have hbefore : (objects.take n).filter (later (some last.hash)) = [] := by
    refine List.filter_eq_nil_iff.2 fun object hobject => ?_
    have hle : object.hash.text ≤ last.hash.text := by
      have htake := hsorted.sublist (List.take_sublist n objects)
      rw [hinit] at htake hobject
      rcases List.mem_append.1 hobject with hobject | hobject
      · exact le_of_lt ((List.pairwise_append.1 htake).2.2 object hobject last (by simp))
      · rw [List.mem_singleton.1 hobject]
    simp [later, hle]
  have hafter : (objects.drop n).filter (later (some last.hash)) = objects.drop n := by
    refine List.filter_eq_self.2 fun object hobject => ?_
    have hsplit := hsorted
    rw [← List.take_append_drop n objects, List.pairwise_append] at hsplit
    simpa [later] using hsplit.2.2 last hmem object hobject
  calc objects.filter (later (some last.hash))
      = (objects.take n ++ objects.drop n).filter (later (some last.hash)) := by
        rw [List.take_append_drop]
    _ = objects.drop n := by rw [List.filter_append, hbefore, hafter, List.nil_append]

theorem later_trans {last : ObjectHash} {size : ℕ} (hlast : later after ⟨last, size⟩ = true)
    (h : later (some last) object = true) : later after object = true := by
  cases after with
  | none => rfl
  | some cursor =>
    simp only [later, Option.any_some, Bool.not_eq_true', decide_eq_false_iff_not, not_le] at hlast h ⊢
    exact lt_trans hlast h

/-- Following the cursor gives the rest of the plain walk, in pages within the limit. -/
theorem pagesOf_eq (hv : Laid v) (hlimit : limit ≠ 0) (fuel : ℕ) (after : Option ObjectHash)
    (hfuel : ((plainWalk v kind).filter (later after)).length < fuel) :
    ∃ pages, pagesOf v kind limit fuel after = some (.ok pages) ∧
      pages.flatMap InventoryPage.objects = (plainWalk v kind).filter (later after) ∧
      ∀ page ∈ pages, page.objects.length ≤ min limit maxInventoryPage := by
  induction fuel generalizing after with
  | zero => exact absurd hfuel (Nat.not_lt_zero _)
  | succ fuel ih =>
    set bound := min limit maxInventoryPage with hbound
    have hpos : 0 < bound := by
      rw [hbound, maxInventoryPage]
      omega
    unfold pagesOf
    rw [inventory_alone hv hlimit, ← hbound]
    set objects := (plainWalk v kind).filter (later after) with hobjects
    have hsize : (objects.take bound).length ≤ bound := List.length_take_le _ _
    by_cases hmore : bound < objects.length
    · have hne : objects.take bound ≠ [] := by
        rw [← List.length_pos_iff, List.length_take]
        omega
      have hlast := List.getLast?_eq_some_getLast hne
      set last := (objects.take bound).getLast hne
      have hmem : last ∈ objects := List.mem_of_mem_take (List.getLast_mem hne)
      have hrest : (plainWalk v kind).filter (later (some last.hash)) = objects.drop bound := by
        have hsub : (plainWalk v kind).filter (later (some last.hash)) =
            objects.filter (later (some last.hash)) := by
          rw [hobjects, List.filter_filter]
          refine List.filter_congr fun object _ => ?_
          have htrans (h : later (some last.hash) object = true) : later after object = true :=
            later_trans (List.mem_filter.1 hmem).2 h
          cases hlater : later (some last.hash) object with
          | false => rfl
          | true => rw [htrans hlater, Bool.and_self]
        rw [hsub]
        exact filter_later_last ((plainWalk_sorted hv).filter _) hlast
      obtain ⟨pages, hpages, hflat, hpage⟩ := ih (some last.hash) (by
        rw [hrest, List.length_drop]
        omega)
      refine ⟨pageOf bound objects :: pages, ?_, ?_, ?_⟩
      · simp only [pageOf, hmore, hlast, hpages, if_true, Option.map_some]
        rfl
      · rw [List.flatMap_cons, hflat, hrest]
        exact List.take_append_drop bound objects
      · intro page hmem
        rcases List.mem_cons.1 hmem with rfl | hmem
        · exact hsize
        · exact hpage page hmem
    · have hall : objects.take bound = objects := List.take_of_length_le (by omega)
      refine ⟨[pageOf bound objects], by simp [pageOf, hmore], by simp [pageOf, hall], ?_⟩
      intro page hmem
      rw [List.mem_singleton.1 hmem]
      exact hsize

end DistrHnsw.Agent
