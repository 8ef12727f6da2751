import DistrHnsw.Agent.Calls

/-!
# Opening a store

Opening makes the directories of the kinds and adds up the sizes of all objects, page by page.
-/

namespace DistrHnsw.Agent

/-- `ensure_child_directory` for each kind. -/
def ensureKinds : List ObjectKind → Volume → Except StoreError Volume
  | [], v => .ok v
  | kind :: kinds, v =>
    match v.createDir (namespaceOf kind) with
    | .ok v => ensureKinds kinds v
    | .error .alreadyExists =>
      if v.isDir (namespaceOf kind) then ensureKinds kinds v else .error (.io .alreadyExists)
    | .error error => .error (.io error)

/-- The sizes of a page added to a saturating count. -/
def addPage (used : ℕ) (page : InventoryPage) : ℕ :=
  min (used + (page.objects.map InventoryObject.size).sum % 2 ^ 64) (2 ^ 64 - 1)

/-- The bytes of all objects of the kinds. -/
def countKinds (v : Volume) (fuel : ℕ) : List ObjectKind → ℕ → Option (Except StoreError ℕ)
  | [], used => some (.ok used)
  | kind :: kinds, used =>
    match pagesOf v kind maxInventoryPage fuel none with
    | none => none
    | some (.error error) => some (.error error)
    | some (.ok pages) => countKinds v fuel kinds (pages.foldl addPage used)

/-- `DurableStore::open`; `none` if the paging takes more than `fuel` pages. -/
def openStore (fuel : ℕ) (v : Volume) : Option (Except StoreError State) :=
  match ensureKinds ObjectKind.all v with
  | .error error => some (.error error)
  | .ok v => (countKinds v fuel ObjectKind.all 0).map fun used => used.map fun used => ⟨v, used⟩

/-- The sum of the sizes of the stored objects. -/
def storedBytes (v : Volume) : ℕ :=
  ((ObjectKind.all.flatMap (plainWalk v)).map InventoryObject.size).sum

/-- A volume nothing was stored on. -/
def freshVolume : Volume where
  nodes := AList.singleton [] .dir
  root := rfl
  parents name parent h := by simp [AList.mem_keys] at h

/-! ## The directories of the kinds -/

variable {v v' : Volume} {kind : ObjectKind} {kinds : List ObjectKind}

theorem fits_createDir (h : v.createDir (namespaceOf kind) = .ok v')
    (hv : ∀ path node, v.node? path = some node → Fits path node) :
    (∀ path node, v'.node? path = some node → Fits path node) ∧
      ∀ path, path = namespaceOf kind ∨ v.isDir path = true → v'.isDir path = true := by
  obtain ⟨hnew, name, parent, hparent, hfree, hpath, rfl⟩ := FileTree.create_eq_ok h
  refine ⟨fun path node hnode => ?_, fun path hdir => ?_⟩
  · rw [FileTree.node?_put] at hnode
    split at hnode
    · obtain rfl := Option.some.inj hnode
      subst path
      rw [← hpath]
      exact ⟨rfl, kind, rfl⟩
    · exact hv path node hnode
  · rw [FileTree.isDir_iff, FileTree.node?_put]
    split
    · rfl
    · rename_i hne
      rcases hdir with rfl | hdir
      · exact absurd hpath hne
      · exact FileTree.isDir_iff.1 hdir

/-- On a volume that PUTs left, opening finds or makes each kind. -/
theorem ensureKinds_ok (hv : ∀ path node, v.node? path = some node → Fits path node) :
    ∃ v', ensureKinds kinds v = .ok v' ∧
      (∀ path node, v'.node? path = some node → Fits path node) ∧
      ∀ path, (∃ kind ∈ kinds, path = namespaceOf kind) ∨ v.isDir path = true →
        v'.isDir path = true := by
  induction kinds generalizing v with
  | nil => exact ⟨v, rfl, hv, fun path h => h.resolve_left (by simp)⟩
  | cons kind kinds ih =>
    unfold ensureKinds
    cases hnode : v.node? (namespaceOf kind) with
    | none =>
      obtain ⟨v₁, hmade⟩ : ∃ v₁, v.createDir (namespaceOf kind) = .ok v₁ :=
        FileTree.create_ok hnode (FileTree.isDir_iff.2 v.root)
      obtain ⟨hfits, hdirs⟩ := fits_createDir hmade hv
      obtain ⟨v', hrest, hfits', hdirs'⟩ := ih hfits
      rw [hmade]
      refine ⟨v', hrest, hfits', fun path h => hdirs' path ?_⟩
      rcases h with ⟨k, hk, rfl⟩ | h
      · rcases List.mem_cons.1 hk with rfl | hk
        · exact .inr (hdirs _ (.inl rfl))
        · exact .inl ⟨k, hk, rfl⟩
      · exact .inr (hdirs _ (.inr h))
    | some node =>
      obtain ⟨rfl, -⟩ := hv _ node hnode
      have hdir := FileTree.isDir_iff.2 hnode
      obtain ⟨v', hrest, hfits', hdirs'⟩ := ih hv
      rw [FileTree.createDir, FileTree.create_known (FileTree.node?_of_isDir hdir)]
      simp only [hdir, if_true]
      refine ⟨v', hrest, hfits', fun path h => hdirs' path ?_⟩
      rcases h with ⟨k, hk, rfl⟩ | h
      · rcases List.mem_cons.1 hk with rfl | hk
        · exact .inr hdir
        · exact .inl ⟨k, hk, rfl⟩
      · exact .inr h

theorem ObjectKind.mem_all (kind : ObjectKind) : kind ∈ ObjectKind.all := by
  cases kind <;> decide

/-- Opening a volume that PUTs left makes it a laid one. -/
theorem laid_of_ensureKinds (hv : ∀ path node, v.node? path = some node → Fits path node)
    (h : ensureKinds ObjectKind.all v = .ok v') : Laid v' := by
  obtain ⟨v₁, hok, hfits, hdirs⟩ := ensureKinds_ok hv
  obtain rfl := Except.ok.inj (hok.symm.trans h)
  exact ⟨fun kind => hdirs _ (.inl ⟨kind, kind.mem_all, rfl⟩), hfits⟩

/-- A laid volume is opened as it is. -/
theorem ensureKinds_laid (hv : Laid v) : ensureKinds kinds v = .ok v := by
  induction kinds with
  | nil => rfl
  | cons kind kinds ih =>
    unfold ensureKinds
    rw [FileTree.createDir, FileTree.create_known (FileTree.node?_of_isDir (hv.kinds kind))]
    simp only [hv.kinds kind, if_true, ih]

theorem fits_fresh : ∀ path node, freshVolume.node? path = some node → Fits path node := by
  intro path node h
  cases path with
  | nil => trivial
  | cons name parent =>
    have hmem : name :: parent ∈ freshVolume.nodes :=
      FileTree.node?_ne_none.1 (by rw [h]; exact Option.some_ne_none _)
    simp [freshVolume, AList.mem_keys] at hmem

/-! ## The count -/

theorem foldl_addPage {pages : List InventoryPage} {used : ℕ}
    (h : used + ((pages.flatMap InventoryPage.objects).map InventoryObject.size).sum < 2 ^ 64) :
    pages.foldl addPage used =
      used + ((pages.flatMap InventoryPage.objects).map InventoryObject.size).sum := by
  induction pages generalizing used with
  | nil => rfl
  | cons page pages ih =>
    rw [List.flatMap_cons, List.map_append, List.sum_append] at h ⊢
    have hpage : addPage used page = used + (page.objects.map InventoryObject.size).sum := by
      unfold addPage
      rw [Nat.mod_eq_of_lt (by omega)]
      omega
    rw [List.foldl_cons, hpage, ih (by omega), Nat.add_assoc]

theorem countKinds_eq (hv : Laid v) {fuel used : ℕ}
    (hfuel : ∀ kind, (plainWalk v kind).length < fuel)
    (h : used + ((kinds.flatMap (plainWalk v)).map InventoryObject.size).sum < 2 ^ 64) :
    countKinds v fuel kinds used =
      some (.ok (used + ((kinds.flatMap (plainWalk v)).map InventoryObject.size).sum)) := by
  induction kinds generalizing used with
  | nil => rfl
  | cons kind kinds ih =>
    rw [List.flatMap_cons, List.map_append, List.sum_append] at h ⊢
    have hall : (plainWalk v kind).filter (later none) = plainWalk v kind :=
      List.filter_eq_self.2 fun _ _ => rfl
    obtain ⟨pages, hpages, hflat, -⟩ :=
      pagesOf_eq hv (show maxInventoryPage ≠ 0 by decide) fuel none (by rw [hall]; exact hfuel kind)
    rw [hall] at hflat
    unfold countKinds
    rw [hpages]
    dsimp only
    rw [foldl_addPage (by rw [hflat]; omega), hflat, ih (by omega), Nat.add_assoc]

theorem countKinds_mono {fuel fuel' used : ℕ} {result : Except StoreError ℕ}
    (h : countKinds v fuel kinds used = some result) (hle : fuel ≤ fuel') :
    countKinds v fuel' kinds used = some result := by
  induction kinds generalizing used with
  | nil => exact h
  | cons kind kinds ih =>
    unfold countKinds at h ⊢
    cases hpages : pagesOf v kind maxInventoryPage fuel none with
    | none => simp [hpages] at h
    | some found =>
      rw [pagesOf_mono hpages hle]
      rw [hpages] at h
      cases found with
      | error e => exact h
      | ok pages => exact ih h

/-- With enough fuel, opening a laid volume counts the stored bytes, if they are fewer than `2^64`. -/
theorem openStore_laid (hv : Laid v) (hsize : storedBytes v < 2 ^ 64) :
    ∃ enough, ∀ fuel, enough ≤ fuel → openStore fuel v = some (.ok ⟨v, storedBytes v⟩) := by
  refine ⟨(ObjectKind.all.map fun kind => (plainWalk v kind).length).sum + 1, fun fuel hfuel => ?_⟩
  have hlength (kind : ObjectKind) : (plainWalk v kind).length < fuel := by
    simp only [ObjectKind.all, List.map_cons, List.map_nil, List.sum_cons, List.sum_nil] at hfuel
    cases kind <;> omega
  have hcount : countKinds v fuel ObjectKind.all 0 = some (.ok (0 + storedBytes v)) :=
    countKinds_eq hv hlength (by rw [Nat.zero_add]; exact hsize)
  unfold openStore
  rw [ensureKinds_laid hv]
  simp only [hcount, Option.map_some, Nat.zero_add]
  rfl

/-- An opened volume that PUTs left is laid, and its bytes are counted. -/
theorem openStore_counts (hv : ∀ path node, v.node? path = some node → Fits path node) {fuel : ℕ}
    {s : State} (h : openStore fuel v = some (.ok s)) : Laid s.volume ∧
      (storedBytes s.volume < 2 ^ 64 → s.usedBytes = storedBytes s.volume) := by
  obtain ⟨v', hkinds, -⟩ := @ensureKinds_ok v ObjectKind.all hv
  have hlaid := laid_of_ensureKinds hv hkinds
  unfold openStore at h
  simp only [hkinds] at h
  obtain ⟨result, hcount, hresult⟩ := Option.map_eq_some_iff.1 h
  cases result with
  | error e => cases hresult
  | ok used =>
    obtain rfl := Except.ok.inj hresult
    refine ⟨hlaid, fun hsize => ?_⟩
    obtain ⟨enough, hopen⟩ := openStore_laid hlaid hsize
    have hmore := hopen (max fuel enough) (le_max_right _ _)
    unfold openStore at hmore
    rw [ensureKinds_laid hlaid] at hmore
    simp only [countKinds_mono hcount (le_max_left fuel enough), Option.map_some,
      Option.some.injEq] at hmore
    exact congrArg State.usedBytes (Except.ok.inj hmore)

end DistrHnsw.Agent
