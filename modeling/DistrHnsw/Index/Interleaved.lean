import DistrHnsw.Index.Builder
import DistrHnsw.Index.Graph
import DistrHnsw.Lib.Lasting
import DistrHnsw.Lib.Matched

/-!
# Insertions side by side

Whatever the interleaving of the insertions, every list keeps its capacity and names slots of its level
only, and no thread fails or runs on.  Lists without repeats are kept as long as no insertion meets its
own slot: it neither selects it nor finds it in a list that it links back from.
-/

namespace DistrHnsw

namespace Index

/-! ## One list of many -/

namespace LockedLinks

variable {links : LockedLinks} {slot : Slot} {level : ℕ} {old : List Slot}

theorem list_zero_eq_ok : links.list slot 0 = .ok old ↔ links.level0[slot.toNat]? = some old := by
  simp [list]

theorem list_succ_eq_ok : links.list slot (level + 1) = .ok old ↔
    ∃ lists, links.upper[slot.toNat]? = some lists ∧ lists[level]? = some old := by
  simp [list, bind_eq_ok]

/-- Setting one list leaves the others. -/
structure Replaced (links : LockedLinks) (slot : Slot) (level : ℕ) (new : List Slot)
    (links' : LockedLinks) : Prop where
  same : links'.list slot level = .ok new
  other {slot' : Slot} {level' : ℕ} : (slot', level') ≠ (slot, level) →
    links'.list slot' level' = links.list slot' level'
  level0 : links'.level0.length = links.level0.length
  upper : links'.upper.map List.length = links.upper.map List.length

theorem exists_replaced (h : links.list slot level = .ok old) (new : List Slot) :
    ∃ links', links.setList slot level new = .ok links' ∧ links.Replaced slot level new links' := by
  cases level with
  | zero =>
    obtain ⟨hlt, -⟩ := List.getElem?_eq_some_iff.1 (list_zero_eq_ok.1 h)
    refine ⟨{ links with level0 := links.level0.set slot.toNat new }, ?_, ?_, ?_, ?_, rfl⟩
    · simp only [setList, if_pos, setAt_of_lt hlt, ok_bind]
      rfl
    · exact list_zero_eq_ok.2 (by simp [hlt])
    · intro slot' level' hne
      cases level' with
      | zero =>
        have hslot : slot.toNat ≠ slot'.toNat := fun heq => hne (by rw [UInt32.toNat_inj.1 heq])
        simp [list, index, List.getElem?_set_ne hslot]
      | succ level' => simp [list]
    · simp
  | succ level =>
    obtain ⟨lists, hlists, hold⟩ := list_succ_eq_ok.1 h
    obtain ⟨hlt, rfl⟩ := List.getElem?_eq_some_iff.1 hlists
    obtain ⟨hlevel, -⟩ := List.getElem?_eq_some_iff.1 hold
    refine ⟨{ links with
      upper := links.upper.set slot.toNat (links.upper[slot.toNat].set level new) }, ?_, ?_, ?_, rfl, ?_⟩
    · simp only [setList, if_neg (Nat.succ_ne_zero level), Nat.add_sub_cancel, index_of_lt hlt, ok_bind,
        setAt_of_lt hlevel, setAt_of_lt hlt]
      rfl
    · exact list_succ_eq_ok.2 ⟨links.upper[slot.toNat].set level new, by simp [hlt], by simp [hlevel]⟩
    · intro slot' level' hne
      cases level' with
      | zero => simp [list]
      | succ level' =>
        by_cases hslot : slot' = slot
        · subst hslot
          have hne' : level ≠ level' := fun heq => hne (by rw [heq])
          simp [list, index, hlt, List.getElem?_set_ne hne']
        · have hslot' : slot.toNat ≠ slot'.toNat := fun heq => hslot (UInt32.toNat_inj.1 heq).symm
          simp [list, index, List.getElem?_set_ne hslot']
    · apply List.ext_getElem (by simp)
      intro i hi _
      simp only [List.getElem_map, List.getElem_set]
      split
      · rename_i heq
        subst heq
        simp
      · rfl

end LockedLinks

namespace BuildCore

open Hnsw (distanceAt returns_rowOf returns_distanceTo returns_selectSorted)

/-- The slots that a list of `level` may name. -/
def On (levels : List UInt8) (level : ℕ) (slot : Slot) : Prop :=
  slot.toNat < levels.length ∧ level ≤ levelAt levels slot

variable {core : BuildCore} {levels : List UInt8} {slot neighbour entry : Slot} {level : ℕ}
  {query : List F32}

theorem On.mono {level' : ℕ} (h : On levels level slot) (hle : level' ≤ level) :
    On levels level' slot := ⟨h.1, hle.trans h.2⟩

/-- Every list is within its capacity and names slots of its level. -/
structure Linked (core : BuildCore) (levels : List UInt8) (links : LockedLinks) : Prop where
  level0 : links.level0.length = levels.length
  upper : links.upper.map List.length = levels.map UInt8.toNat
  lists (level : ℕ) (slot : Slot) : On levels level slot →
    Returns (links.list slot level) fun list =>
      list.length ≤ core.capacity level ∧ ∀ n ∈ list, On levels level n

/-- Replacing one list by one of its kind. -/
theorem Linked.replaced {links links' : LockedLinks} {new : List Slot} (h : core.Linked levels links)
    (hr : links.Replaced slot level new links') (hcap : new.length ≤ core.capacity level)
    (hnew : ∀ n ∈ new, On levels level n) : core.Linked levels links' where
  level0 := hr.level0.trans h.level0
  upper := hr.upper.trans h.upper
  lists level' slot' hon := by
    by_cases heq : (slot', level') = (slot, level)
    · cases heq
      exact returns_iff.2 ⟨new, hr.same, hcap, hnew⟩
    · rw [hr.other heq]
      exact h.lists level' slot' hon

/-- The updates that an insertion makes. -/
def Allowed (core : BuildCore) (levels : List UInt8) : LinkWrite → Prop
  | .own slot level selected => On levels level slot ∧ selected.Nodup ∧
      selected.length ≤ core.capacity level ∧ ∀ n ∈ selected, On levels level n
  | .back slot level neighbour => On levels level slot ∧ On levels level neighbour

theorem returns_far {slots : List Slot} (h : ∀ s ∈ slots, s.toNat < core.vectors.len) :
    Returns (core.far query slots) fun found => found.map Far.slot = slots := by
  refine (returns_mapM (R := fun s c => s = c.slot) fun s hs => ?_).mono fun found hfound => ?_
  · exact (returns_distanceTo (h s hs)).bind fun d _ => returns_ok rfl
  · exact ((Matched.map_eq hfound fun _ _ h => h).symm.trans (List.map_id _))

theorem returns_select {candidates : List Far} (h : ∀ c ∈ candidates, c.slot.toNat < core.vectors.len) :
    Returns (core.select candidates level) fun selected =>
      selected.length ≤ core.capacity level ∧ selected.Subperm (candidates.map Far.slot) :=
  returns_selectSorted (perm_sortFar candidates) h

/-- A selection among some slots. -/
theorem returns_select_far {row : List F32} {slots : List Slot}
    (h : ∀ s ∈ slots, s.toNat < core.vectors.len) :
    Returns (core.far row slots >>= fun found => core.select found level) fun list =>
      list.length ≤ core.capacity level ∧ list.Subperm slots := by
  refine (returns_far h).bind fun found hfound => ?_
  have hin : ∀ c ∈ found, c.slot.toNat < core.vectors.len := fun c hc =>
    h c.slot (hfound ▸ List.mem_map_of_mem hc)
  exact (returns_select hin).mono fun list hlist => ⟨hlist.1, hfound ▸ hlist.2⟩

section Rows

variable (hrows : core.vectors.len = levels.length)

include hrows

theorem returns_merge {selected own : List Slot} (hslot : On levels level slot)
    (hcap : selected.length ≤ core.capacity level) (hselected : ∀ n ∈ selected, On levels level n)
    (hown : ∀ n ∈ own, On levels level n) :
    Returns (core.merge slot level selected own) fun list => list.length ≤ core.capacity level ∧
      list.Subperm (selected ++ own.filter fun s => !selected.contains s) := by
  unfold merge
  split
  · exact returns_ok ⟨hcap, (List.sublist_append_left _ _).subperm⟩
  · refine (returns_rowOf (by rw [hrows]; exact hslot.1)).bind fun row _ => ?_
    refine returns_select_far fun s hs => ?_
    rw [hrows]
    rcases List.mem_append.1 hs with hs | hs
    · exact (hselected s hs).1
    · exact (hown s (List.mem_of_mem_filter hs)).1

theorem returns_linkBack {list : List Slot} (hslot : On levels level slot)
    (hneighbour : On levels level neighbour) (hlist : ∀ n ∈ list, On levels level n) :
    Returns (core.linkBack slot level neighbour list) fun new => new.length ≤ core.capacity level ∧
      new.Subperm (list ++ [slot]) := by
  unfold linkBack
  split
  · rename_i hroom
    refine returns_ok ⟨?_, List.Subperm.refl _⟩
    rwa [List.length_append]
  · refine (returns_rowOf (by rw [hrows]; exact hneighbour.1)).bind fun row _ => ?_
    refine returns_select_far fun s hs => ?_
    rw [hrows]
    rcases List.mem_append.1 hs with hs | hs
    · exact (hlist s hs).1
    · rw [List.mem_singleton.1 hs]
      exact hslot.1

/-- What an allowed update leaves: one list, chosen among the slots it had and those that came. -/
theorem exists_perform {links : LockedLinks} {w : LinkWrite} (h : core.Linked levels links)
    (hw : core.Allowed levels w) : ∃ slot level old new links', On levels level slot ∧
      links.list slot level = .ok old ∧ core.perform w links = .ok links' ∧
      links.Replaced slot level new links' ∧ new.length ≤ core.capacity level ∧
      match w with
      | .own s l selected => slot = s ∧ level = l ∧
          new.Subperm (selected ++ old.filter fun s => !selected.contains s)
      | .back s l neighbour => slot = neighbour ∧ level = l ∧ new.Subperm (old ++ [s]) := by
  cases w with
  | own slot level selected =>
    obtain ⟨hslot, -, hcap, hselected⟩ := hw
    obtain ⟨old, hold, -, hmem⟩ := h.lists level slot hslot
    obtain ⟨new, hnew, hnewcap, hsub⟩ := returns_merge hrows hslot hcap hselected hmem
    obtain ⟨links', hset, hr⟩ := LockedLinks.exists_replaced hold new
    refine ⟨slot, level, old, new, links', hslot, hold, ?_, hr, hnewcap, rfl, rfl, hsub⟩
    simp only [perform, hold, hnew, ok_bind, hset]
  | back slot level neighbour =>
    obtain ⟨hslot, hneighbour⟩ := hw
    obtain ⟨old, hold, -, hmem⟩ := h.lists level neighbour hneighbour
    obtain ⟨new, hnew, hnewcap, hsub⟩ := returns_linkBack hrows hslot hneighbour hmem
    obtain ⟨links', hset, hr⟩ := LockedLinks.exists_replaced hold new
    refine ⟨neighbour, level, old, new, links', hneighbour, hold, ?_, hr, hnewcap, rfl, rfl, hsub⟩
    simp only [perform, hold, hnew, ok_bind, hset]

theorem perform_linked {links : LockedLinks} {w : LinkWrite} (h : core.Linked levels links)
    (hw : core.Allowed levels w) :
    ∃ links', core.perform w links = .ok links' ∧ core.Linked levels links' := by
  obtain ⟨slot, level, old, new, links', hslot, hold, hok, hr, hcap, hsub⟩ := exists_perform hrows h hw
  have hmem := ((h.lists level slot hslot).of_ok hold).2
  refine ⟨links', hok, h.replaced hr hcap fun n hn => ?_⟩
  cases w with
  | own s l selected =>
    obtain ⟨rfl, rfl, hsub⟩ := hsub
    rcases List.mem_append.1 (hsub.subset hn) with hn | hn
    · exact hw.2.2.2 n hn
    · exact hmem n (List.mem_of_mem_filter hn)
  | back s l neighbour =>
    obtain ⟨rfl, rfl, hsub⟩ := hsub
    rcases List.mem_append.1 (hsub.subset hn) with hn | hn
    · exact hmem n hn
    · rw [List.mem_singleton.1 hn]
      exact hw.1

end Rows

/-- What the insertions rely on and keep. -/
def custom (core : BuildCore) (levels : List UInt8) (hrows : core.vectors.len = levels.length) :
    Program.Custom core.world where
  Inv := core.Linked levels
  Allowed := core.Allowed levels
  keeps := perform_linked hrows

/-! ## One insertion among others -/

section Threads

variable (hrows : core.vectors.len = levels.length)

/-- A thread ends well among others. -/
abbrev Ends {α : Type} (thread : Program core.world α) (Q : α → Prop) : Prop :=
  thread.Lasting (core.custom levels hrows) Q

variable {hrows}

theorem ends_snapshot (hon : On levels level slot) :
    Ends hrows (core.snapshot slot level) fun list => ∀ n ∈ list, On levels level n := by
  refine Program.Lasting.bind fun links hlinks => ?_
  obtain ⟨list, hlist, -, hmem⟩ := hlinks.lists level slot hon
  show Program.Lasting _ (check (LockedLinks.list links slot level)) _
  rw [hlist]
  exact hmem

theorem ends_insertLevel (hslot : On levels level slot) {entries : List Slot}
    (hentries : ∀ e ∈ entries, On levels level e) :
    Ends hrows (core.insertLevel slot query entries level) fun found =>
      ∀ e ∈ found, On levels level e := by
  let _ := (core.custom levels hrows).returns
  have hin (s : Slot) (hs : On levels level s) : s.toNat < core.vectors.len := by
    rw [hrows]
    exact hs.1
  have hsearch : Returns (searchLayer (core.snapshot · level) (core.dist query) core.vectors.len entries
      core.params.efConstruction fun _ => true)
      (Found (On levels level) (distanceAt core.metric core.vectors query) fun _ => true) := by
    refine returns_searchLayer hin (fun s hs => ?_) (fun s hs => ?_) hentries
    · exact ends_snapshot hs
    · exact returns_check (returns_distanceTo (hin s hs))
  unfold insertLevel
  refine hsearch.bind fun found hfound => ?_
  have hon : ∀ c ∈ found, On levels level c.slot := fun c hc => (hfound.2 c hc).1
  have hselect : Returns (core.select found level) fun selected =>
      selected.length ≤ core.capacity level ∧ selected.Subperm (found.map Far.slot) :=
    returns_select fun c hc => hin c.slot (hon c hc)
  refine (returns_check hselect).bind fun selected hsel => ?_
  have hselected : ∀ n ∈ selected, On levels level n := by
    intro n hn
    obtain ⟨c, hc, rfl⟩ := List.mem_map.1 (hsel.2.subset hn)
    exact hon c hc
  have hnodup : selected.Nodup := by
    obtain ⟨list, hperm, hsub⟩ := hsel.2
    exact hperm.nodup_iff.1 (hsub.nodup hfound.1)
  have hown : Returns (Program.perform (W := core.world) (.own slot level selected)) fun _ => True :=
    Program.lasting_perform ⟨hslot, hnodup, hsel.1, hselected⟩ trivial
  refine hown.bind fun _ _ => ?_
  have hback : Returns (forM (m := Program core.world) selected fun neighbour =>
      Program.perform (.back slot level neighbour)) fun _ => True :=
    returns_forM fun n hn => Program.lasting_perform ⟨hslot, hselected n hn⟩ trivial
  refine hback.bind fun _ _ => returns_pure fun e he => ?_
  obtain ⟨c, hc, rfl⟩ := List.mem_map.1 he
  exact hon c hc

/-- Linking on the levels up to `top`, from entry points on the highest of them. -/
theorem ends_insertLevels {top : ℕ} (hslot : On levels top slot) {entries : List Slot}
    (hentries : ∀ e ∈ entries, On levels top e) :
    Ends hrows ((List.range (top + 1)).reverse.foldlM (core.insertLevel slot query) entries)
      fun _ => True := by
  let _ := (core.custom levels hrows).returns
  induction top generalizing entries with
  | zero =>
    rw [List.range_one, List.reverse_singleton, List.foldlM_cons]
    have hlevel : Returns (core.insertLevel slot query entries 0) _ := ends_insertLevel hslot hentries
    exact hlevel.bind fun _ _ => returns_pure trivial
  | succ top ih =>
    rw [List.range_succ, List.reverse_concat, List.foldlM_cons]
    have hlevel : Returns (core.insertLevel slot query entries (top + 1)) _ :=
      ends_insertLevel hslot hentries
    refine hlevel.bind fun found hfound => ?_
    exact ih (hslot.mono (Nat.le_succ top)) fun e he => (hfound e he).mono (Nat.le_succ top)

/-- The descent through the `count` levels above `level`. -/
theorem ends_descend {count : ℕ} (hentry : On levels (level + count) entry) :
    Ends hrows ((List.range' (level + 1) count).reverse.foldlM (fun current level =>
      greedyClosest (core.snapshot · level) (core.dist query) core.vectors.len current) entry)
      (On levels level) := by
  let _ := (core.custom levels hrows).returns
  have hin {l : ℕ} (s : Slot) (hs : On levels l s) : s.toNat < core.vectors.len := by
    rw [hrows]
    exact hs.1
  induction count generalizing entry with
  | zero => exact hentry
  | succ count ih =>
    rw [List.range'_1_concat, List.reverse_concat, List.foldlM_cons]
    have hgreedy : Returns (greedyClosest (core.snapshot · (level + 1 + count)) (core.dist query)
        core.vectors.len entry) (On levels (level + 1 + count)) := by
      refine returns_greedyClosest (f := distanceAt core.metric core.vectors query) hin
        (fun s hs => ?_) (fun s hs => ?_) (hentry.mono (by omega))
      · exact ends_snapshot hs
      · exact returns_check (returns_distanceTo (hin s hs))
    exact hgreedy.bind fun next hnext => ih (hnext.mono (by omega))

/-- An insertion from an entry point of the highest level ends well among others. -/
theorem ends_insert {maxLevel : ℕ} (hslot : On levels level slot) (hentry : On levels maxLevel entry) :
    Ends hrows (core.insert slot level entry maxLevel) fun _ => True := by
  let _ := (core.custom levels hrows).returns
  have hrow : Returns (check (rowOf core.vectors "slot" slot) : Program core.world (List F32)) _ :=
    returns_check (returns_rowOf (by rw [hrows]; exact hslot.1))
  unfold insert
  refine hrow.bind fun row _ => ?_
  have hdescend : Returns ((List.range' (level + 1) (maxLevel - level)).reverse.foldlM
      (fun current level =>
        greedyClosest (core.snapshot · level) (core.dist row) core.vectors.len current) entry)
      (On levels (min level maxLevel)) := by
    by_cases hle : maxLevel ≤ level
    · rw [Nat.sub_eq_zero_of_le hle, Nat.min_eq_right hle]
      exact returns_pure hentry
    · rw [Nat.min_eq_left (by omega)]
      refine ends_descend (hentry.mono ?_)
      omega
  refine hdescend.bind fun start hstart => ?_
  have hlevels : Returns ((List.range (min level maxLevel + 1)).reverse.foldlM
      (core.insertLevel slot row) [start]) _ :=
    ends_insertLevels (hslot.mono (Nat.min_le_left _ _)) (by simpa using hstart)
  exact hlevels.bind fun _ _ => returns_pure trivial

theorem ends_threads {maxLevel : ℕ} {chunk : List Slot} (hchunk : ∀ s ∈ chunk, s.toNat < levels.length)
    (hentry : On levels maxLevel entry) (slot : Slot) :
    Ends hrows (core.threads levels entry maxLevel chunk slot) fun _ => True := by
  unfold threads
  split
  · rename_i hmem
    exact ends_insert ⟨hchunk slot hmem, le_rfl⟩ hentry
  · trivial

end Threads

/-! ## Lists in every interleaving -/

theorem linked_new (core : BuildCore) (levels : List UInt8) : core.Linked levels (.new levels) where
  level0 := by simp [LockedLinks.new]
  upper := by simp [LockedLinks.new, Function.comp_def]
  lists level slot hon := by
    have hempty : LockedLinks.list (.new levels) slot level = .ok [] := by
      cases level with
      | zero => exact LockedLinks.list_zero_eq_ok.2 (by simp [LockedLinks.new, hon.1])
      | succ level =>
        have hlt := hon.1
        have htop : level < levels[slot.toNat].toNat := by
          have hle := hon.2
          simp only [levelAt, List.getD_eq_getElem?_getD, List.getElem?_eq_getElem hlt,
            Option.getD_some] at hle
          omega
        exact LockedLinks.list_succ_eq_ok.2
          ⟨List.replicate levels[slot.toNat].toNat [], by simp [LockedLinks.new, hlt], by simp [htop]⟩
    exact returns_iff.2 ⟨[], hempty, Nat.zero_le _, by simp⟩

/-- No list names a slot twice, or its own slot. -/
def Simple (levels : List UInt8) (links : LockedLinks) : Prop :=
  ∀ level slot, On levels level slot →
    Returns (links.list slot level) fun list => list.Nodup ∧ slot ∉ list

/-- An update does not meet the slot that is inserted: the slot did not select itself, and a list it
links back from does not name it yet. -/
def Unmet (links : LockedLinks) : LinkWrite → Prop
  | .own slot _ selected => slot ∉ selected
  | .back slot level neighbour =>
    neighbour ≠ slot ∧ ∀ list, links.list neighbour level = .ok list → slot ∉ list

instance (links : LockedLinks) (w : LinkWrite) : Decidable (Unmet links w) :=
  match w with
  | .own slot _ selected => inferInstanceAs (Decidable (slot ∉ selected))
  | .back slot level neighbour =>
    match h : links.list neighbour level with
    | .ok list => decidable_of_iff (neighbour ≠ slot ∧ slot ∉ list) (by simp [Unmet, h])
    | .error _ => decidable_of_iff (neighbour ≠ slot) (by simp [Unmet, h])

theorem perform_simple (hrows : core.vectors.len = levels.length) {links links' : LockedLinks}
    {w : LinkWrite} (h : core.Linked levels links) (hw : core.Allowed levels w) (hunmet : Unmet links w)
    (hok : core.perform w links = .ok links') (hs : Simple levels links) : Simple levels links' := by
  obtain ⟨slot, level, old, new, links₁, hslot, hold, hok', hr, -, hsub⟩ := exists_perform hrows h hw
  obtain rfl : links' = links₁ := Except.ok.inj (hok.symm.trans hok')
  obtain ⟨hnodup, hnot⟩ := (hs level slot hslot).of_ok hold
  have hnew : new.Nodup ∧ slot ∉ new := by
    cases w with
    | own s l selected =>
      obtain ⟨rfl, rfl, perm, hperm, hsub⟩ := hsub
      have hall : (selected ++ old.filter fun s => !selected.contains s).Nodup := by
        refine List.nodup_append.2 ⟨hw.2.1, hnodup.filter _, fun a ha b hb heq => ?_⟩
        subst heq
        simp [ha] at hb
      refine ⟨hperm.nodup_iff.1 (hsub.nodup hall), fun hmem => ?_⟩
      rcases List.mem_append.1 (hsub.subset (hperm.mem_iff.2 hmem)) with hmem | hmem
      · exact hunmet hmem
      · exact hnot (List.mem_of_mem_filter hmem)
    | back s l neighbour =>
      obtain ⟨rfl, rfl, perm, hperm, hsub⟩ := hsub
      have hall : (old ++ [s]).Nodup := by
        refine List.nodup_append.2 ⟨hnodup, List.nodup_singleton s, fun a ha b hb heq => ?_⟩
        rw [List.mem_singleton.1 hb] at heq
        exact hunmet.2 old hold (heq ▸ ha)
      refine ⟨hperm.nodup_iff.1 (hsub.nodup hall), fun hmem => ?_⟩
      rcases List.mem_append.1 (hsub.subset (hperm.mem_iff.2 hmem)) with hmem | hmem
      · exact hnot hmem
      · exact hunmet.1 (List.mem_singleton.1 hmem)
  intro level' slot' hon
  by_cases heq : (slot', level') = (slot, level)
  · cases heq
    exact returns_iff.2 ⟨new, hr.same, hnew⟩
  · rw [hr.other heq]
    exact hs level' slot' hon

theorem simple_new : Simple levels (.new levels) := by
  intro level slot hon
  obtain ⟨list, hlist, hlen, -⟩ :=
    (linked_new ⟨.l2, .new 0, ⟨0, 0, 0, 0⟩⟩ levels).lists level slot hon
  have hempty : list = [] := by
    refine List.length_eq_zero_iff.1 (Nat.le_zero.1 ?_)
    simpa [capacity] using hlen
  exact returns_iff.2 ⟨list, hlist, by simp [hempty]⟩

/-- The points 0, 100, 2 and 1 on a line. -/
def line : FlatVectors where
  dims := 1
  base := []
  tail := [[⟨0⟩], [⟨0x42C80000⟩], [⟨0x40000000⟩], [⟨0x3F800000⟩]]
  width := by decide

def lineCore : BuildCore := ⟨.l2, line, ⟨2, 2, 10, 20⟩⟩

/-- The levels of the four slots: all but slot 1 are on level 1. -/
def lineLevels : List UInt8 := [1, 0, 1, 1]

def alone : Program.Responder (.any lineCore.world) := Program.saying nofun

/-- The first chunk, slot 1. -/
def firstChunk : (Slot → Program lineCore.world Unit) × Scene (.any lineCore.world) :=
  Program.advanceAll [(1, 30, alone)]
    (lineCore.threads lineLevels 0 1 [1], ⟨.new lineLevels, (), []⟩)

/-- The second chunk: slot 2 links on level 1, slot 3 is inserted, slot 2 goes on. -/
def secondChunk : (Slot → Program lineCore.world Unit) × Scene (.any lineCore.world) :=
  Program.advanceAll [(2, 3, alone), (3, 60, alone), (2, 60, alone)]
    (lineCore.threads lineLevels 0 1 [2, 3], ⟨firstChunk.2.store, (), []⟩)

theorem faithful_alone (slots : List (Slot × ℕ)) :
    ∀ entry ∈ slots.map fun slot => (slot.1, slot.2, alone), entry.2.2.Faithful := by
  intro entry hentry
  obtain ⟨slot, -, rfl⟩ := List.mem_map.1 hentry
  exact Program.faithful_saying _

theorem firstChunk_run : Program.Together (lineCore.threads lineLevels 0 1 [1])
    (⟨.new lineLevels, (), []⟩ : Scene (.any lineCore.world)) firstChunk.1 firstChunk.2 :=
  Program.together_advanceAll (faithful_alone [(1, 30)]) (.stop _ _)

theorem secondChunk_run : Program.Together (lineCore.threads lineLevels 0 1 [2, 3])
    (⟨firstChunk.2.store, (), []⟩ : Scene (.any lineCore.world)) secondChunk.1 secondChunk.2 :=
  Program.together_advanceAll (faithful_alone [(2, 3), (3, 60), (2, 60)]) (.stop _ _)

theorem firstChunk_store : firstChunk.2.store = ⟨[[1], [0], [], []], [[[]], [], [[]], [[]]]⟩ := by
  decide +kernel

theorem secondChunk_store : secondChunk.2.store =
    ⟨[[1, 3], [0], [2, 2], [0, 2]], [[[2, 3]], [], [[0, 3]], [[0, 2]]]⟩ := by
  decide +kernel

/-- A schedule and the threads it leaves, when it names the slots of the chunk only. -/
theorem threads_done {chunk : List Slot}
    {schedule : List (Slot × ℕ × Program.Responder (.any lineCore.world))} {store : LockedLinks}
    {all : (Slot → Program lineCore.world Unit) × Scene (.any lineCore.world)}
    (hall : all = Program.advanceAll schedule (lineCore.threads lineLevels 0 1 chunk, ⟨store, (), []⟩))
    (hchunk : (chunk.all fun s => (all.1 s).result == some ()) = true)
    (hnames : (schedule.all fun entry => chunk.contains entry.1) = true) :
    all.1 = fun _ => .done () := by
  funext s
  by_cases hs : s ∈ chunk
  · exact Program.eq_done (eq_of_beq (List.all_eq_true.1 hchunk s hs))
  · have hnot : ∀ entry ∈ schedule, entry.1 ≠ s := by
      intro entry hentry heq
      have hmem := List.all_eq_true.1 hnames entry hentry
      rw [heq, List.contains_iff_mem] at hmem
      exact hs hmem
    rw [hall, Program.advanceAll_other hnot]
    exact if_neg hs

theorem firstChunk_done : firstChunk.1 = fun _ => .done () :=
  threads_done rfl (by decide +kernel) (by decide)

theorem secondChunk_done : secondChunk.1 = fun _ => .done () :=
  threads_done rfl (by decide +kernel) (by decide)

theorem line_inserted : lineCore.Inserted lineLevels 0 1 (chunksOf 3 1 [1, 2, 3]) (.new lineLevels)
    secondChunk.2.store := by
  have hfirst := firstChunk_run
  have hsecond := secondChunk_run
  rw [firstChunk_done] at hfirst
  rw [secondChunk_done] at hsecond
  generalize secondChunk.2 = y at hsecond ⊢
  generalize firstChunk.2 = x at hfirst hsecond
  exact .chunk hfirst (.chunk hsecond (.done _))

/-- The graph of the lists, when it names slot 2 twice in its own list. -/
def lineBuilds : Bool :=
  match compact lineCore lineLevels 0 1 secondChunk.2.store >>= linkLevel0Orphans with
  | .ok g => decide (g.neighbours 2 0 = .ok [2, 2])
  | .error _ => false

theorem line_builds : lineBuilds = true := by decide +kernel

end BuildCore

end Index

end DistrHnsw
