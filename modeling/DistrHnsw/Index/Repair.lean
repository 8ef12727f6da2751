import DistrHnsw.Index.Built
import DistrHnsw.Index.Exhaustive

/-!
# The repair

The repair counts the in-links of every slot on level 0 and gives the orphans one each: a host of the
orphan's own list takes it in when there is room, or gives up a link to a slot that keeps another
in-link.  The counts stay exact, no slot loses its last in-link and no list outgrows its capacity.
-/

namespace DistrHnsw

namespace Index

/-! ## Counting in-links -/

namespace Hnsw

/-- How often a slot is named on level 0. -/
def degreeIn (g : Hnsw) (slot : Slot) : ℕ :=
  ((slotRange g.len).map fun s => (g.linksOf s).count slot).sum

theorem linksOf_of_eq {g : Hnsw} {slot : Slot} {list : List Slot} (h : g.neighbours slot 0 = .ok list) :
    g.linksOf slot = list := by
  rw [linksOf, h]

end Hnsw

theorem mem_slotRange_iff {slots : ℕ} (h : slots < 2 ^ 32) {slot : Slot} :
    slot ∈ slotRange slots ↔ slot.toNat < slots := by
  refine ⟨mem_slotRange, fun hlt => List.mem_map.2 ⟨slot.toNat, ?_, UInt32.ofNat_toNat⟩⟩
  rwa [Nat.mod_eq_of_lt h, List.mem_range]

theorem nodup_slotRange (slots : ℕ) : (slotRange slots).Nodup := by
  refine List.Nodup.map_on (fun i hi j hj heq => ?_) List.nodup_range
  have hpow := Nat.mod_lt slots (show 0 < 2 ^ 32 by decide)
  have hi := (List.mem_range.1 hi).trans hpow
  have hj := (List.mem_range.1 hj).trans hpow
  have := congrArg UInt32.toNat heq
  rwa [UInt32.toNat_ofNat_of_lt' hi, UInt32.toNat_ofNat_of_lt' hj] at this

/-- A sum in which one term differs. -/
theorem sum_map_changed {α : Type} [DecidableEq α] {l : List α} (hl : l.Nodup) {a : α} (ha : a ∈ l)
    {f f' : α → ℕ} (h : ∀ b ∈ l, b ≠ a → f' b = f b) :
    (l.map f').sum + f a = (l.map f).sum + f' a := by
  have hrest : (l.erase a).map f' = (l.erase a).map f := by
    refine List.map_congr_left fun b hb => ?_
    obtain ⟨hne, hb⟩ := (hl.mem_erase_iff).1 hb
    exact h b hb hne
  rw [← List.sum_map_erase f ha, ← List.sum_map_erase f' ha, hrest]
  omega

/-- Counters for the slots below `len`. -/
structure Counted (degrees : List ℕ) (f : Slot → ℕ) (len : ℕ) : Prop where
  length : degrees.length = len
  at_ (slot : Slot) : slot.toNat < len → degrees[slot.toNat]? = some (f slot)

namespace Counted

variable {degrees : List ℕ} {f : Slot → ℕ} {len : ℕ} {slot : Slot}

theorem congr (h : Counted degrees f len) {f' : Slot → ℕ} (hf : ∀ s, s.toNat < len → f' s = f s) :
    Counted degrees f' len :=
  ⟨h.length, fun s hs => by rw [hf s hs]; exact h.at_ s hs⟩

theorem returns_index (h : Counted degrees f len) (hslot : slot.toNat < len) :
    index degrees slot.toNat = .ok (f slot) := index_eq_ok.2 (h.at_ slot hslot)

theorem returns_setAt (h : Counted degrees f len) (hslot : slot.toNat < len) (degree : ℕ) :
    Returns (setAt degrees slot.toNat degree) fun degrees' =>
      Counted degrees' (Function.update f slot degree) len := by
  have hlt : slot.toNat < degrees.length := by rwa [h.length]
  rw [setAt_of_lt hlt]
  refine returns_ok ⟨List.length_set.trans h.length, fun s hs => ?_⟩
  by_cases heq : s = slot
  · subst heq
    rw [List.getElem?_set_self hlt, Function.update_self]
  · rw [List.getElem?_set_ne (Hnsw.slot_ne heq).symm, Function.update_of_ne heq]
    exact h.at_ s hs

end Counted

section Degrees

variable {g : Hnsw}

/-- One list is counted. -/
theorem returns_countList {degrees : List ℕ} {f : Slot → ℕ} {list : List Slot}
    (h : Counted degrees f g.len) (hlist : ∀ n ∈ list, n.toNat < g.len) :
    Returns (list.foldlM (fun degrees n => do
      let degree ← index degrees n.toNat
      setAt degrees n.toNat (degree + 1)) degrees) fun degrees' =>
      Counted degrees' (fun s => f s + list.count s) g.len := by
  refine returns_foldlM_done (J := fun (done : List Slot) degrees =>
    Counted degrees (fun s => f s + done.count s) g.len)
    (fun done n rest hl degrees hdegrees => ?_) h
  have hn : n.toNat < g.len := hlist n (by simp [hl])
  rw [hdegrees.returns_index hn, ok_bind]
  refine (hdegrees.returns_setAt hn _).mono fun degrees' h' => h'.congr fun s _ => ?_
  rw [List.count_append, List.count_singleton]
  by_cases heq : s = n
  · subst heq
    rw [Function.update_self, beq_self_eq_true, if_pos rfl, Nat.add_assoc]
  · rw [Function.update_of_ne heq, if_neg (by simpa using Ne.symm heq), Nat.add_zero]

/-- The in-degrees are the numbers of in-links. -/
theorem Hnsw.Linked.returns_inDegrees (h : g.Linked) :
    Returns (inDegrees g) fun degrees => Counted degrees g.degreeIn g.len := by
  refine returns_foldlM_done (J := fun (done : List Slot) degrees =>
    Counted degrees (fun s => (done.map fun t => (g.linksOf t).count s).sum) g.len)
    (fun done slot rest hl degrees hdegrees => ?_) ⟨List.length_replicate, fun s hs => ?_⟩
  · have hslot : slot.toNat < g.len := mem_slotRange (by rw [hl]; simp)
    obtain ⟨list, hlist, -, hmem⟩ := h.lists 0 slot ⟨hslot, Nat.zero_le _⟩
    rw [hlist, ok_bind]
    refine (returns_countList hdegrees fun n hn => (hmem n hn).1).mono fun degrees' h' =>
      h'.congr fun s _ => ?_
    rw [List.map_append, List.sum_append_nat, List.map_singleton, List.sum_singleton,
      Hnsw.linksOf_of_eq hlist]
  · rw [List.getElem?_replicate_of_lt hs]
    rfl

/-! ## One list changed -/

/-- The level-0 list of one slot is now `list`. -/
structure Hnsw.Rewired (g : Hnsw) (slot : Slot) (list : List Slot) (g' : Hnsw) : Prop where
  kept : g.Kept g'
  same : g'.linksOf slot = list
  other (s : Slot) : s ≠ slot → s.toNat < g.len → g'.linksOf s = g.linksOf s

theorem Hnsw.Relinked.len {g' : Hnsw} (h : g.Relinked g') : g'.len = g.len :=
  congrArg List.length h.levels

theorem Hnsw.Rewired.degreeIn {g' : Hnsw} {host : Slot} {list : List Slot} (h : g.Rewired host list g')
    (hhost : host ∈ slotRange g.len) (slot : Slot) :
    g'.degreeIn slot + (g.linksOf host).count slot = g.degreeIn slot + list.count slot := by
  unfold Hnsw.degreeIn
  rw [h.kept.1.len, ← h.same]
  have hothers : ∀ s ∈ slotRange g.len, s ≠ host →
      (g'.linksOf s).count slot = (g.linksOf s).count slot := by
    intro s hs hne
    rw [h.other s hne (mem_slotRange hs)]
  exact sum_map_changed (nodup_slotRange _) hhost hothers

/-- One link more. -/
theorem Hnsw.Rewired.degreeIn_append {g' : Hnsw} {host orphan : Slot}
    (h : g.Rewired host (g.linksOf host ++ [orphan]) g') (hhost : host ∈ slotRange g.len) (slot : Slot) :
    g'.degreeIn slot = g.degreeIn slot + if slot = orphan then 1 else 0 := by
  have hsum := h.degreeIn hhost slot
  rw [List.count_append, List.count_singleton] at hsum
  simp only [beq_iff_eq, eq_comm (a := orphan)] at hsum
  omega

/-- One link in the place of another. -/
theorem Hnsw.Rewired.degreeIn_replace {g' : Hnsw} {host orphan old : Slot} {i : ℕ}
    (h : g.Rewired host ((g.linksOf host).set i orphan) g') (hhost : host ∈ slotRange g.len)
    (hold : (g.linksOf host)[i]? = some old) (hmore : 1 < g.degreeIn old) (slot : Slot) :
    g'.degreeIn slot = Function.update g.degreeIn old (g.degreeIn old - 1) slot +
      if slot = orphan then 1 else 0 := by
  obtain ⟨hi, hat⟩ := List.getElem?_eq_some_iff.1 hold
  have hsum := h.degreeIn hhost slot
  rw [List.count_set hi, hat] at hsum
  have hcount : (if old == slot then 1 else 0) ≤ (g.linksOf host).count slot := by
    split
    · rename_i heq
      rw [← beq_iff_eq.1 heq]
      exact List.count_pos_iff.2 (List.mem_of_getElem? hold)
    · exact Nat.zero_le _
  by_cases heq : slot = old
  · subst heq
    rw [Function.update_self]
    simp only [beq_self_eq_true, if_true, beq_iff_eq, eq_comm (a := orphan)] at hsum hcount
    omega
  · rw [Function.update_of_ne heq]
    simp only [beq_iff_eq, if_neg (Ne.symm heq), eq_comm (a := orphan)] at hsum hcount
    omega

/-- Appending a link to a list with room. -/
theorem Hnsw.Linked.returns_append (h : g.Linked) {host orphan : Slot} (hhost : host.toNat < g.len)
    (horphan : orphan.toNat < g.len) (hroom : (g.linksOf host).length < g.params.m0) :
    Returns (g.writeLinks host 0 (g.linksOf host).length [orphan] (.ofNat ((g.linksOf host).length + 1)))
      (g.Rewired host (g.linksOf host ++ [orphan])) := by
  have hon : g.On 0 host := ⟨hhost, Nat.zero_le _⟩
  obtain ⟨list, hlist, rfl, hmem⟩ := h.returns_linksOf hon
  have hcap : (g.linksOf host).length + [orphan].length ≤ g.capacity 0 := by
    simpa [Hnsw.capacity] using Nat.succ_le_of_lt hroom
  refine (Hnsw.returns_wrote h.toShaped hon hlist le_rfl hcap).mono fun g' hw => ?_
  rw [List.take_length] at hw
  have hkept := hw.kept h (by simpa using hcap) fun n hn => by
    rcases List.mem_append.1 hn with hn | hn
    · exact hmem n hn
    · rw [List.mem_singleton.1 hn]
      exact ⟨horphan, Nat.zero_le _⟩
  refine ⟨hkept, Hnsw.linksOf_of_eq hw.same, fun s hne hs => ?_⟩
  obtain ⟨other, hother, hcap', -⟩ := h.lists 0 s ⟨hs, Nat.zero_le _⟩
  rw [Hnsw.linksOf_of_eq hother]
  exact Hnsw.linksOf_of_eq (hw.other (by simpa using hne) hother hcap')

/-- Replacing a link. -/
theorem Hnsw.Linked.returns_replace (h : g.Linked) {host orphan : Slot} (hhost : host.toNat < g.len)
    (horphan : orphan.toNat < g.len) {i : ℕ} (hi : i < (g.linksOf host).length) :
    Returns (setAt g.level0 (host.toNat * g.params.m0 + i) orphan) fun level0 =>
      g.Rewired host ((g.linksOf host).set i orphan) { g with level0 } := by
  obtain ⟨list, hlist, hcap, hmem⟩ := h.lists 0 host ⟨hhost, Nat.zero_le _⟩
  rw [Hnsw.linksOf_of_eq hlist] at hi ⊢
  have hcap : list.length ≤ g.params.m0 := hcap
  obtain ⟨len, hlen, hslice⟩ := Hnsw.neighbours_zero_eq_ok.1 hlist
  have hlt : host.toNat * g.params.m0 + i < g.level0.length := by
    rw [h.level0]
    have := block_le (w := g.params.m0) hhost
    omega
  rw [setAt_of_lt hlt]
  have hother {s : Slot} {other : List Slot} (hne : s ≠ host) (hs : g.neighbours s 0 = .ok other)
      (hcap' : other.length ≤ g.params.m0) :
      Hnsw.neighbours { g with level0 := g.level0.set (host.toNat * g.params.m0 + i) orphan } s 0 =
        .ok other := by
    obtain ⟨len', hlen', hslice'⟩ := Hnsw.neighbours_zero_eq_ok.1 hs
    refine Hnsw.neighbours_zero_eq_ok.2 ⟨len', hlen', ?_⟩
    have hk : len'.toNat ≤ g.params.m0 := (slice_length hslice').symm.le.trans hcap'
    have hdisjoint := block_disjoint (Hnsw.slot_ne hne) hk (show i + 1 ≤ g.params.m0 by omega)
    have hout : host.toNat * g.params.m0 + i < s.toNat * g.params.m0 ∨
        s.toNat * g.params.m0 + len'.toNat ≤ host.toNat * g.params.m0 + i := by omega
    exact (slice_set_outside hout).trans hslice'
  have hsame : Hnsw.neighbours { g with level0 := g.level0.set (host.toNat * g.params.m0 + i) orphan }
      host 0 = .ok (list.set i orphan) :=
    Hnsw.neighbours_zero_eq_ok.2 ⟨len, hlen, slice_set_inside hslice⟩
  refine returns_ok ⟨⟨⟨rfl, rfl, rfl, rfl, rfl, rfl, rfl, rfl, rfl⟩, { h.toShaped with
    level0 := List.length_set.trans h.level0 }, fun level slot hon => ?_⟩, Hnsw.linksOf_of_eq hsame,
    fun s hne hs => ?_⟩
  · cases level with
    | zero =>
      by_cases heq : slot = host
      · subst heq
        refine returns_iff.2 ⟨_, hsame, List.length_set.trans_le hcap, fun n hn => ?_⟩
        rcases List.mem_or_eq_of_mem_set hn with hn | rfl
        · exact hmem n hn
        · exact ⟨horphan, Nat.zero_le _⟩
      · obtain ⟨other, hread, hcap', hmem'⟩ := h.lists 0 slot hon
        exact returns_iff.2 ⟨other, hother heq hread hcap', hcap', hmem'⟩
    | succ level =>
      obtain ⟨other, hread, hcap', hmem'⟩ := h.lists (level + 1) slot hon
      refine returns_iff.2 ⟨other, ?_, hcap', hmem'⟩
      rwa [Hnsw.neighbours_succ_eq_ok] at hread ⊢
  · obtain ⟨other, hread, hcap', -⟩ := h.lists 0 s ⟨hs, Nat.zero_le _⟩
    rw [Hnsw.linksOf_of_eq hread]
    exact Hnsw.linksOf_of_eq (hother hne hread hcap')

end Degrees

/-! ## A link for an orphan -/

namespace Repair

variable {g : Hnsw} {r r' r'' : Repair} {orphan host : Slot}

/-- The graph under repair is still linked, and the counts are those of its links. -/
structure Fits (g : Hnsw) (r : Repair) : Prop where
  kept : g.Kept r.graph
  counted : Counted r.inDegree r.graph.degreeIn g.len

/-- No slot loses its last in-link. -/
structure Keeps (g : Hnsw) (r r' : Repair) : Prop where
  fits : Fits g r'
  linked (slot : Slot) : 0 < r.graph.degreeIn slot → 0 < r'.graph.degreeIn slot

theorem Keeps.trans (h : Keeps g r r') (h' : Keeps g r' r'') : Keeps g r r'' :=
  ⟨h'.fits, fun slot hslot => h'.linked slot (h.linked slot hslot)⟩

theorem farthest_mem {links : List (ℕ × F32)} {link : ℕ × F32} (h : farthest links = some link) :
    link ∈ links := by
  cases links with
  | nil => cases h
  | cons first rest =>
    cases h
    refine List.foldlRecOn rest _ (motive := fun best => best ∈ first :: rest) List.mem_cons_self
      fun best hbest link hlink => ?_
    split
    · exact hbest
    · exact List.mem_cons_of_mem _ hlink

theorem Fits.len (h : Fits g r) : r.graph.len = g.len := h.kept.1.len

/-- A replaceable link is to a slot that keeps another in-link. -/
theorem Fits.returns_replaceable (h : Fits g r) (hhost : host.toNat < g.len) :
    Returns (r.replaceable host (r.graph.linksOf host)) fun o => ∀ i ∈ o,
      ∃ old, (r.graph.linksOf host)[i]? = some old ∧ 1 < r.graph.degreeIn old := by
  have hlinked := h.kept.2
  have hrows (s : Slot) (hs : s.toNat < g.len) : s.toNat < r.graph.vectors.len := by
    rwa [hlinked.vectors, h.len]
  obtain ⟨list, hlist, rfl, hmem⟩ := hlinked.returns_linksOf
    (show r.graph.On 0 host from ⟨by rwa [h.len], Nat.zero_le _⟩)
  refine (Hnsw.returns_rowOf (hrows host hhost)).bind fun row _ => ?_
  let Spared (link : ℕ × F32) : Prop :=
    ∃ old, (r.graph.linksOf host)[link.1]? = some old ∧ 1 < r.graph.degreeIn old
  refine Returns.bind (Q := fun links => ∀ link ∈ links, Spared link) ?_ fun links hlinks => ?_
  · refine returns_filterMapM ?_
    rintro ⟨slot, i⟩ hslot
    have hat := List.mem_zipIdx_iff_getElem?.1 hslot
    have hlt : slot.toNat < g.len := by
      rw [← h.len]
      exact (hmem slot (List.mem_of_getElem? hat)).1
    simp only [degree, h.counted.returns_index hlt, ok_bind]
    split
    · rename_i hmore
      refine (Hnsw.returns_distanceTo (hrows slot hlt)).bind fun d _ => returns_ok fun link hlink => ?_
      cases hlink
      exact ⟨slot, hat, hmore⟩
    · exact returns_ok (by simp)
  · refine returns_ok fun i hi => ?_
    obtain ⟨link, hlink, rfl⟩ := Option.map_eq_some_iff.1 hi
    exact hlinks link (farthest_mem hlink)

/-- A host with room takes the orphan in, a full one gives up a link that can be spared. -/
theorem Fits.returns_tryHost (h : Fits g r) (hhost : host ∈ slotRange g.len)
    (horphan : orphan.toNat < g.len) :
    Returns (r.tryHost orphan host) fun out => ∀ r' ∈ out,
      Keeps g r r' ∧ 0 < r'.graph.degreeIn orphan := by
  have hlinked := h.kept.2
  have hlt := mem_slotRange hhost
  have hhost' : host ∈ slotRange r.graph.len := by rwa [h.len]
  obtain ⟨list, hlist, rfl, hmem⟩ := hlinked.returns_linksOf
    (show r.graph.On 0 host from ⟨by rwa [h.len], Nat.zero_le _⟩)
  unfold tryHost
  rw [hlist, ok_bind]
  dsimp only
  split
  · rename_i hroom
    refine (hlinked.returns_append (by rwa [h.len]) (by rwa [h.len]) hroom).bind fun graph hgraph => ?_
    have hdegree := hgraph.degreeIn_append hhost'
    simp only [degree, h.counted.returns_index horphan, ok_bind]
    refine (h.counted.returns_setAt horphan _).bind fun inDegree hcounted => returns_ok fun r' hr' => ?_
    cases hr'
    refine ⟨⟨⟨h.kept.trans hgraph.kept, hcounted.congr fun s _ => ?_⟩, fun s hs => ?_⟩, ?_⟩
    · rw [hdegree]
      by_cases heq : s = orphan
      · subst heq
        rw [Function.update_self, if_pos rfl]
      · rw [Function.update_of_ne heq, if_neg heq, Nat.add_zero]
    · rw [hdegree]
      exact Nat.add_pos_left hs _
    · rw [hdegree, if_pos rfl]
      exact Nat.succ_pos _
  · refine (h.returns_replaceable hlt).bind fun o ho => ?_
    cases o with
    | none => exact returns_ok (by simp)
    | some i =>
      obtain ⟨old, hold, hmore⟩ := ho i rfl
      obtain ⟨hi, hat⟩ := List.getElem?_eq_some_iff.1 hold
      have holdlt : old.toNat < g.len := by
        rw [← h.len]
        exact (hmem old (List.mem_of_getElem? hold)).1
      simp only [index_eq_ok.2 hold, ok_bind, degree, h.counted.returns_index holdlt]
      refine (h.counted.returns_setAt holdlt _).bind fun less hless => ?_
      refine (hlinked.returns_replace (by rwa [h.len]) (by rwa [h.len]) hi).bind fun level0 hgraph => ?_
      have hdegree := hgraph.degreeIn_replace hhost' hold hmore
      rw [hless.returns_index horphan, ok_bind]
      refine (hless.returns_setAt horphan _).bind fun inDegree hcounted => returns_ok fun r' hr' => ?_
      cases hr'
      refine ⟨⟨⟨h.kept.trans hgraph.kept, hcounted.congr fun s _ => ?_⟩, fun s hs => ?_⟩, ?_⟩
      · rw [hdegree]
        by_cases heq : s = orphan
        · subst heq
          rw [Function.update_self, if_pos rfl]
        · rw [Function.update_of_ne heq, if_neg heq, Nat.add_zero]
      · rw [hdegree]
        refine Nat.add_pos_left ?_ _
        by_cases heq : s = old
        · subst heq
          rw [Function.update_self]
          omega
        · rwa [Function.update_of_ne heq]
      · rw [hdegree, if_pos rfl]
        exact Nat.succ_pos _

theorem Fits.returns_adopt (h : Fits g r) (horphan : orphan.toNat < g.len) {hosts : List Far}
    (hhosts : ∀ host ∈ hosts, host.slot ∈ slotRange g.len) :
    Returns (r.adopt orphan hosts) (Keeps g r) := by
  induction hosts with
  | nil => exact returns_ok ⟨h, fun _ hs => hs⟩
  | cons host rest ih =>
    refine (h.returns_tryHost (hhosts host List.mem_cons_self) horphan).bind fun out hout => ?_
    cases out with
    | none => exact ih fun c hc => hhosts c (List.mem_cons_of_mem _ hc)
    | some repaired => exact returns_ok (hout repaired rfl).1

theorem Fits.returns_visit (h : Fits g r) (horphan : orphan ∈ slotRange g.len) :
    Returns (r.visit orphan) (Keeps g r) := by
  have hlt := mem_slotRange horphan
  have hlinked := h.kept.2
  unfold visit
  rw [degree, h.counted.returns_index hlt, ok_bind]
  split
  · exact returns_ok ⟨h, fun _ hs => hs⟩
  · have hrows (s : Slot) (hs : s.toNat < g.len) : s.toNat < r.graph.vectors.len := by
      rwa [hlinked.vectors, h.len]
    have hroom : g.len < 2 ^ 32 := by
      have := hlinked.len_le
      rw [h.len] at this
      by_contra hfull
      obtain heq : g.len = 2 ^ 32 := by omega
      rw [heq] at horphan
      simp [slotRange] at horphan
    refine (Hnsw.returns_rowOf (hrows orphan hlt)).bind fun base _ => ?_
    obtain ⟨list, hlist, -, hmem⟩ := hlinked.lists 0 orphan ⟨by rwa [h.len], Nat.zero_le _⟩
    have hin (s : Slot) (hs : s ∈ list) : s.toNat < g.len := by
      rw [← h.len]
      exact (hmem s hs).1
    rw [hlist, ok_bind]
    refine (returns_mapM (R := fun s c => s = c.slot) fun s hs => ?_).bind fun hosts hhosts => ?_
    · exact (Hnsw.returns_distanceTo (hrows s (hin s hs))).bind fun d _ => returns_ok rfl
    · refine h.returns_adopt hlt fun host hhost => ?_
      have hslots : hosts.map Far.slot = list :=
        (Matched.map_eq hhosts fun _ _ h => h).symm.trans (List.map_id _)
      refine (mem_slotRange_iff hroom).2 (hin host.slot ?_)
      rw [← hslots]
      exact List.mem_map_of_mem ((perm_sortFar hosts).mem_iff.1 hhost)

end Repair

/-- The repair returns, keeps every in-linked slot in-linked and every list within its capacity. -/
theorem Hnsw.Linked.returns_linkLevel0Orphans {g : Hnsw} (h : g.Linked) :
    Returns (linkLevel0Orphans g) fun g' => g.Kept g' ∧
      ∀ slot, 0 < g.degreeIn slot → 0 < g'.degreeIn slot := by
  refine h.returns_inDegrees.bind fun inDegree hcounted => ?_
  refine (returns_foldlM (J := Repair.Keeps g ⟨g, inDegree⟩) (fun slot hslot r hr => ?_)
    ⟨⟨.refl h, hcounted⟩, fun _ hs => hs⟩).bind fun repaired hrepaired => ?_
  · exact (hr.fits.returns_visit hslot).mono fun r' hr' => hr.trans hr'
  · exact returns_ok ⟨hrepaired.fits.kept, hrepaired.linked⟩

/-! ## The built graph -/

theorem Hnsw.testBit_replicate_zero (words slot : ℕ) :
    testBit (List.replicate words 0) slot = false := by
  unfold testBit
  rw [List.getElem?_replicate]
  by_cases hlt : slot / 64 < words
  · rw [if_pos hlt]
    exact Nat.zero_testBit _
  · rw [if_neg hlt]

theorem topped_of_compact {core : BuildCore} {levels : List UInt8} {links : LockedLinks} {entry : Slot}
    {maxLevel : UInt8} (h : core.Linked levels links) (hm : core.params.m ≤ 255)
    (hm0 : core.params.m0 ≤ 255) (hrows : core.vectors.len = levels.length)
    (hlen : levels.length ≤ 2 ^ 32) (hlevels : ∀ level ∈ levels, level.toNat ≤ 31)
    (hhigh : highest levels = some (entry, maxLevel)) :
    (core.flat levels entry maxLevel links).Topped := by
  obtain ⟨hentry, hmax⟩ := highest_eq_some hlen hhigh
  have hon : BuildCore.On levels maxLevel.toNat entry :=
    ⟨(List.getElem?_eq_some_iff.1 hentry).1, (BuildCore.levelAt_of_eq hentry).ge⟩
  refine ⟨⟨BuildCore.linked_flat h hm hm0 hrows hlen, fun e he => ?_, nofun⟩, fun slot hslot => ?_, hlevels⟩
  · cases he
    exact BuildCore.on_flat.2 hon
  · have hat : levels[slot.toNat]? = some levels[slot.toNat] := List.getElem?_eq_getElem hslot
    rw [BuildCore.levelAt_flat, BuildCore.levelAt_of_eq hat]
    exact hmax _ (List.mem_of_getElem? hat)

/-- What a built graph is: valid, over the rows with their levels, and without tombstones. -/
structure BuiltOver (core : BuildCore) (levels : List UInt8) (g : Hnsw) : Prop where
  topped : g.Topped
  params : g.params = core.params
  metric : g.metric = core.metric
  vectors : g.vectors = core.vectors
  levels : g.levels = levels
  bits (slot : ℕ) : testBit g.tombstones slot = false
  tombstoneCount : g.tombstoneCount = 0

theorem Hnsw.Topped.relinked {g g' : Hnsw} (h : g.Topped) (hkept : g.Kept g') : g'.Topped := by
  obtain ⟨hre, hlinked⟩ := hkept
  have hlevelAt (slot : Slot) : g'.levelAt slot = g.levelAt slot := by
    unfold Hnsw.levelAt
    rw [hre.levels]
  refine ⟨⟨hlinked, fun e he => ?_, fun he => ?_⟩, fun slot hslot => ?_, fun level hlevel => ?_⟩
  · rw [hre.entry] at he
    rw [hre.maxLevel, hre.on_iff]
    exact h.entry e he
  · rw [hre.entry] at he
    rw [hre.len, h.empty he]
  · rw [hre.len] at hslot
    rw [hlevelAt, hre.maxLevel]
    exact h.top slot hslot
  · rw [hre.levels] at hlevel
    exact h.levels level hlevel

theorem builtOver_of_builds {core : BuildCore} {levels : List UInt8} {g : Hnsw}
    (hm : core.params.m ≤ 255) (hm0 : core.params.m0 ≤ 255) (hrows : core.vectors.len = levels.length)
    (hlen : levels.length ≤ 2 ^ 32) (hlevels : ∀ level ∈ levels, level.toNat ≤ 31)
    (h : Builds core levels g) : BuiltOver core levels g := by
  unfold Builds at h
  split at h
  · rename_i hnone
    obtain rfl := highest_eq_none.1 hnone
    subst h
    have hempty : core.vectors = .new core.vectors.dims := by
      obtain ⟨hbase, htail⟩ := List.append_eq_nil_iff.1 (List.eq_nil_of_length_eq_zero hrows)
      exact FlatVectors.ext rfl hbase htail
    exact ⟨Hnsw.topped_new hm hm0, rfl, rfl, hempty.symm, rfl, fun slot => by simp [Hnsw.new, testBit],
      rfl⟩
  · rename_i entry maxLevel hhigh
    obtain ⟨links, built, hrun, hcompact, hrepair⟩ := h
    obtain ⟨hentry, -⟩ := highest_eq_some hlen hhigh
    have hon : BuildCore.On levels maxLevel.toNat entry :=
      ⟨(List.getElem?_eq_some_iff.1 hentry).1, (BuildCore.levelAt_of_eq hentry).ge⟩
    have hlinked := hrun.linked hrows hon (fun chunk hchunk s hs =>
      mem_slotRange (List.mem_of_mem_filter (chunksOf_subset hchunk hs))) (BuildCore.linked_new core levels)
    rw [BuildCore.compact_eq hlinked hlen] at hcompact
    cases hcompact
    have htopped := topped_of_compact hlinked hm hm0 hrows hlen hlevels hhigh
    have hkept := (htopped.toLinked.returns_linkLevel0Orphans.of_ok hrepair).1
    have hre := hkept.1
    refine ⟨htopped.relinked hkept, hre.params, hre.metric, hre.vectors, hre.levels, fun slot => ?_,
      hre.tombstoneCount⟩
    rw [hre.tombstones]
    exact Hnsw.testBit_replicate_zero _ _

/-- Whatever the interleaving, the parallel builder returns a valid graph over the rows. -/
theorem builtOver_of_buildsParallel {vectors : FlatVectors} {metric : Metric} {params : HnswParams}
    {g : Hnsw} (hm : params.m ≤ 255) (hm0 : params.m0 ≤ 255) (hlen : vectors.len ≤ 2 ^ 32)
    (h : BuildsParallel vectors metric params g) :
    BuiltOver ⟨metric, vectors, params⟩
      ((List.range vectors.len).map fun slot => levelFor params (.ofNat slot)) g := by
  refine builtOver_of_builds hm hm0 (by simp) (by simpa using hlen) (fun level hlevel => ?_) h
  obtain ⟨slot, -, rfl⟩ := List.mem_map.1 hlevel
  exact levelFor_le _ _

end Index

end DistrHnsw
