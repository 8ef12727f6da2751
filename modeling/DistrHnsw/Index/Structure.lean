import DistrHnsw.Index.Sections

/-!
# What the structural checks accept

The checks of a loaded snapshot: every list is within its capacity and in range, the entry point is
on the top level, tombstones and slots agree, and every key owns the slot it points to.  They do not
look at the levels of the neighbours.
-/

namespace DistrHnsw

namespace Index

theorem mem_enumerate {α : Type} {xs : List α} {i : ℕ} {a : α} :
    (i, a) ∈ enumerate xs ↔ xs[i]? = some a := by
  unfold enumerate
  constructor
  · intro h
    obtain ⟨⟨b, j⟩, hmem, heq⟩ := List.mem_map.1 h
    cases heq
    exact List.mem_zipIdx_iff_getElem?.1 hmem
  · intro h
    exact List.mem_map.2 ⟨(a, i), List.mem_zipIdx_iff_getElem?.2 h, rfl⟩

variable {g : Hnsw}

namespace Hnsw

/-- Every list is inside its buffer, within its capacity, and in range. -/
def InRange (g : Hnsw) : Prop :=
  ∀ level slot, g.On level slot → Returns (g.neighbours slot level) fun list =>
    list.length ≤ g.capacity level ∧ ∀ n ∈ list, n.toNat < g.len

/-- Every list of a level names slots of that level. -/
def Leveled (g : Hnsw) : Prop :=
  ∀ level slot list, g.On level slot → g.neighbours slot level = .ok list →
    ∀ n ∈ list, level ≤ g.levelAt n

theorem Linked.inRange (h : g.Linked) : g.InRange := fun level slot hon =>
  (h.lists level slot hon).mono fun _ hlist => ⟨hlist.1, fun n hn => (hlist.2 n hn).1⟩

theorem Linked.leveled (h : g.Linked) : g.Leveled := fun level slot _ hon hread n hn =>
  (((h.lists level slot hon).of_ok hread).2 n hn).2

theorem linked_of (hs : g.Shaped) (hr : g.InRange) (hl : g.Leveled) : g.Linked where
  toShaped := hs
  lists level slot hon := by
    obtain ⟨list, hread, hlen, hlt⟩ := hr level slot hon
    exact returns_iff.2 ⟨list, hread, hlen, fun n hn => ⟨hlt n hn, hl level slot list hon hread n hn⟩⟩

end Hnsw

/-! ## Lists -/

theorem checkLinks_eq_ok {slotCount width start : ℕ} {tooLong outOfRange : String}
    {links : List Slot} {len : UInt8} :
    checkLinks slotCount width tooLong outOfRange links start len = .ok () ↔
      len.toNat ≤ width ∧ ∃ list, slice links start len.toNat = some list ∧
        ∀ n ∈ list, n.toNat < slotCount := by
  simp only [checkLinks, guard_eq_ok, not_lt, bind_eq_ok, mapError_eq_ok, range_eq_ok]
  refine and_congr_right fun _ => exists_congr fun list => and_congr_right fun _ => ?_
  split
  · rename_i hall
    simpa using hall
  · rename_i hall
    simpa using hall

theorem checkLevel0_eq_ok (h : g.Shaped) :
    (enumerate g.graphParts.level0Len).forM (checkLevel0 g.params g.len g.graphParts) = .ok () ↔
      ∀ slot : Slot, slot.toNat < g.len → Returns (g.neighbours slot 0) fun list =>
        list.length ≤ g.params.m0 ∧ ∀ n ∈ list, n.toNat < g.len := by
  have hparts : g.graphParts.level0Len = g.level0Len := rfl
  simp only [forM_eq_ok, checkLevel0, checkLinks_eq_ok, Prod.forall, mem_enumerate, hparts]
  constructor
  · intro hall slot hslot
    have hlt : slot.toNat < g.level0Len.length := by rwa [h.level0Len]
    have hlen : g.level0Len[slot.toNat]? = some g.level0Len[slot.toNat] :=
      List.getElem?_eq_getElem hlt
    obtain ⟨hle, list, hslice, hlist⟩ := hall _ _ hlen
    refine returns_iff.2 ⟨list, Hnsw.neighbours_zero_eq_ok.2 ⟨_, hlen, hslice⟩, ?_, hlist⟩
    rw [slice_length hslice]
    exact hle
  · intro hall s len hlen
    have hs : s < g.len := by
      rw [← h.level0Len]
      exact (List.getElem?_eq_some_iff.1 hlen).1
    have hslot : (UInt32.ofNat s).toNat = s := UInt32.toNat_ofNat_of_lt' (hs.trans_le h.len_le)
    obtain ⟨list, hread, hle, hlist⟩ := hall (.ofNat s) (by rwa [hslot])
    obtain ⟨len', hlen', hslice⟩ := Hnsw.neighbours_zero_eq_ok.1 hread
    rw [hslot] at hlen' hslice
    cases hlen.symm.trans hlen'
    rw [slice_length hslice] at hle
    exact ⟨hle, list, hslice, hlist⟩

theorem checkUpper_eq_ok (h : g.Shaped) :
    (List.range g.len).forM (checkUpper g.params g.len g.graphParts) = .ok () ↔
      (∀ level ∈ g.levels, level.toNat ≤ 31) ∧
        ∀ (slot : Slot) (level : ℕ), g.On (level + 1) slot →
          Returns (g.neighbours slot (level + 1)) fun list =>
            list.length ≤ g.params.m ∧ ∀ n ∈ list, n.toNat < g.len := by
  simp only [forM_eq_ok, checkUpper, bind_eq_ok, mapError_eq_ok, index_eq_ok, guard_eq_ok,
    checkLinks_eq_ok, Prod.forall, mem_enumerate, List.mem_range, not_lt]
  constructor
  · intro hall
    constructor
    · intro level hlevel
      obtain ⟨s, hs⟩ := List.mem_iff_getElem?.1 hlevel
      obtain ⟨level', hlevel', hle, -⟩ := hall s (List.getElem?_eq_some_iff.1 hs).1
      cases hs.symm.trans hlevel'
      exact hle
    · intro slot level hon
      obtain ⟨top, htop, hlevel⟩ := hon.level
      obtain ⟨-, -, -, lens, hlens, links, hlinks, hlists⟩ := hall slot.toNat hon.1
      have hlt : level < lens.length := by
        rw [h.lens htop hlens]
        exact hlevel
      obtain ⟨hle, list, hslice, hlist⟩ := hlists _ _ (List.getElem?_eq_getElem hlt)
      refine returns_iff.2 ⟨list, Hnsw.neighbours_succ_eq_ok.2 ⟨lens, hlens, _,
        List.getElem?_eq_getElem hlt, links, hlinks, hslice⟩, ?_, hlist⟩
      rw [slice_length hslice]
      exact hle
  · rintro ⟨hlevels, hall⟩ s hs
    have hslot : (UInt32.ofNat s).toNat = s := UInt32.toNat_ofNat_of_lt' (hs.trans_le h.len_le)
    have hlens : s < g.upperLen.length := by rwa [h.upperLen]
    have hlinks : s < g.upper.length := by rwa [h.upper]
    have htop : g.levels[s]? = some g.levels[s] := List.getElem?_eq_getElem hs
    refine ⟨g.levels[s], htop, hlevels _ (List.getElem_mem hs), g.upperLen[s],
      List.getElem?_eq_getElem hlens, g.upper[s], List.getElem?_eq_getElem hlinks, ?_⟩
    intro level len hlen
    have hlevel : level + 1 ≤ g.levels[s].toNat := by
      rw [← h.lens htop (List.getElem?_eq_getElem hlens)]
      exact (List.getElem?_eq_some_iff.1 hlen).1
    have hon : g.On (level + 1) (.ofNat s) := by
      refine ⟨by rwa [hslot], ?_⟩
      rw [Hnsw.levelAt_of_eq (by rw [hslot]; exact htop)]
      exact hlevel
    obtain ⟨list, hread, hle, hlist⟩ := hall (.ofNat s) level hon
    obtain ⟨lens', hlens', len', hlen', links', hlinks', hslice⟩ :=
      Hnsw.neighbours_succ_eq_ok.1 hread
    rw [hslot] at hlens' hlinks'
    cases (List.getElem?_eq_getElem hlens).symm.trans hlens'
    cases (List.getElem?_eq_getElem hlinks).symm.trans hlinks'
    cases hlen.symm.trans hlen'
    rw [slice_length hslice] at hle
    exact ⟨hle, list, hslice, hlist⟩

/-! ## Entry point, slots and keys -/

theorem checkEntry_eq_ok :
    checkEntry g.len g.graphParts = .ok () ↔
      (∀ slot, g.entry = some slot → slot.toNat < g.len ∧ g.levelAt slot = g.maxLevel.toNat) ∧
        (g.entry = none → g.len = 0) := by
  have hparts : g.graphParts.entry = g.entry := rfl
  unfold checkEntry
  rw [hparts]
  cases g.entry with
  | none =>
    simp only [guard_eq_ok, not_not, and_true]
    exact ⟨fun h => ⟨nofun, fun _ => h⟩, fun h => h.2 trivial⟩
  | some entry =>
    simp only [Option.some.injEq, forall_eq', reduceCtorEq, false_implies, and_true]
    split
    · rename_i hlt
      have hlevel : index g.graphParts.levels entry.toNat = .ok g.levels[entry.toNat] :=
        index_of_lt hlt
      rw [hlevel]
      show (if _ then _ else _) = _ ↔ _
      rw [Hnsw.levelAt_of_eq (List.getElem?_eq_getElem hlt), UInt8.toNat_inj]
      have hparts' : g.graphParts.maxLevel = g.maxLevel := rfl
      rw [hparts']
      split <;> simp [*]
    · rename_i hlt
      simp [hlt]

theorem checkSlot_eq_ok {keyCount : ℕ} {parts : GraphParts} {slot : ℕ × SlotRecord} :
    checkSlot keyCount parts slot = .ok () ↔
      testBit parts.tombstones slot.1 = slot.2.tombstone ∧ slot.2.keyIndex.toNat < keyCount := by
  simp only [checkSlot, guard_eq_ok, not_not, not_le, ge_iff_le, and_true]

theorem checkKeySlot_eq_ok {slots : List SlotRecord} {i : ℕ} {key : Bytes × Slot} :
    checkKeySlot slots (i, key) = .ok () ↔ (key.2 ≠ noSlot → ∃ record,
      slots[key.2.toNat]? = some record ∧ record.tombstone = false ∧ record.keyIndex.toNat = i) := by
  unfold checkKeySlot
  dsimp only
  split
  · rename_i hnone
    simp [hnone]
  · rename_i hsome
    split
    · rename_i hread
      simp [hread, hsome]
    · rename_i record hread
      simp [hread, hsome]

/-- What the structural checks accept. -/
structure Consistent (g : Hnsw) (keys : List (Bytes × Slot)) (slots : List SlotRecord) : Prop where
  inRange : g.InRange
  levels : ∀ level ∈ g.levels, level.toNat ≤ 31
  entry (slot : Slot) : g.entry = some slot →
    slot.toNat < g.len ∧ g.levelAt slot = g.maxLevel.toNat
  empty : g.entry = none → g.len = 0
  tombstones {s : ℕ} {record : SlotRecord} : slots[s]? = some record →
    testBit g.tombstones s = record.tombstone
  owner {s : ℕ} {record : SlotRecord} : slots[s]? = some record →
    record.keyIndex.toNat < keys.length
  count : (slots.filter SlotRecord.tombstone).length = g.tombstoneCount
  live {i : ℕ} {key : Bytes} {slot : Slot} : keys[i]? = some (key, slot) → slot ≠ noSlot →
    ∃ record, slots[slot.toNat]? = some record ∧ record.tombstone = false ∧ record.keyIndex.toNat = i

/-- The checks pass exactly on what is consistent. -/
theorem validateStructure_eq_ok (h : g.Shaped) {keys : List (Bytes × Slot)}
    {slots : List SlotRecord} :
    validateStructure g.params g.len keys slots g.graphParts = .ok () ↔ Consistent g keys slots := by
  have hkeys : ((enumerate keys).forM (checkKeySlot slots) = .ok ()) ↔ ∀ i key slot,
      keys[i]? = some (key, slot) → slot ≠ noSlot → ∃ record,
        slots[slot.toNat]? = some record ∧ record.tombstone = false ∧
          record.keyIndex.toNat = i := by
    simp only [forM_eq_ok, Prod.forall, mem_enumerate, checkKeySlot_eq_ok]
  have hslots : ((enumerate slots).forM (checkSlot keys.length g.graphParts) = .ok ()) ↔
      ∀ s record, slots[s]? = some record →
        testBit g.tombstones s = record.tombstone ∧ record.keyIndex.toNat < keys.length := by
    simp only [forM_eq_ok, Prod.forall, mem_enumerate, checkSlot_eq_ok]
    exact Iff.rfl
  have hcount : g.graphParts.tombstoneCount = g.tombstoneCount := rfl
  simp only [validateStructure, check_bind_eq_ok, checkLevel0_eq_ok h, checkUpper_eq_ok h,
    checkEntry_eq_ok, hslots, guard_eq_ok, not_not, hkeys, hcount]
  constructor
  · rintro ⟨hlevel0, ⟨hlevels, hupper⟩, ⟨hentry, hempty⟩, hrecords, hcount, hlive⟩
    refine ⟨?_, hlevels, hentry, hempty, fun hr => (hrecords _ _ hr).1,
      fun hr => (hrecords _ _ hr).2, hcount, fun hk hs => hlive _ _ _ hk hs⟩
    rintro (_ | level) slot hon
    · exact hlevel0 slot hon.1
    · exact hupper slot level hon
  · intro hc
    exact ⟨fun slot hslot => hc.inRange 0 slot ⟨hslot, Nat.zero_le _⟩,
      ⟨hc.levels, fun slot level hon => hc.inRange (level + 1) slot hon⟩, ⟨hc.entry, hc.empty⟩,
      fun s record hr => ⟨hc.tombstones hr, hc.owner hr⟩, hc.count,
      fun i key slot hk hs => hc.live hk hs⟩

end Index

end DistrHnsw
