import DistrHnsw.Index.Frame
import DistrHnsw.Index.Levels
import DistrHnsw.Lib.Inverse
import DistrHnsw.Partition.State

/-!
# The representation invariant

Rows, records, key table, key map and tombstone bits describe the same slots.  The key map and the
records that are not tombstoned are inverse to each other, and every entry that is applied keeps
them so, whatever the lists of the graph hold.
-/

namespace DistrHnsw

namespace Index

open Wal (Entry Operation)

/-! ## Records -/

/-- The slot is filled and tombstoned. -/
def retired (slots : List SlotRecord) (s : ℕ) : Bool := (slots[s]?).any SlotRecord.tombstone

/-- The records after one that there may be was tombstoned. -/
def retire (slots : List SlotRecord) : Option Slot → List SlotRecord
  | none => slots
  | some slot => slots.modify slot.toNat fun record => { record with tombstone := true }

variable {slots : List SlotRecord} {previous : Option Slot}

theorem map_toNat_eq_some {slot : Slot} :
    previous.map UInt32.toNat = some slot.toNat ↔ previous = some slot := by
  simp only [Option.map_eq_some_iff, UInt32.toNat_inj, exists_eq_right]

theorem getElem?_retire {s : ℕ} : (retire slots previous)[s]? = (slots[s]?).map fun record =>
    if previous.map UInt32.toNat = some s then { record with tombstone := true } else record := by
  cases previous with
  | none => simp [retire]
  | some slot =>
    simp only [retire, List.getElem?_modify, Option.map_some, Option.some.injEq]
    rfl

@[simp] theorem length_retire : (retire slots previous).length = slots.length := by
  cases previous <;> simp [retire]

theorem retired_retire {s : ℕ} (h : ∀ slot, previous = some slot → slot.toNat < slots.length) :
    retired (retire slots previous) s =
      (retired slots s || decide (previous.map UInt32.toNat = some s)) := by
  unfold retired
  rw [getElem?_retire]
  by_cases hs : previous.map UInt32.toNat = some s
  · obtain ⟨slot, rfl, rfl⟩ := Option.map_eq_some_iff.1 hs
    simp [List.getElem?_eq_getElem (h slot rfl)]
  · cases slots[s]? <;> simp [hs]

theorem retired_append {record : SlotRecord} (h : record.tombstone = false) {s : ℕ} :
    retired (slots ++ [record]) s = retired slots s := by
  unfold retired
  by_cases hlt : s < slots.length
  · rw [List.getElem?_append_left hlt]
  · rw [List.getElem?_append_right (Nat.le_of_not_lt hlt), List.getElem?_eq_none (Nat.le_of_not_lt hlt)]
    cases s - slots.length with
    | zero => simp [h]
    | succ n => rfl

theorem map_version_retire : (retire slots previous).map SlotRecord.version =
    slots.map SlotRecord.version := by
  apply List.ext_getElem?
  intro s
  simp only [List.getElem?_map, getElem?_retire, Option.map_map]
  apply congrArg (Option.map · slots[s]?)
  funext record
  dsimp only [Function.comp_apply]
  split <;> rfl

theorem map_keyIndex_retire : (retire slots previous).map SlotRecord.keyIndex =
    slots.map SlotRecord.keyIndex := by
  apply List.ext_getElem?
  intro s
  simp only [List.getElem?_map, getElem?_retire, Option.map_map]
  apply congrArg (Option.map · slots[s]?)
  funext record
  dsimp only [Function.comp_apply]
  split <;> rfl

/-- A record that was not tombstoned before adds one. -/
theorem countP_retire {slot : Slot} {record : SlotRecord} (hread : slots[slot.toNat]? = some record)
    (hlive : record.tombstone = false) :
    (retire slots (some slot)).countP SlotRecord.tombstone =
      slots.countP SlotRecord.tombstone + 1 := by
  obtain ⟨hlt, rfl⟩ := List.getElem?_eq_some_iff.1 hread
  have hset : retire slots (some slot) =
      slots.set slot.toNat { slots[slot.toNat] with tombstone := true } := by
    rw [retire, List.modify_eq_set_getElem?, hread]
    rfl
  rw [hset, List.countP_set, hlive]
  · simp
  · exact hlt

namespace Partition

variable {p p' : Partition}

/-- The key that owns a slot, when the slot is not tombstoned. -/
def owner (p : Partition) (s : ℕ) : Option Bytes :=
  match p.slots[s]? with
  | some record => if record.tombstone then none else p.keyTable[record.keyIndex.toNat]?
  | none => none

/-- The representation invariant. -/
structure Rep (p : Partition) : Prop where
  config : p.config.validate = .ok ()
  metricOf : p.config.metricOf = .ok p.metric
  shaped : p.index.Shaped
  params : p.index.params = p.config.params
  metric : p.index.metric = p.metric
  dims : p.index.dims = p.config.dims
  slots : p.slots.length = p.index.len
  distinct : p.keyTable.Nodup
  keyTable_le : p.keyTable.length ≤ 2 ^ 32
  keys (key : Bytes) (i : UInt32) :
    (∃ live, p.keys key = some (i, live)) ↔ p.keyTable[i.toNat]? = some key
  keyIndex (record : SlotRecord) : record ∈ p.slots → record.keyIndex.toNat < p.keyTable.length
  live : Inverse p.slotForKey fun slot : Slot => p.owner slot.toNat
  bits (s : ℕ) : testBit p.index.tombstones s = retired p.slots s
  count : p.index.tombstoneCount = p.slots.countP SlotRecord.tombstone

/-- The versions of the slots, in the order they were filled. -/
structure Versioned (p : Partition) : Prop where
  ordered : (p.slots.map SlotRecord.version).Pairwise (· ≤ ·)
  bounded (version : ℕ) : version ∈ p.slots.map SlotRecord.version → version ≤ p.highWater

theorem Rep.slots_le (h : p.Rep) : p.slots.length ≤ 2 ^ 32 := by
  rw [h.slots]
  exact h.shaped.len_le

/-- A slot with an owner is filled and not tombstoned. -/
theorem owner_eq_some {s : ℕ} {key : Bytes} : p.owner s = some key ↔ ∃ record,
    p.slots[s]? = some record ∧ record.tombstone = false ∧
      p.keyTable[record.keyIndex.toNat]? = some key := by
  unfold owner
  split
  · rename_i record hread
    rw [hread]
    cases htombstone : record.tombstone <;> simp [htombstone]
  · rename_i hread
    simp [hread]

theorem owner_of_ge {s : ℕ} (h : p.slots.length ≤ s) : p.owner s = none := by
  unfold owner
  rw [List.getElem?_eq_none h]

theorem Rep.slot_lt (h : p.Rep) {key : Bytes} {slot : Slot} (hlive : p.slotForKey key = some slot) :
    slot.toNat < p.slots.length := by
  obtain ⟨record, hread, -⟩ := owner_eq_some.1 ((h.live key slot).1 hlive)
  exact (List.getElem?_eq_some_iff.1 hread).1

/-- A key that is not in the table is not in the map. -/
theorem Rep.keys_eq_none (h : p.Rep) {key : Bytes} : p.keys key = none ↔ key ∉ p.keyTable := by
  constructor
  · intro hnone hmem
    obtain ⟨i, hi⟩ := List.mem_iff_getElem?.1 hmem
    have hlt : i < 2 ^ 32 := (List.getElem?_eq_some_iff.1 hi).1.trans_le h.keyTable_le
    obtain ⟨live, hsome⟩ := (h.keys key (.ofNat i)).2 (by rwa [UInt32.toNat_ofNat_of_lt' hlt])
    cases hnone.symm.trans hsome
  · intro hmem
    cases hkey : p.keys key with
    | none => rfl
    | some value =>
      obtain ⟨i, live⟩ := value
      exact absurd (List.mem_of_getElem? ((h.keys key i).1 ⟨live, hkey⟩)) hmem

theorem topped_new {config : PartitionConfig} {metric : Metric} (hvalid : config.validate = .ok ()) :
    (Hnsw.new config.dims metric config.params).Topped := by
  obtain ⟨-, -, -, -, hm, hm0, -, -⟩ := PartitionConfig.validate_eq_ok hvalid
  exact Hnsw.topped_new (hm.trans hm0) hm0

/-- The state before any history. -/
theorem rep_empty {config : PartitionConfig} {metric : Metric} (hvalid : config.validate = .ok ())
    (hmetric : config.metricOf = .ok metric) : (empty config metric).Rep where
  config := hvalid
  metricOf := hmetric
  shaped := (topped_new hvalid).toShaped
  params := rfl
  metric := rfl
  dims := rfl
  slots := rfl
  distinct := List.nodup_nil
  keyTable_le := Nat.zero_le _
  keys _ _ := by simp [empty]
  keyIndex _ hmem := absurd hmem List.not_mem_nil
  live _ _ := by simp [empty, slotForKey, owner]
  bits s := by simp [empty, Hnsw.new, testBit, retired]
  count := rfl

theorem versioned_empty {config : PartitionConfig} {metric : Metric} :
    (empty config metric).Versioned where
  ordered := List.Pairwise.nil
  bounded _ hmem := absurd hmem List.not_mem_nil

/-! ## Masking a slot -/

/-- Masking a slot of the graph and tombstoning its record. -/
theorem returns_tombstone {index : Hnsw} {slots : List SlotRecord} {slot : Slot} (h : index.Shaped)
    (hslots : slot.toNat < slots.length) (hslot : slot.toNat < index.len) :
    Returns (tombstone index slots slot) fun out => index.Hidden slot out.1 ∧
      (index.Topped → out.1.Topped) ∧ out.2 = retire slots (some slot) := by
  unfold tombstone
  obtain ⟨⟨changed, masked⟩, hok, hhidden⟩ := h.returns_tombstone hslot
  rw [hok, ok_bind]
  dsimp only
  rw [index_of_lt hslots, ok_bind]
  refine returns_ok ⟨hhidden, fun ht => ((ht.returns_tombstone hslot).of_ok hok).2, ?_⟩
  rw [retire, List.modify_eq_set_getElem?, List.getElem?_eq_getElem hslots]
  rfl

/-! ## An upsert -/

/-- What an upsert leaves. -/
structure Upserted (p : Partition) (seq : ℕ) (key payload : Bytes) (vector : List F32)
    (p' : Partition) : Prop where
  same : p' =
    { p with index := p'.index, keyTable := p'.keyTable, keys := p'.keys, slots := p'.slots }
  shaped : p'.index.Shaped
  topped : p.index.Topped → p'.index.Topped
  params : p'.index.params = p.index.params
  metric : p'.index.metric = p.index.metric
  dims : p'.index.dims = p.index.dims
  len : p'.index.len = p.index.len + 1
  rows : p'.index.vectors.rows =
    p.index.vectors.rows ++ [FlatVectors.stored vector p.index.metric]
  bits (s : ℕ) : testBit p'.index.tombstones s = (testBit p.index.tombstones s ||
    decide ((p.slotForKey key).map UInt32.toNat = some s))
  count : p'.index.tombstoneCount =
    p.index.tombstoneCount + if (p.slotForKey key).isSome then 1 else 0
  keyTable : p'.keyTable = if (p.keys key).isSome then p.keyTable else p.keyTable ++ [key]
  keyIndex : ∃ i : UInt32, p'.keyTable[i.toNat]? = some key ∧
    p'.keys = Function.update p.keys key (some (i, some (.ofNat p.slots.length))) ∧
    p'.slots = retire p.slots (p.slotForKey key) ++ [⟨seq, false, i, payload⟩]

/-- Some position is left for the key. -/
def KeyRoom (p : Partition) (key : Bytes) : Prop := (p.keys key).isSome ∨ p.keyTable.length < 2 ^ 32

theorem Rep.slot_clear (h : p.Rep) {key : Bytes} {slot : Slot}
    (hlive : p.slotForKey key = some slot) : ∃ record, p.slots[slot.toNat]? = some record ∧
      record.tombstone = false ∧ testBit p.index.tombstones slot.toNat = false := by
  obtain ⟨record, hread, hclear, -⟩ := owner_eq_some.1 ((h.live key slot).1 hlive)
  refine ⟨record, hread, hclear, ?_⟩
  rw [h.bits, retired, hread]
  exact hclear

theorem Rep.keyPosition_spec (h : p.Rep) {key : Bytes} (hkey : p.KeyRoom key) :
    (p.keyPosition key).2 = (if (p.keys key).isSome then p.keyTable else p.keyTable ++ [key]) ∧
      (p.keyPosition key).2[(p.keyPosition key).1.toNat]? = some key := by
  unfold keyPosition
  cases hentry : p.keys key with
  | none =>
    have hlt : p.keyTable.length < 2 ^ 32 := by simpa [KeyRoom, hentry] using hkey
    refine ⟨rfl, ?_⟩
    dsimp only
    rw [UInt32.toNat_ofNat_of_lt' hlt]
    exact List.getElem?_concat_length
  | some entry => exact ⟨rfl, (h.keys key entry.1).1 ⟨entry.2, hentry⟩⟩

/-- An upsert that comes back took its vector in. -/
theorem Rep.takes (h : p.Rep) {seq : ℕ} {key payload : Bytes} {vector : List F32}
    (hok : p.applyUpsert seq key payload vector = .ok p') :
    p.index.Takes vector := by
  unfold applyUpsert at hok
  split at hok
  · cases hok
  · obtain ⟨out, hinsert, -⟩ := bind_eq_ok.1 hok
    exact h.shaped.takes_of_insert (mapError_eq_ok.1 hinsert)

theorem Rep.upserted (h : p.Rep) {seq : ℕ} {key payload : Bytes} {vector : List F32}
    (hkey : p.KeyRoom key) (hok : p.applyUpsert seq key payload vector = .ok p') :
    p.Upserted seq key payload vector p' := by
  have htakes := h.takes hok
  unfold applyUpsert at hok
  split at hok
  · cases hok
  obtain ⟨⟨slot, inserted⟩, hinsert, hok⟩ := bind_eq_ok.1 hok
  have hinsert : p.index.insert vector = .ok (slot, inserted) := mapError_eq_ok.1 hinsert
  have hplaced := h.shaped.placed_of_insert hinsert
  have htopped (ht : p.index.Topped) : inserted.Topped :=
    ((ht.returns_insert htakes.1 htakes.2.1 htakes.2.2).of_ok hinsert).2
  have hslot : slot = .ofNat p.slots.length := by
    apply UInt32.toNat_inj.1
    rw [hplaced.slot, h.slots, UInt32.toNat_ofNat_of_lt' htakes.2.2]
  obtain ⟨hkeyTable, hi⟩ := h.keyPosition_spec hkey
  generalize p.keyPosition key = position at hkeyTable hi hok
  obtain ⟨i, keyTable⟩ := position
  dsimp only at hok hkeyTable hi
  cases hprevious : p.slotForKey key with
  | none =>
    rw [hprevious] at hok
    cases hok
    refine ⟨rfl, hplaced.shaped, htopped, hplaced.params, hplaced.metric, hplaced.dims,
      hplaced.len, hplaced.rows, fun s => ?_, ?_, hkeyTable, i, hi, ?_, ?_⟩
    · simp [hprevious, hplaced.tombstones]
    · simpa [hprevious] using hplaced.tombstoneCount
    · rw [hslot]
    · rw [hprevious]
      rfl
  | some previous =>
    rw [hprevious] at hok
    obtain ⟨record, hread, hclear, hbit⟩ := h.slot_clear hprevious
    have hlt := h.slot_lt hprevious
    have hin : previous.toNat < inserted.len := by
      rw [hplaced.len, ← h.slots]
      omega
    obtain ⟨⟨masked, slots⟩, hmask, hhidden, hkeeps, hretired⟩ :=
      returns_tombstone hplaced.shaped hlt hin
    simp only [checked, hmask, Except.mapError, ok_bind] at hok
    cases hok
    dsimp only at hhidden hkeeps hretired
    refine ⟨rfl, hhidden.shaped, fun ht => hkeeps (htopped ht),
      hhidden.params.trans hplaced.params, hhidden.metric.trans hplaced.metric,
      (congrArg FlatVectors.dims hhidden.vectors).trans hplaced.dims,
      hhidden.len.trans hplaced.len,
      (congrArg FlatVectors.rows hhidden.vectors).trans hplaced.rows, fun s => ?_, ?_, hkeyTable, i,
      hi, ?_, ?_⟩
    · show testBit masked.tombstones s = _
      rw [hhidden.tombstones, hplaced.tombstones, hprevious]
      simp [eq_comm]
    · show masked.tombstoneCount = _
      rw [hhidden.tombstoneCount, hplaced.tombstones, hplaced.tombstoneCount, hbit, hprevious]
      rfl
    · rw [hslot]
    · rw [hprevious]
      exact congrArg (· ++ _) hretired

/-- Over a graph whose lists are sound, an upsert of what the graph takes in comes back. -/
theorem Rep.exists_applyUpsert (h : p.Rep) (ht : p.index.Topped) {vector : List F32}
    (htakes : p.index.Takes vector) (seq : ℕ) (key payload : Bytes) :
    ∃ p', p.applyUpsert seq key payload vector = .ok p' := by
  obtain ⟨⟨slot, inserted⟩, hinsert, hinserted, -⟩ :=
    ht.returns_insert htakes.1 htakes.2.1 htakes.2.2
  have hdims : ¬vector.length ≠ p.config.dims := by
    rw [← h.dims]
    exact not_not.2 htakes.1
  unfold applyUpsert
  simp only [if_neg hdims, checked, hinsert, Except.mapError, ok_bind]
  cases hprevious : p.slotForKey key with
  | none => exact ⟨_, rfl⟩
  | some previous =>
    have hlt := h.slot_lt hprevious
    have hlen : inserted.len = p.index.len + 1 := hinserted.len
    obtain ⟨out, hmask, -⟩ := returns_tombstone hinserted.valid.toShaped hlt
      (by rw [hlen, ← h.slots]; omega)
    simp only [hmask, ok_bind]
    exact ⟨_, rfl⟩

/-! ## A delete -/

/-- What a delete leaves. -/
structure Deleted (p : Partition) (key : Bytes) (p' : Partition) : Prop where
  same : p' = { p with index := p'.index, keys := p'.keys, slots := p'.slots }
  shaped : p'.index.Shaped
  topped : p.index.Topped → p'.index.Topped
  params : p'.index.params = p.index.params
  metric : p'.index.metric = p.index.metric
  vectors : p'.index.vectors = p.index.vectors
  len : p'.index.len = p.index.len
  bits (s : ℕ) : testBit p'.index.tombstones s = (testBit p.index.tombstones s ||
    decide ((p.slotForKey key).map UInt32.toNat = some s))
  count : p'.index.tombstoneCount =
    p.index.tombstoneCount + if (p.slotForKey key).isSome then 1 else 0
  keys : p'.keys = Function.update p.keys key ((p.keys key).map fun entry => (entry.1, none))
  slots : p'.slots = retire p.slots (p.slotForKey key)

theorem Rep.returns_applyDelete (h : p.Rep) (key : Bytes) :
    Returns (p.applyDelete key) (p.Deleted key) := by
  unfold applyDelete
  split
  · rename_i i previous hentry
    have hprevious : p.slotForKey key = some previous := by simp [slotForKey, hentry]
    obtain ⟨record, hread, hclear, hbit⟩ := h.slot_clear hprevious
    have hlt := h.slot_lt hprevious
    obtain ⟨⟨masked, slots⟩, hok, hhidden, hkeeps, hretired⟩ :=
      returns_tombstone h.shaped hlt (by rwa [← h.slots])
    simp only [checked, hok, Except.mapError, ok_bind]
    dsimp only at hhidden hkeeps hretired
    refine returns_ok ⟨rfl, hhidden.shaped, hkeeps, hhidden.params, hhidden.metric,
      hhidden.vectors, hhidden.len, fun s => ?_, ?_, ?_, ?_⟩
    · show testBit masked.tombstones s = _
      rw [hhidden.tombstones, hprevious]
      simp [eq_comm]
    · show masked.tombstoneCount = _
      rw [hhidden.tombstoneCount, hbit, hprevious]
      rfl
    · rw [hentry]
      rfl
    · rw [hprevious]
      exact hretired
  · rename_i hnone
    have hprevious : p.slotForKey key = none := by
      unfold slotForKey
      cases hentry : p.keys key with
      | none => rfl
      | some entry =>
        obtain ⟨i, live⟩ := entry
        cases live with
        | none => rfl
        | some slot => exact absurd hentry (hnone i slot)
    refine returns_ok ⟨rfl, h.shaped, id, rfl, rfl, rfl, rfl, fun s => ?_, ?_, ?_, ?_⟩
    · simp [hprevious]
    · simp [hprevious]
    · have hsame : ((p.keys key).map fun entry => (entry.1, (none : Option Slot))) = p.keys key := by
        cases hentry : p.keys key with
        | none => rfl
        | some entry =>
          obtain ⟨i, live⟩ := entry
          have hlive : live = none := by simpa [slotForKey, hentry] using hprevious
          rw [hlive]
          rfl
      rw [hsame, Function.update_eq_self]
    · rw [hprevious]
      rfl

/-! ## The invariant after an entry -/

section Applied

variable {seq : ℕ} {key payload : Bytes} {vector : List F32} {window : IdempotencyWindow}

theorem slotForKey_update {keys : KeyMap} {i : UInt32} {live : Option Slot}
    (h : p'.keys = Function.update keys key (some (i, live))) :
    p'.slotForKey = Function.update (fun k => (keys k).bind Prod.snd) key live := by
  funext k
  unfold slotForKey
  rw [h]
  by_cases hk : k = key
  · subst hk
    simp
  · simp [Function.update_of_ne hk]

theorem getElem?_append_of_ne {α : Type} {xs : List α} {a b : α} (h : b ≠ a) {i : ℕ} :
    (xs ++ [a])[i]? = some b ↔ xs[i]? = some b := by
  by_cases hlt : i < xs.length
  · rw [List.getElem?_append_left hlt]
  · rw [List.getElem?_append_right (Nat.le_of_not_lt hlt), List.getElem?_eq_none (Nat.le_of_not_lt hlt)]
    cases i - xs.length with
    | zero => simp [Ne.symm h]
    | succ n => simp

/-- The owners after the records were retired and the key table grew. -/
theorem owner_retire (h : p.Rep) {extra : List Bytes} {s : ℕ}
    (hslots : p'.slots[s]? = (retire p.slots previous)[s]?)
    (hkeyTable : p'.keyTable = p.keyTable ++ extra) :
    p'.owner s = if previous.map UInt32.toNat = some s then none else p.owner s := by
  unfold owner
  rw [hslots, getElem?_retire]
  by_cases hs : previous.map UInt32.toNat = some s
  · simp only [if_pos hs]
    cases p.slots[s]? <;> rfl
  · simp only [if_neg hs]
    cases hread : p.slots[s]? with
    | none => rfl
    | some record =>
      have hlt := h.keyIndex record (List.mem_of_getElem? hread)
      simp only [Option.map_some, hkeyTable, List.getElem?_append_left hlt]

theorem Upserted.keyTable_append (hu : p.Upserted seq key payload vector p') :
    ∃ extra, p'.keyTable = p.keyTable ++ extra := by
  rw [hu.keyTable]
  split
  · exact ⟨[], (List.append_nil _).symm⟩
  · exact ⟨[key], rfl⟩

theorem Upserted.slotForKey (hu : p.Upserted seq key payload vector p') :
    p'.slotForKey = Function.update p.slotForKey key (some (.ofNat p.slots.length)) := by
  obtain ⟨i, -, hkeys, -⟩ := hu.keyIndex
  exact slotForKey_update hkeys

theorem Upserted.owner (hu : p.Upserted seq key payload vector p') (h : p.Rep) (s : ℕ) :
    p'.owner s = if s = p.slots.length then some key
      else if (p.slotForKey key).map UInt32.toNat = some s then none else p.owner s := by
  obtain ⟨i, hi, -, hslots⟩ := hu.keyIndex
  obtain ⟨extra, hextra⟩ := hu.keyTable_append
  split
  · rename_i heq
    refine owner_eq_some.2 ⟨⟨seq, false, i, payload⟩, ?_, rfl, hi⟩
    rw [hslots, heq, ← length_retire]
    exact List.getElem?_concat_length
  · rename_i hne
    refine owner_retire h ?_ hextra
    rw [hslots]
    by_cases hlt : s < p.slots.length
    · exact List.getElem?_append_left (by rwa [length_retire])
    · rw [List.getElem?_eq_none (by simp; omega), List.getElem?_eq_none (by simp; omega)]

theorem Rep.countP_retire (h : p.Rep) (key : Bytes) :
    (retire p.slots (p.slotForKey key)).countP SlotRecord.tombstone =
      p.slots.countP SlotRecord.tombstone + if (p.slotForKey key).isSome then 1 else 0 := by
  cases hprevious : p.slotForKey key with
  | none => rfl
  | some slot =>
    obtain ⟨record, hread, hclear, -⟩ := h.slot_clear hprevious
    exact Index.countP_retire hread hclear

/-- An upsert keeps the invariant. -/
theorem Upserted.rep (hu : p.Upserted seq key payload vector p') (h : p.Rep)
    (hroom : p.slots.length < 2 ^ 32) (hkey : p.KeyRoom key) :
    ({ p' with idempotency := window, highWater := seq } : Partition).Rep := by
  obtain ⟨i, hi, hkeys, hslots⟩ := hu.keyIndex
  obtain ⟨extra, hextra⟩ := hu.keyTable_append
  have hconfig : p'.config = p.config := by rw [hu.same]
  have hmetric : p'.metric = p.metric := by rw [hu.same]
  have hnew : (UInt32.ofNat p.slots.length).toNat = p.slots.length :=
    UInt32.toNat_ofNat_of_lt' hroom
  have hlen : p'.slots.length = p.slots.length + 1 := by simp [hslots]
  have hprevious (slot : Slot) (hs : p.slotForKey key = some slot) :
      slot.toNat < p.slots.length := h.slot_lt hs
  have hdistinct : p'.keyTable.Nodup := by
    rw [hu.keyTable]
    split
    · exact h.distinct
    · rename_i hnone
      have hnot : key ∉ p.keyTable := by
        rw [← h.keys_eq_none]
        simpa using hnone
      exact List.nodup_append.2 ⟨h.distinct, List.nodup_singleton key, fun a ha b hb heq =>
        hnot (List.mem_singleton.1 hb ▸ heq ▸ ha)⟩
  exact {
    config := by rw [hconfig]; exact h.config
    metricOf := by rw [hconfig, hmetric]; exact h.metricOf
    shaped := hu.shaped
    params := by rw [hu.params, h.params, hconfig]
    metric := by rw [hu.metric, h.metric, hmetric]
    dims := by rw [hu.dims, h.dims, hconfig]
    slots := by rw [hlen, hu.len, h.slots]
    distinct := hdistinct
    keyTable_le := by
      rw [hu.keyTable]
      split
      · exact h.keyTable_le
      · rename_i hnone
        have hlt : p.keyTable.length < 2 ^ 32 := by simpa [KeyRoom, hnone] using hkey
        rw [List.length_append]
        exact hlt
    keys := fun key' j => by
      show (∃ live, p'.keys key' = some (j, live)) ↔ p'.keyTable[j.toNat]? = some key'
      by_cases hk : key' = key
      · subst hk
        rw [hkeys, Function.update_self]
        constructor
        · rintro ⟨live, heq⟩
          cases heq
          exact hi
        · intro hj
          have hij : i.toNat = j.toNat := by
            obtain ⟨hlt, hat⟩ := List.getElem?_eq_some_iff.1 hi
            obtain ⟨hlt', hat'⟩ := List.getElem?_eq_some_iff.1 hj
            exact (hdistinct.getElem_inj_iff).1 (hat.trans hat'.symm)
          rw [UInt32.toNat_inj.1 hij]
          exact ⟨_, rfl⟩
      · rw [hkeys, Function.update_of_ne hk, h.keys key' j, hu.keyTable]
        split
        · exact Iff.rfl
        · exact (getElem?_append_of_ne hk).symm
    keyIndex := fun record hmem => by
      have hmem' : record.keyIndex ∈ p'.slots.map SlotRecord.keyIndex := List.mem_map_of_mem hmem
      rw [hslots, List.map_append, map_keyIndex_retire, List.mem_append] at hmem'
      rcases hmem' with hold | hlast
      · obtain ⟨record', hmem', heq⟩ := List.mem_map.1 hold
        rw [← heq, hextra, List.length_append]
        exact Nat.lt_add_right _ (h.keyIndex record' hmem')
      · rw [List.map_singleton, List.mem_singleton] at hlast
        rw [hlast]
        exact (List.getElem?_eq_some_iff.1 hi).1
    live := by
      have hfree : p.owner (UInt32.ofNat p.slots.length).toNat = none := by
        rw [hnew]
        exact owner_of_ge (le_refl _)
      have hreplaced := h.live.replace key hfree
      show Inverse p'.slotForKey fun slot => p'.owner slot.toNat
      rw [hu.slotForKey]
      have hslot (slot : Slot) : slot.toNat = p.slots.length ↔ slot = .ofNat p.slots.length := by
        rw [← UInt32.toNat_inj, hnew]
      simpa only [hu.owner h, hslot, map_toNat_eq_some] using hreplaced
    bits := fun s => by
      show testBit p'.index.tombstones s = retired p'.slots s
      rw [hu.bits, h.bits, ← retired_retire hprevious, hslots, retired_append rfl]
    count := by
      show p'.index.tombstoneCount = p'.slots.countP SlotRecord.tombstone
      rw [hu.count, h.count, hslots, List.countP_append, h.countP_retire]
      rfl }

theorem Upserted.versioned (hu : p.Upserted seq key payload vector p') (h : p.Versioned)
    (hseq : p.highWater ≤ seq) :
    ({ p' with idempotency := window, highWater := seq } : Partition).Versioned := by
  obtain ⟨i, -, -, hslots⟩ := hu.keyIndex
  have hversions : p'.slots.map SlotRecord.version = p.slots.map SlotRecord.version ++ [seq] := by
    simp [hslots, map_version_retire]
  constructor
  · rw [hversions, List.pairwise_append]
    refine ⟨h.ordered, List.pairwise_singleton _ _, fun a ha b hb => ?_⟩
    rw [List.mem_singleton.1 hb]
    exact (h.bounded a ha).trans hseq
  · intro version hmem
    rw [hversions, List.mem_append, List.mem_singleton] at hmem
    rcases hmem with hold | rfl
    · exact (h.bounded version hold).trans hseq
    · exact le_refl _

theorem Deleted.slotForKey (hd : p.Deleted key p') :
    p'.slotForKey = Function.update p.slotForKey key none := by
  funext k
  unfold Partition.slotForKey
  rw [hd.keys]
  by_cases hk : k = key
  · subst hk
    rw [Function.update_self, Function.update_self]
    cases p.keys k <;> rfl
  · rw [Function.update_of_ne hk, Function.update_of_ne hk]

theorem Deleted.keyTable (hd : p.Deleted key p') : p'.keyTable = p.keyTable := by rw [hd.same]

theorem Deleted.owner (hd : p.Deleted key p') (h : p.Rep) (s : ℕ) :
    p'.owner s =
      if (p.slotForKey key).map UInt32.toNat = some s then none else p.owner s :=
  owner_retire h (congrArg (·[s]?) hd.slots) (hd.keyTable.trans (List.append_nil _).symm)

/-- A delete keeps the invariant. -/
theorem Deleted.rep (hd : p.Deleted key p') (h : p.Rep) :
    ({ p' with idempotency := window, highWater := seq } : Partition).Rep := by
  have hconfig : p'.config = p.config := by rw [hd.same]
  have hmetric : p'.metric = p.metric := by rw [hd.same]
  have hkeyTable : p'.keyTable = p.keyTable := hd.keyTable
  have hprevious (slot : Slot) (hs : p.slotForKey key = some slot) :
      slot.toNat < p.slots.length := h.slot_lt hs
  exact {
    config := by rw [hconfig]; exact h.config
    metricOf := by rw [hconfig, hmetric]; exact h.metricOf
    shaped := hd.shaped
    params := by rw [hd.params, h.params, hconfig]
    metric := by rw [hd.metric, h.metric, hmetric]
    dims := by rw [Hnsw.dims, hd.vectors, hconfig]; exact h.dims
    slots := by rw [hd.slots, length_retire, hd.len, h.slots]
    distinct := hkeyTable ▸ h.distinct
    keyTable_le := hkeyTable ▸ h.keyTable_le
    keys := fun key' j => by
      show (∃ live, p'.keys key' = some (j, live)) ↔ p'.keyTable[j.toNat]? = some key'
      rw [hkeyTable, ← h.keys key' j, hd.keys]
      by_cases hk : key' = key
      · subst hk
        rw [Function.update_self]
        cases p.keys key' with
        | none => simp
        | some entry => simp [Prod.ext_iff]
      · rw [Function.update_of_ne hk]
    keyIndex := fun record hmem => by
      have hmem' : record.keyIndex ∈ p'.slots.map SlotRecord.keyIndex := List.mem_map_of_mem hmem
      rw [hd.slots, map_keyIndex_retire] at hmem'
      obtain ⟨record', hmem', heq⟩ := List.mem_map.1 hmem'
      rw [← heq, hkeyTable]
      exact h.keyIndex record' hmem'
    live := by
      show Inverse p'.slotForKey fun slot => p'.owner slot.toNat
      rw [hd.slotForKey]
      simpa only [hd.owner h, map_toNat_eq_some] using h.live.erase key
    bits := fun s => by
      show testBit p'.index.tombstones s = retired p'.slots s
      rw [hd.bits, h.bits, ← retired_retire hprevious, hd.slots]
    count := by
      show p'.index.tombstoneCount = p'.slots.countP SlotRecord.tombstone
      rw [hd.count, h.count, hd.slots, h.countP_retire] }

theorem Deleted.versioned (hd : p.Deleted key p') (h : p.Versioned) (hseq : p.highWater ≤ seq) :
    ({ p' with idempotency := window, highWater := seq } : Partition).Versioned := by
  have hversions : p'.slots.map SlotRecord.version = p.slots.map SlotRecord.version := by
    rw [hd.slots, map_version_retire]
  constructor
  · rw [hversions]
    exact h.ordered
  · intro version hmem
    rw [hversions] at hmem
    exact (h.bounded version hmem).trans hseq

end Applied

/-- Some position is left for the key of an entry. -/
def EntryRoom (p : Partition) (entry : Entry) : Prop :=
  match entry.operation with
  | .upsert key _ _ => p.KeyRoom key
  | .delete _ => True

/-- What an entry leaves. -/
inductive AppliedEntry (p : Partition) (entry : Entry) (p' : Partition) : Prop
  | upsert {key payload : Bytes} {vector : List F32} {q : Partition}
      (operation : entry.operation = .upsert key payload vector)
      (room : p.slots.length < 2 ^ 32) (upserted : p.Upserted entry.seq key payload vector q)
      (eq : p' = { q with
        idempotency := p.idempotency.record entry.opId entry.seq, highWater := entry.seq })
  | delete {key : Bytes} {q : Partition} (operation : entry.operation = .delete key)
      (deleted : p.Deleted key q)
      (eq : p' = { q with
        idempotency := p.idempotency.record entry.opId entry.seq, highWater := entry.seq })

theorem Rep.applied (h : p.Rep) {entry : Entry} (hroom : p.EntryRoom entry)
    (hok : p.apply entry = .ok p') : p.AppliedEntry entry p' := by
  unfold apply at hok
  cases hoperation : entry.operation with
  | upsert key payload vector =>
    simp only [hoperation] at hok
    obtain ⟨q, hq, hok⟩ := bind_eq_ok.1 hok
    cases hok
    have hupserted := h.upserted (by simpa [EntryRoom, hoperation] using hroom) hq
    have hslots : p.slots.length < 2 ^ 32 := by
      rw [h.slots]
      exact (h.takes hq).2.2
    refine .upsert hoperation hslots hupserted ?_
    have : q.idempotency = p.idempotency := by rw [hupserted.same]
    rw [this]
  | delete key =>
    simp only [hoperation] at hok
    obtain ⟨q, hq, hok⟩ := bind_eq_ok.1 hok
    cases hok
    have hdeleted := (h.returns_applyDelete key).of_ok hq
    refine .delete hoperation hdeleted ?_
    have : q.idempotency = p.idempotency := by rw [hdeleted.same]
    rw [this]

/-- An entry that is applied keeps the invariant. -/
theorem AppliedEntry.rep {entry : Entry} (ha : p.AppliedEntry entry p') (h : p.Rep)
    (hroom : p.EntryRoom entry) : p'.Rep := by
  cases ha with
  | upsert hoperation hslots hupserted heq =>
    rw [heq]
    exact hupserted.rep h hslots (by simpa [EntryRoom, hoperation] using hroom)
  | delete hoperation hdeleted heq =>
    rw [heq]
    exact hdeleted.rep h

theorem AppliedEntry.versioned {entry : Entry} (ha : p.AppliedEntry entry p') (h : p.Versioned)
    (hseq : p.highWater ≤ entry.seq) : p'.Versioned := by
  cases ha with
  | upsert hoperation hslots hupserted heq =>
    rw [heq]
    exact hupserted.versioned h hseq
  | delete hoperation hdeleted heq =>
    rw [heq]
    exact hdeleted.versioned h hseq

theorem AppliedEntry.topped {entry : Entry} (ha : p.AppliedEntry entry p') (h : p.index.Topped) :
    p'.index.Topped := by
  cases ha with
  | upsert hoperation hslots hupserted heq =>
    rw [heq]
    exact hupserted.topped h
  | delete hoperation hdeleted heq =>
    rw [heq]
    exact hdeleted.topped h

end Partition

end Index

end DistrHnsw
