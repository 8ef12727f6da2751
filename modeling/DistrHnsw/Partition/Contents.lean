import DistrHnsw.Partition.Compacted
import DistrHnsw.Partition.History
import DistrHnsw.Partition.Window

/-!
# The contents of a partition

A partition is a list of keys, each with a row, a payload and a version, in the order of their slots;
a log changes it entry by entry.  A partition follows a log when it serves what the log leaves and
remembers its last ids; applying the next entry keeps that, and so does copying the live slots into a
rebuilt graph.
-/

namespace DistrHnsw

namespace Index

open Wal (Entry Operation)

/-- What a key stands for: the stored row, the payload, and the number of the entry that wrote them. -/
@[ext]
structure Value where
  row : List F32
  payload : Bytes
  version : ℕ
  deriving DecidableEq

/-- Live keys in the order of their slots. -/
abbrev Contents := List (Bytes × Value)

namespace Contents

def without (c : Contents) (key : Bytes) : Contents := c.filter fun entry => decide (entry.1 ≠ key)

/-- The contents after an entry; a key that is written again moves to the end. -/
def after (metric : Metric) (c : Contents) (e : Entry) : Contents :=
  match e.operation with
  | .upsert key payload vector =>
    c.without key ++ [(key, ⟨FlatVectors.stored vector metric, payload, e.seq⟩)]
  | .delete key => c.without key

/-- The contents that a log leaves. -/
def replay (metric : Metric) (base : Contents) (es : List Entry) : Contents :=
  es.foldl (after metric) base

theorem replay_concat {metric : Metric} {base : Contents} {es : List Entry} {e : Entry} :
    replay metric base (es ++ [e]) = after metric (replay metric base es) e := by
  simp [replay]

end Contents

/-- What a partition held before its log, and in how many slots. -/
structure Origin where
  contents : Contents
  count : ℕ

namespace Partition

variable {p p' q : Partition}

/-- The key and the value in a live slot. -/
def entryAt (p : Partition) (s : ℕ) : Option (Bytes × Value) := do
  let key ← p.owner s
  let record ← p.slots[s]?
  let row ← p.index.vectors.get s
  return (key, ⟨row, record.payload, record.version⟩)

def contents (p : Partition) : Contents := (List.range p.slots.length).filterMap p.entryAt

theorem Rep.rows (h : p.Rep) : p.index.vectors.len = p.slots.length := by
  rw [h.slots]
  exact h.shaped.vectors

theorem owner_of_entryAt {s : ℕ} {entry : Bytes × Value} (h : p.entryAt s = some entry) :
    p.owner s = some entry.1 := by
  obtain ⟨key, howner, h⟩ := Option.bind_eq_some_iff.1 h
  obtain ⟨record, -, h⟩ := Option.bind_eq_some_iff.1 h
  obtain ⟨row, -, h⟩ := Option.bind_eq_some_iff.1 h
  cases h
  exact howner

/-- The contents are read from the records, the key table and the rows. -/
theorem contents_congr (hslots : p'.slots = p.slots) (htable : p'.keyTable = p.keyTable)
    (hrows : p'.index.vectors.rows = p.index.vectors.rows) : p'.contents = p.contents := by
  have hentry : p'.entryAt = p.entryAt := by
    funext s
    rw [entryAt, entryAt, owner, owner, hslots, htable, FlatVectors.get, FlatVectors.get, hrows]
  rw [contents, contents, hentry, hslots]

/-- The owner of a slot is the key that points to it. -/
theorem Rep.owner_eq_some_iff (h : p.Rep) {s : ℕ} {key owner : Bytes}
    (howner : p.owner s = some owner) :
    (p.slotForKey key).map UInt32.toNat = some s ↔ owner = key := by
  have hlt : s < p.slots.length := by
    obtain ⟨record, hread, -⟩ := Partition.owner_eq_some.1 howner
    exact (List.getElem?_eq_some_iff.1 hread).1
  have hslot : (UInt32.ofNat s).toNat = s :=
    UInt32.toNat_ofNat_of_lt' (hlt.trans_le h.slots_le)
  rw [← hslot, map_toNat_eq_some, h.live key]
  dsimp only
  rw [hslot, howner, Option.some_inj]

/-! ## An entry -/

section Entry

variable {seq : ℕ} {key payload : Bytes} {vector : List F32}

/-- A slot that the entry does not fill keeps what it holds, unless the key gives it up. -/
theorem Rep.entryAt_retire (h : p.Rep) {s : ℕ}
    (howner : p'.owner s =
      if (p.slotForKey key).map UInt32.toNat = some s then none else p.owner s)
    (hslots : p'.slots[s]? = (retire p.slots (p.slotForKey key))[s]?)
    (hrows : p'.index.vectors.get s = p.index.vectors.get s) :
    p'.entryAt s = (p.entryAt s).filter fun entry => decide (entry.1 ≠ key) := by
  unfold entryAt
  rw [howner, hslots, hrows, getElem?_retire]
  cases hold : p.owner s with
  | none => simp
  | some owner =>
    have hiff : (p.slotForKey key).map UInt32.toNat = some s ↔ owner = key :=
      h.owner_eq_some_iff hold
    by_cases hkey : owner = key
    · rw [if_pos (hiff.2 hkey)]
      cases p.slots[s]? <;> cases p.index.vectors.get s <;> simp [hkey, Option.filter]
    · rw [if_neg (mt hiff.1 hkey)]
      cases p.slots[s]? <;> cases p.index.vectors.get s <;>
        simp [hkey, mt hiff.1 hkey, Option.filter]

/-- The contents of the old slots. -/
theorem contents_retire
    (hentry : ∀ s < p.slots.length,
      p'.entryAt s = (p.entryAt s).filter fun entry => decide (entry.1 ≠ key)) :
    (List.range p.slots.length).filterMap p'.entryAt = p.contents.without key := by
  rw [Contents.without, contents, List.filter_filterMap]
  exact List.filterMap_congr fun s hs => hentry s (List.mem_range.1 hs)

theorem Upserted.entryAt_new (hu : p.Upserted seq key payload vector p') (h : p.Rep) :
    p'.entryAt p.slots.length =
      some (key, ⟨FlatVectors.stored vector p.metric, payload, seq⟩) := by
  obtain ⟨i, -, -, hslots⟩ := hu.keyIndex
  have hrecord : p'.slots[p.slots.length]? = some ⟨seq, false, i, payload⟩ := by
    have hlen : p.slots.length = (retire p.slots (p.slotForKey key)).length := length_retire.symm
    rw [hslots, hlen]
    exact List.getElem?_concat_length
  have hrow : p'.index.vectors.get p.slots.length = some (FlatVectors.stored vector p.metric) := by
    rw [FlatVectors.get, hu.rows, ← h.rows, h.metric]
    exact List.getElem?_concat_length
  rw [entryAt, hu.owner h, if_pos rfl, hrecord, hrow]
  rfl

theorem Upserted.contents (hu : p.Upserted seq key payload vector p') (h : p.Rep) : p'.contents =
    p.contents.without key ++ [(key, ⟨FlatVectors.stored vector p.metric, payload, seq⟩)] := by
  obtain ⟨i, -, -, hslots⟩ := hu.keyIndex
  have hlen : p'.slots.length = p.slots.length + 1 := by simp [hslots]
  have hold (s : ℕ) (hs : s < p.slots.length) :
      p'.entryAt s = (p.entryAt s).filter fun entry => decide (entry.1 ≠ key) := by
    refine h.entryAt_retire ?_ ?_ ?_
    · rw [hu.owner h, if_neg hs.ne]
    · rw [hslots]
      exact List.getElem?_append_left (by rwa [length_retire])
    · rw [FlatVectors.get, FlatVectors.get, hu.rows]
      rw [← h.rows] at hs
      exact List.getElem?_append_left hs
  rw [Partition.contents, hlen, List.range_succ, List.filterMap_append, contents_retire hold]
  simp [hu.entryAt_new h]

theorem Deleted.contents (hd : p.Deleted key p') (h : p.Rep) :
    p'.contents = p.contents.without key := by
  have hlen : p'.slots.length = p.slots.length := by rw [hd.slots, length_retire]
  rw [Partition.contents, hlen]
  refine contents_retire fun s _ => h.entryAt_retire (hd.owner h s) ?_ ?_
  · rw [hd.slots]
  · rw [hd.vectors]

/-- An entry changes the contents as it says. -/
theorem AppliedEntry.contents {e : Entry} (ha : p.AppliedEntry e p') (h : p.Rep) :
    p'.contents = Contents.after p.metric p.contents e := by
  cases ha with
  | upsert hoperation hslots hupserted heq =>
    rw [heq, Contents.after, hoperation]
    exact hupserted.contents h
  | delete hoperation hdeleted heq =>
    rw [heq, Contents.after, hoperation]
    exact hdeleted.contents h

end Entry

/-! ## Sizes -/

/-- At most `n` slots and keys, whose keys and payloads fit the fields of a snapshot. -/
structure Sized (n : ℕ) (p : Partition) : Prop where
  slots : p.slots.length ≤ n
  keyTable : p.keyTable.length ≤ n
  key (key : Bytes) : key ∈ p.keyTable → 0 < key.length ∧ key.length ≤ 65535
  payload (record : SlotRecord) : record ∈ p.slots → record.payload.length ≤ Wal.maxPayloadLen

theorem Sized.congr {n : ℕ} (h : p.Sized n) (hslots : p'.slots = p.slots)
    (htable : p'.keyTable = p.keyTable) : p'.Sized n := by
  refine ⟨?_, ?_, ?_, ?_⟩
  · rw [hslots]
    exact h.slots
  · rw [htable]
    exact h.keyTable
  · rw [htable]
    exact h.key
  · rw [hslots]
    exact h.payload

theorem payload_retire {slots : List SlotRecord} {previous : Option Slot} {record : SlotRecord}
    (h : record ∈ retire slots previous) : ∃ old ∈ slots, record.payload = old.payload := by
  obtain ⟨s, hs⟩ := List.mem_iff_getElem?.1 h
  rw [getElem?_retire] at hs
  obtain ⟨old, hold, rfl⟩ := Option.map_eq_some_iff.1 hs
  refine ⟨old, List.mem_of_getElem? hold, ?_⟩
  split <;> rfl

theorem AppliedEntry.sized {e : Entry} {n : ℕ} (ha : p.AppliedEntry e p') (h : p.Sized n)
    (hvalid : e.Valid) : p'.Sized (n + 1) := by
  cases ha with
  | @upsert key payload vector q hoperation hroom hupserted heq =>
    have hfits := hvalid.fits
    rw [hoperation] at hfits
    obtain ⟨⟨hpos, hkey⟩, hpayload, -⟩ := hfits
    obtain ⟨i, -, -, hslots⟩ := hupserted.keyIndex
    obtain rfl : p' = _ := heq
    refine ⟨?_, ?_, fun k hk => ?_, fun record hrecord => ?_⟩
    · show q.slots.length ≤ n + 1
      rw [hslots, List.length_append, length_retire, List.length_singleton]
      exact Nat.succ_le_succ h.slots
    · show q.keyTable.length ≤ n + 1
      rw [hupserted.keyTable]
      have hold := h.keyTable
      split
      · omega
      · rw [List.length_append, List.length_singleton]
        omega
    · have hk : k ∈ q.keyTable := hk
      rw [hupserted.keyTable] at hk
      split at hk
      · exact h.key k hk
      · rcases List.mem_append.1 hk with hk | hk
        · exact h.key k hk
        · rw [List.mem_singleton.1 hk]
          unfold Wal.maxKeyLen at hkey
          exact ⟨hpos, by omega⟩
    · have hrecord : record ∈ q.slots := hrecord
      rw [hslots] at hrecord
      rcases List.mem_append.1 hrecord with hrecord | hrecord
      · obtain ⟨old, hold, hsame⟩ := payload_retire hrecord
        rw [hsame]
        exact h.payload old hold
      · rw [List.mem_singleton.1 hrecord]
        exact hpayload
  | @delete key q hoperation hdeleted heq =>
    obtain rfl : p' = _ := heq
    refine ⟨?_, ?_, fun k hk => ?_, fun record hrecord => ?_⟩
    · show q.slots.length ≤ n + 1
      rw [hdeleted.slots, length_retire]
      exact Nat.le_succ_of_le h.slots
    · show q.keyTable.length ≤ n + 1
      rw [hdeleted.keyTable]
      exact Nat.le_succ_of_le h.keyTable
    · have hk : k ∈ q.keyTable := hk
      rw [hdeleted.keyTable] at hk
      exact h.key k hk
    · have hrecord : record ∈ q.slots := hrecord
      rw [hdeleted.slots] at hrecord
      obtain ⟨old, hold, hsame⟩ := payload_retire hrecord
      rw [hsame]
      exact h.payload old hold

/-! ## Following a log -/

/-- The partition serves what the log leaves and remembers its last ids. -/
structure Refines (o : Origin) (es : List Entry) (p : Partition) : Prop where
  highWater : p.highWater = es.length
  contents : p.contents = Contents.replay p.metric o.contents es
  window : p.idempotency.Remembers (recent p.config.idempotencyWindow es)
  capacity : p.idempotency.capacity = p.config.idempotencyWindow

/-- A sound partition that refines a log. -/
structure Follows (o : Origin) (es : List Entry) (p : Partition) : Prop extends p.Refines o es where
  rep : p.Rep
  versioned : p.Versioned
  topped : p.index.Topped
  sized : p.Sized (o.count + es.length)

/-- A vector that a partition of this width takes in. -/
def Acceptable (dims : ℕ) : Operation → Prop
  | .upsert _ _ vector => vector.length = dims ∧ ∀ value ∈ vector, value.isFinite = true
  | .delete _ => True

section Follows

variable {o : Origin} {es : List Entry} {e : Entry}

/-- The next entry of the log. -/
structure Next (o : Origin) (es : List Entry) (p : Partition) (e : Entry) : Prop where
  valid : e.Valid
  seq : e.seq = es.length + 1
  fresh : Fresh p.config.idempotencyWindow es e.opId
  room : o.count + es.length < 2 ^ 32

theorem Follows.fresh_iff (h : p.Follows o es) {id : OpId} :
    p.idempotency.get id = none ↔ Fresh p.config.idempotencyWindow es id := by
  rw [h.window.get_eq_none, map_fst_recent]
  rfl

theorem Follows.window_pos (h : p.Follows o es) : 0 < p.config.idempotencyWindow := by
  obtain ⟨-, -, -, -, -, -, -, hwindow⟩ := PartitionConfig.validate_eq_ok h.rep.config
  exact hwindow

theorem Follows.entryRoom (h : p.Follows o es) (hnext : p.Next o es e) : p.EntryRoom e := by
  unfold EntryRoom
  split
  · exact .inr (h.sized.keyTable.trans_lt hnext.room)
  · trivial

theorem Follows.of_apply (h : p.Follows o es) (hnext : p.Next o es e) (hok : p.apply e = .ok p') :
    p'.Follows o (es ++ [e]) := by
  have hroom := h.entryRoom hnext
  have ha := h.rep.applied hroom hok
  have hfresh := h.fresh_iff.2 hnext.fresh
  obtain ⟨hmark, hconfig, -, -⟩ := same_of_apply hok
  have hmetric : p'.metric = p.metric := by rw [eq_of_apply hok]
  have hwindow : p'.idempotency = p.idempotency.record e.opId e.seq := by
    rw [eq_of_apply hok]
  refine ⟨⟨?_, ?_, ?_, ?_⟩, ha.rep h.rep hroom, ha.versioned h.versioned ?_, ha.topped h.topped, ?_⟩
  · rw [hmark, hnext.seq, List.length_append, List.length_singleton]
  · rw [ha.contents h.rep, h.contents, hmetric, Contents.replay_concat]
  · rw [hwindow, hconfig, ← rtake_recent h.window_pos, ← h.capacity]
    exact h.capacity ▸ h.window.record hfresh e.seq
  · rw [hwindow, hconfig, IdempotencyWindow.capacity_record, h.capacity]
  · rw [h.highWater, hnext.seq]
    exact Nat.le_succ _
  · rw [List.length_append, List.length_singleton, ← Nat.add_assoc]
    exact ha.sized h.sized hnext.valid

/-- The next entry is applied when the width of its vector is right. -/
theorem Follows.exists_apply (h : p.Follows o es) (hnext : p.Next o es e)
    (haccept : Acceptable p.config.dims e.operation) : ∃ p', p.apply e = .ok p' := by
  unfold apply
  cases hoperation : e.operation with
  | upsert key payload vector =>
    rw [hoperation] at haccept
    have hlen : p.index.len < 2 ^ 32 := by
      rw [← h.rep.slots]
      exact h.sized.slots.trans_lt hnext.room
    obtain ⟨q, hq⟩ := h.rep.exists_applyUpsert h.topped
      ⟨haccept.1.trans h.rep.dims.symm, haccept.2, hlen⟩ e.seq key payload
    dsimp only
    rw [hq, ok_bind]
    exact ⟨_, rfl⟩
  | delete key =>
    obtain ⟨q, hq, -⟩ := h.rep.returns_applyDelete key
    dsimp only
    rw [hq, ok_bind]
    exact ⟨_, rfl⟩

end Follows

/-! ## Where a partition starts from -/

/-- Before any history. -/
theorem follows_empty {config : PartitionConfig} {metric : Metric} (hvalid : config.validate = .ok ())
    (hmetric : config.metricOf = .ok metric) : (empty config metric).Follows ⟨[], 0⟩ [] := by
  obtain ⟨-, -, -, -, -, -, -, hwindow⟩ := PartitionConfig.validate_eq_ok hvalid
  refine ⟨⟨rfl, rfl, ?_, Nat.max_eq_left hwindow⟩, rep_empty hvalid hmetric, versioned_empty,
    topped_new hvalid, le_refl 0, le_refl 0, fun key hkey => ?_, fun record hrecord => ?_⟩
  · rw [recent, List.rtake_nil]
    exact IdempotencyWindow.remembers_new _
  · cases hkey
  · cases hrecord

section Staged

variable {o : Origin} {es : List Entry} {input : CompactionInput} {g : Hnsw} {levels : List UInt8}

/-- Only live slots have contents. -/
theorem contents_eq_liveSlots : p.contents = (liveSlots p.slots).filterMap p.entryAt := by
  have hrange : List.range p.slots.length = p.slots.zipIdx.map Prod.snd := by
    rw [List.zipIdx_map_snd, List.range_eq_range']
  rw [contents, hrange, liveSlots, List.filterMap_map, List.filterMap_map, List.filterMap_filter]
  refine List.filterMap_congr fun entry hentry => ?_
  have hread : p.slots[entry.2]? = some entry.1 := by
    simpa using List.mem_zipIdx_iff_getElem?.1 hentry
  cases htombstone : entry.1.tombstone with
  | false => simp
  | true =>
    have hnone : p.owner entry.2 = none := by
      rw [owner, hread]
      simp [htombstone]
    simp [entryAt, hnone]

/-- A slot of the copy holds what the slot that it was copied from held. -/
theorem Captured.entryAt (hc : q.Captured input) (hvectors : g.vectors = input.vectors) {i s : ℕ}
    (hlive : (liveSlots q.slots)[i]? = some s) :
    (p.staged (build input g)).entryAt i = q.entryAt s := by
  have hslots : (p.staged (build input g)).slots[i]? = q.slots[s]? := by
    obtain ⟨record, hrecord, -⟩ := mem_liveSlots.1 (List.mem_of_getElem? hlive)
    rw [hrecord]
    exact hc.slot_eq.2 ⟨s, hlive, hrecord⟩
  have howner : (p.staged (build input g)).owner i = q.owner s := by
    have htable : (p.staged (build input g)).keyTable = q.keyTable := hc.keyTable
    rw [owner, owner, hslots, htable]
  have hrow : (p.staged (build input g)).index.vectors.get i = q.index.vectors.get s := by
    have hat := congrArg (·[i]?) hc.rows
    simp only [List.getElem?_map, hlive, Option.map_some] at hat
    show g.vectors.get i = _
    rw [hvectors, FlatVectors.get, FlatVectors.get]
    cases hread : input.vectors.rows[i]? with
    | none =>
      rw [hread] at hat
      cases hat
    | some row =>
      rw [hread] at hat
      exact Option.some.inj hat
  rw [Partition.entryAt, Partition.entryAt, howner, hslots, hrow]

/-- The staged state has the contents that were captured, in the same order. -/
theorem Captured.contents (hc : q.Captured input) (hvectors : g.vectors = input.vectors) :
    (p.staged (build input g)).contents = q.contents := by
  have hlen : (p.staged (build input g)).slots.length = (liveSlots q.slots).length := hc.length_slots
  have hmap : (List.range (liveSlots q.slots).length).map (p.staged (build input g)).entryAt =
      (liveSlots q.slots).map q.entryAt := by
    apply List.ext_getElem?
    intro i
    rw [List.getElem?_map, List.getElem?_map]
    by_cases hi : i < (liveSlots q.slots).length
    · have hat := List.getElem?_eq_getElem hi
      rw [List.getElem?_range hi, hat, Option.map_some, Option.map_some, hc.entryAt hvectors hat]
    · rw [List.getElem?_eq_none (Nat.le_of_not_lt hi), List.getElem?_eq_none (by simpa using hi)]
      rfl
  have hjoin {f : ℕ → Option (Bytes × Value)} {l : List ℕ} :
      l.filterMap f = (l.map f).filterMap id := by rw [List.filterMap_map, Function.id_comp]
  rw [Partition.contents, hlen, hjoin, hmap, ← hjoin, contents_eq_liveSlots]

theorem Captured.sized {n : ℕ} (hc : q.Captured input) (hq : q.Sized n) :
    (p.staged (build input g)).Sized n where
  slots := by
    show input.slots.length ≤ n
    rw [hc.length_slots, length_liveSlots]
    exact (List.length_filter_le _ _).trans hq.slots
  keyTable := by
    show input.keyTable.length ≤ n
    rw [hc.keyTable]
    exact hq.keyTable
  key key hkey := by
    have hkey : key ∈ input.keyTable := hkey
    rw [hc.keyTable] at hkey
    exact hq.key key hkey
  payload record hrecord := hq.payload record (hc.live_of_mem hrecord).2

/-- The staged state follows the log up to the rebuild point. -/
theorem Captured.follows (hc : q.Captured input) (hq : q.Follows o es) (hp : p.Rep)
    (hsame : SameConfig p q)
    (hbuilt : BuiltOver ⟨input.metric, input.vectors, input.params⟩ levels g) :
    (p.staged (build input g)).Follows o es := by
  have hwindow : p.config.idempotencyWindow = q.config.idempotencyWindow := by rw [hsame.config]
  have hids : (p.staged (build input g)).idempotency =
      .ofEntries q.config.idempotencyWindow (recent q.config.idempotencyWindow es) := by
    show IdempotencyWindow.ofEntries p.config.idempotencyWindow input.idempotency = _
    rw [hwindow, hc.idempotency, hq.window.entries]
  have hmax : max q.config.idempotencyWindow 1 = q.config.idempotencyWindow :=
    Nat.max_eq_left hq.window_pos
  have hfit : (recent q.config.idempotencyWindow es).length ≤ max q.config.idempotencyWindow 1 := by
    rw [length_recent, hmax]
    exact Nat.min_le_right _ _
  obtain ⟨hremembers, hcapacity⟩ := IdempotencyWindow.remembers_ofEntries hq.window.distinct hfit
  refine ⟨⟨?_, ?_, ?_, ?_⟩, hc.rep hq.rep hp hsame hbuilt, hc.versioned hq.versioned, hbuilt.topped,
    hc.sized hq.sized⟩
  · exact hc.rebuildPoint.trans hq.highWater
  · show _ = Contents.replay p.metric o.contents es
    rw [hc.contents hbuilt.vectors, hq.contents, hsame.metric]
  · show (p.staged (build input g)).idempotency.Remembers (recent p.config.idempotencyWindow es)
    rw [hids, hwindow]
    exact hremembers
  · show (p.staged (build input g)).idempotency.capacity = p.config.idempotencyWindow
    rw [hids, hcapacity, hmax, hwindow]

end Staged

end Partition

end Index

end DistrHnsw
