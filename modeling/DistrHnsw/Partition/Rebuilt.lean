import DistrHnsw.Index.Loaded
import DistrHnsw.Partition.Recovery
import DistrHnsw.Partition.Rep

/-!
# What recovery rebuilds

The structural checks of a snapshot go from keys to slots.  What they leave open is that the slots
find their way back: that every live slot is the live slot of the key it names.  A snapshot of which
this holds is rebuilt as a state that keeps the representation invariant, and so is the log behind it.
-/

namespace DistrHnsw

namespace Index

open Wal (Entry)

/-! ## What the structural checks leave open -/

/-- No two keys are equal, as many keys have a slot as slots are live, and no bit is set behind the
last slot. -/
structure SnapshotInput.Exclusive (input : SnapshotInput) : Prop where
  distinct : (input.keys.map Prod.fst).Nodup
  owned : (input.keys.filter fun key => decide (key.2 ≠ noSlot)).length =
    (input.slots.filter fun record => !record.tombstone).length
  clear (s : ℕ) : input.slots.length ≤ s → testBit input.graph.tombstones s = false

/-- The versions of the slots are in order and covered by the mark. -/
structure SnapshotInput.Sequenced (input : SnapshotInput) : Prop where
  ordered : (input.slots.map SlotRecord.version).Pairwise (· ≤ ·)
  bounded (version : ℕ) : version ∈ input.slots.map SlotRecord.version → version ≤ input.highWater

section Owners

variable {g : Hnsw} {keys : List (Bytes × Slot)} {slots : List SlotRecord}

/-- The slots that keys point to. -/
def pointed (keys : List (Bytes × Slot)) : List ℕ :=
  (keys.filter fun key => decide (key.2 ≠ noSlot)).map fun key => key.2.toNat

/-- The slots that are not tombstoned. -/
def liveSlots (slots : List SlotRecord) : List ℕ :=
  (slots.zipIdx.filter fun entry => !entry.1.tombstone).map Prod.snd

theorem length_liveSlots :
    (liveSlots slots).length = (slots.filter fun record => !record.tombstone).length := by
  have hfilter : slots.filter (fun record => !record.tombstone) =
      (slots.zipIdx.filter fun entry => !entry.1.tombstone).map Prod.fst := by
    conv_lhs => rw [← List.zipIdx_map_fst 0 slots, List.filter_map]
    rfl
  rw [hfilter, liveSlots, List.length_map, List.length_map]

theorem mem_liveSlots {s : ℕ} : s ∈ liveSlots slots ↔
    ∃ record, slots[s]? = some record ∧ record.tombstone = false := by
  simp [liveSlots, List.mem_zipIdx_iff_getElem?]

theorem nodup_liveSlots : (liveSlots slots).Nodup := by
  have hpositions : (slots.zipIdx.map Prod.snd).Nodup := by
    rw [List.zipIdx_map_snd]
    exact List.nodup_range'
  exact hpositions.sublist ((List.filter_sublist).map Prod.snd)

theorem mem_pointed {s : ℕ} : s ∈ pointed keys ↔
    ∃ (i : ℕ) (key : Bytes) (slot : Slot), keys[i]? = some (key, slot) ∧ slot ≠ noSlot ∧
      slot.toNat = s := by
  simp only [pointed, List.mem_map, List.mem_filter, decide_eq_true_eq, Prod.exists]
  constructor
  · rintro ⟨key, slot, ⟨hmem, hne⟩, rfl⟩
    obtain ⟨i, hi⟩ := List.mem_iff_getElem?.1 hmem
    exact ⟨i, key, slot, hi, hne, rfl⟩
  · rintro ⟨i, key, slot, hi, hne, rfl⟩
    exact ⟨key, slot, ⟨List.mem_of_getElem? hi, hne⟩, rfl⟩

/-- Two keys that point to a slot would both be the one it names. -/
theorem Consistent.nodup_pointed (h : Consistent g keys slots) : (pointed keys).Nodup := by
  have hpairs : keys.Pairwise fun a b => a.2 ≠ noSlot → b.2 ≠ noSlot → a.2.toNat ≠ b.2.toNat := by
    refine List.pairwise_iff_getElem.2 fun i j hi hj hij ha hb heq => ?_
    obtain ⟨record, hread, -, howner⟩ := h.live (List.getElem?_eq_getElem hi) ha
    obtain ⟨record', hread', -, howner'⟩ := h.live (List.getElem?_eq_getElem hj) hb
    simp only [List.get_eq_getElem] at heq hread hread'
    rw [heq] at hread
    cases hread.symm.trans hread'
    omega
  refine List.pairwise_map.2 ((hpairs.filter _).imp_of_mem fun {a b} ha hb hne => ?_)
  exact hne (by simpa using (List.mem_filter.1 ha).2) (by simpa using (List.mem_filter.1 hb).2)

theorem Consistent.pointed_subset (h : Consistent g keys slots) : pointed keys ⊆ liveSlots slots := by
  intro s hs
  obtain ⟨i, key, slot, hi, hne, rfl⟩ := mem_pointed.1 hs
  obtain ⟨record, hread, hlive, -⟩ := h.live hi hne
  exact mem_liveSlots.2 ⟨record, hread, hlive⟩

/-- As many keys have a slot as slots are live exactly when every live slot is that of the key it
names. -/
theorem Consistent.owned_iff (h : Consistent g keys slots) :
    (keys.filter fun key => decide (key.2 ≠ noSlot)).length =
        (slots.filter fun record => !record.tombstone).length ↔
      ∀ (s : ℕ) (record : SlotRecord), slots[s]? = some record → record.tombstone = false →
        ∃ key slot, keys[record.keyIndex.toNat]? = some (key, slot) ∧ slot ≠ noSlot ∧
          slot.toNat = s := by
  have hsub := h.nodup_pointed.subperm h.pointed_subset
  have hlen : (pointed keys).length = (keys.filter fun key => decide (key.2 ≠ noSlot)).length :=
    List.length_map _
  rw [← hlen, ← length_liveSlots]
  constructor
  · intro heq s record hread hlive
    have hmem : s ∈ pointed keys :=
      (hsub.perm_of_length_le heq.ge).mem_iff.2 (mem_liveSlots.2 ⟨record, hread, hlive⟩)
    obtain ⟨i, key, slot, hi, hne, rfl⟩ := mem_pointed.1 hmem
    obtain ⟨record', hread', -, howner⟩ := h.live hi hne
    cases hread.symm.trans hread'
    exact ⟨key, slot, by rwa [howner], hne, rfl⟩
  · intro hall
    refine Nat.le_antisymm hsub.length_le (nodup_liveSlots.subperm fun s hs => ?_).length_le
    obtain ⟨record, hread, hlive⟩ := mem_liveSlots.1 hs
    obtain ⟨key, slot, hkey, hne, heq⟩ := hall s record hread hlive
    exact mem_pointed.2 ⟨_, key, slot, hkey, hne, heq⟩

end Owners

/-! ## The state of a snapshot -/

section Keys

variable {keys : List (Bytes × Slot)} {key : Bytes} {i : UInt32} {live : Option Slot}

/-- The live slot that a file says a key has. -/
def liveSlot (slot : Slot) : Option Slot := if slot = noSlot then none else some slot

theorem liveSlot_eq_some {raw slot : Slot} : liveSlot raw = some slot ↔ raw ≠ noSlot ∧ raw = slot := by
  unfold liveSlot
  split <;> simp [*]

theorem keysOf_append (last : Bytes × Slot) : (Partition.keysOf (keys ++ [last])).2 =
    Function.update (Partition.keysOf keys).2 last.1
      (some (.ofNat keys.length, liveSlot last.2)) := by
  simp [Partition.keysOf, enumerate, List.zipIdx_append, liveSlot]

/-- Distinct keys are found at their positions. -/
theorem keysOf_eq_some (hnodup : (keys.map Prod.fst).Nodup) (hlen : keys.length ≤ 2 ^ 32) :
    (Partition.keysOf keys).2 key = some (i, live) ↔
      ∃ slot, keys[i.toNat]? = some (key, slot) ∧ live = liveSlot slot := by
  induction keys using List.reverseRecOn with
  | nil => simp [Partition.keysOf, enumerate]
  | append_singleton keys last ih =>
    obtain ⟨lastKey, lastSlot⟩ := last
    rw [List.map_append, List.nodup_append] at hnodup
    rw [List.length_append] at hlen
    have hlast (slot : Slot) : (lastKey, slot) ∉ keys := fun hmem =>
      hnodup.2.2 _ (List.mem_map_of_mem hmem) _ (List.mem_singleton_self _) rfl
    have hposition : (UInt32.ofNat keys.length).toNat = keys.length :=
      UInt32.toNat_ofNat_of_lt' (Nat.lt_of_succ_le hlen)
    rw [keysOf_append]
    by_cases hk : key = lastKey
    · subst hk
      rw [Function.update_self]
      constructor
      · intro heq
        cases heq
        refine ⟨lastSlot, ?_, rfl⟩
        rw [hposition]
        exact List.getElem?_concat_length
      · rintro ⟨slot, hi, rfl⟩
        have hge : keys.length ≤ i.toNat := by
          by_contra hlt
          rw [List.getElem?_append_left (Nat.lt_of_not_le hlt)] at hi
          exact hlast slot (List.mem_of_getElem? hi)
        have hlt := (List.getElem?_eq_some_iff.1 hi).1
        rw [List.length_append, List.length_singleton] at hlt
        have heq : i.toNat = keys.length := by omega
        rw [heq, List.getElem?_concat_length] at hi
        cases hi
        rw [← heq, UInt32.ofNat_toNat]
    · rw [Function.update_of_ne hk, ih hnodup.1 (Nat.le_of_succ_le hlen)]
      have hne (slot : Slot) : (key, slot) ≠ (lastKey, lastSlot) :=
        fun heq => hk (congrArg Prod.fst heq)
      simp only [Partition.getElem?_append_of_ne (hne _)]

theorem keysOf_eq_none (hnone : (Partition.keysOf keys).2 key = none) : key ∉ keys.map Prod.fst := by
  induction keys using List.reverseRecOn with
  | nil => simp
  | append_singleton keys last ih =>
    rw [keysOf_append] at hnone
    by_cases hk : key = last.1
    · subst hk
      simp at hnone
    · rw [Function.update_of_ne hk] at hnone
      simpa [hk] using ih hnone

end Keys

namespace Partition

variable {p p' : Partition} {config : PartitionConfig} {metric : Metric} {s : LoadedSnapshot}

/-- A state that is rebuilt from a snapshot whose slots find their way back. -/
theorem rep_ofSnapshot (hvalid : config.validate = .ok ()) (hmetric : config.metricOf = .ok metric)
    (hf : s.Formed) (hc : s.Countable) (he : s.Exclusive) (hok : ofSnapshot config metric s = .ok p) :
    p.Rep := by
  unfold ofSnapshot at hok
  split at hok
  · cases hok
  rename_i hagree
  split at hok
  · cases hok
  rename_i hparams
  split at hok
  · cases hok
  rename_i index hindex
  obtain ⟨hdims, hmetrics⟩ := not_or.1 hagree
  rw [not_not] at hdims hmetrics hparams
  subst hmetrics
  have hindex : index = s.index := fromParts_eq hindex
  cases hok
  subst hindex
  have hcs := hf.consistent
  have hkeysLen : s.keys.length ≤ 2 ^ 32 := hc.keys.le
  have hback := hcs.owned_iff.1 he.owned
  exact {
    config := hvalid
    metricOf := hmetric
    shaped := hf.shaped
    params := hparams
    metric := rfl
    dims := hf.dims.trans hdims
    slots := hf.slots
    distinct := he.distinct
    keyTable_le := (List.length_map _).trans_le hkeysLen
    keys := fun key i => by
      show (∃ live, (keysOf s.keys).2 key = some (i, live)) ↔ (s.keys.map Prod.fst)[i.toNat]? = some key
      simp only [keysOf_eq_some he.distinct hkeysLen, List.getElem?_map, Option.map_eq_some_iff]
      constructor
      · rintro ⟨live, slot, hi, -⟩
        exact ⟨_, hi, rfl⟩
      · rintro ⟨⟨key, slot⟩, hi, rfl⟩
        exact ⟨_, slot, hi, rfl⟩
    keyIndex := fun record hmem => by
      obtain ⟨n, hn⟩ := List.mem_iff_getElem?.1 hmem
      show _ < (s.keys.map Prod.fst).length
      rw [List.length_map]
      exact hcs.owner hn
    live := fun key slot => by
      have hlive : ((keysOf s.keys).2 key).bind Prod.snd = some slot ↔
          ∃ i, (keysOf s.keys).2 key = some (i, some slot) := by
        simp [Option.bind_eq_some_iff]
      refine hlive.trans (Iff.trans ?_ owner_eq_some.symm)
      constructor
      · rintro ⟨i, hi⟩
        obtain ⟨raw, hraw, hslot⟩ := (keysOf_eq_some he.distinct hkeysLen).1 hi
        obtain ⟨hne, rfl⟩ := liveSlot_eq_some.1 hslot.symm
        obtain ⟨record, hread, hclear, hindex⟩ := hcs.live hraw hne
        refine ⟨record, hread, hclear, ?_⟩
        show (s.keys.map Prod.fst)[record.keyIndex.toNat]? = some key
        rw [List.getElem?_map, hindex, hraw]
        rfl
      · rintro ⟨record, hread, hclear, hkey⟩
        obtain ⟨key', raw, hraw, hne, heq⟩ := hback _ record hread hclear
        have hkey : (s.keys.map Prod.fst)[record.keyIndex.toNat]? = some key := hkey
        rw [List.getElem?_map, hraw] at hkey
        cases hkey
        refine ⟨record.keyIndex, (keysOf_eq_some he.distinct hkeysLen).2 ⟨raw, hraw, ?_⟩⟩
        exact (liveSlot_eq_some.2 ⟨hne, UInt32.toNat_inj.1 heq⟩).symm
    bits := fun n => by
      by_cases hlt : n < s.slots.length
      · have hread := List.getElem?_eq_getElem hlt
        show testBit s.graph.tombstones n = retired s.slots n
        rw [retired, hread]
        exact hcs.tombstones hread
      · show testBit s.graph.tombstones n = retired s.slots n
        rw [retired, List.getElem?_eq_none (Nat.le_of_not_lt hlt)]
        exact he.clear n (Nat.le_of_not_lt hlt)
    count := by
      rw [List.countP_eq_length_filter]
      exact hcs.count.symm }

theorem versioned_ofSnapshot (hs : s.Sequenced) (hok : ofSnapshot config metric s = .ok p) :
    p.Versioned := by
  unfold ofSnapshot at hok
  split at hok
  · cases hok
  split at hok
  · cases hok
  split at hok
  · cases hok
  cases hok
  exact ⟨hs.ordered, hs.bounded⟩

/-! ## Replaying the log -/

/-- All positions of the key table have a number. -/
def Fits (p : Partition) : Prop := p.keyTable.length ≤ 2 ^ 32

/-- The next entry of the log is applied. -/
def Advances (p p' : Partition) : Prop :=
  ∃ entry : Entry, entry.seq = p.highWater + 1 ∧ p.apply entry = .ok p'

/-- The key table only grows. -/
theorem room_of_apply {entry : Entry} (hok : p.apply entry = .ok p') (hfits : p'.Fits) :
    p.Fits ∧ p.EntryRoom entry := by
  unfold apply at hok
  cases hoperation : entry.operation with
  | upsert key payload vector =>
    simp only [hoperation] at hok
    obtain ⟨q, hq, hok⟩ := bind_eq_ok.1 hok
    cases hok
    unfold applyUpsert at hq
    split at hq
    · cases hq
    obtain ⟨inserted, -, hq⟩ := bind_eq_ok.1 hq
    have hkeyTable : q.keyTable = (p.keyPosition key).2 := by
      cases hprevious : p.slotForKey key with
      | none =>
        rw [hprevious] at hq
        cases hq
        rfl
      | some previous =>
        rw [hprevious] at hq
        obtain ⟨out, -, hq⟩ := bind_eq_ok.1 hq
        cases hq
        rfl
    have hfits : (p.keyPosition key).2.length ≤ 2 ^ 32 := hkeyTable ▸ hfits
    unfold keyPosition at hfits
    simp only [EntryRoom, hoperation, KeyRoom, Fits]
    cases hentry : p.keys key with
    | none =>
      simp only [hentry, List.length_append, List.length_singleton] at hfits
      exact ⟨Nat.le_of_succ_le hfits, .inr hfits⟩
    | some entry =>
      simp only [hentry] at hfits
      exact ⟨hfits, .inl rfl⟩
  | delete key =>
    simp only [hoperation] at hok
    obtain ⟨q, hq, hok⟩ := bind_eq_ok.1 hok
    cases hok
    have hkeyTable : q.keyTable = p.keyTable := by
      unfold applyDelete at hq
      split at hq
      · obtain ⟨out, -, hq⟩ := bind_eq_ok.1 hq
        cases hq
        rfl
      · cases hq
        rfl
    refine ⟨?_, by simp only [EntryRoom, hoperation]⟩
    unfold Fits
    rw [← hkeyTable]
    exact hfits

theorem Advances.rep (ha : p.Advances p') (h : p.Fits → p.Rep) (hfits : p'.Fits) : p'.Rep := by
  obtain ⟨entry, -, hok⟩ := ha
  obtain ⟨hold, hroom⟩ := room_of_apply hok hfits
  exact ((h hold).applied hroom hok).rep (h hold) hroom

theorem replayed_rep (hreplay : Relation.ReflTransGen Advances p p') (h : p.Rep)
    (hfits : p'.Fits) : p'.Rep := by
  revert hfits
  induction hreplay with
  | refl => exact fun _ => h
  | tail _ hlast ih => exact fun hfits => hlast.rep ih hfits

/-- Where recovery starts: the newest snapshot that loads, or nothing. -/
inductive Base [Digests] (config : PartitionConfig) (metric : Metric) (snap : Dir Bytes) :
    Partition → Prop
  | snapshot {path : ℕ} {s : LoadedSnapshot} {p : Partition} :
      (newestSnapshot config.id snap.files.reverse).1 = some (path, s) →
      ofSnapshot config metric s = .ok p → Base config metric snap p
  | empty : (newestSnapshot config.id snap.files.reverse).1 = none →
      config.baseSnapshot = false → Base config metric snap (empty config metric)

theorem replayed_of_replaySegment [Digests] {id : Uuid} {newest : ℕ} {state state' : Replay}
    {segment : ℕ × ℕ × Bytes} (hok : replaySegment id newest state segment = .ok state') :
    Relation.ReflTransGen Advances state.partition state'.partition := by
  obtain ⟨position, first, bytes⟩ := segment
  unfold replaySegment at hok
  obtain ⟨read, -, hok⟩ := bind_eq_ok.1 hok
  obtain ⟨⟨q, report⟩, hentries, hok⟩ := bind_eq_ok.1 hok
  cases hok
  refine foldlM_ok_induct
    (P := fun out : Partition × RecoveryReport =>
      Relation.ReflTransGen Advances state.partition out.1)
    (fun (q, report) entry out' hout hstep => ?_) .refl hentries
  unfold replayEntry at hstep
  dsimp only at hstep
  split at hstep
  · cases hstep
    exact hout
  split at hstep
  · cases hstep
  rename_i hseq
  obtain ⟨q', happly, hstep⟩ := bind_eq_ok.1 hstep
  cases hstep
  exact hout.tail ⟨entry, not_not.1 hseq, happly⟩

/-- The mark of the newest snapshot that loads. -/
def markOf [Digests] (config : PartitionConfig) (snap : Dir Bytes) : ℕ :=
  ((newestSnapshot config.id snap.files.reverse).1.map fun found => found.2.highWater).getD 0

theorem Base.highWater [Digests] {metric : Metric} {snap : Dir Bytes}
    (h : Base config metric snap p) : p.highWater = markOf config snap := by
  cases h with
  | snapshot hnewest hok =>
    rw [markOf, hnewest]
    unfold ofSnapshot at hok
    obtain ⟨-, hok⟩ := guard_eq_ok.1 hok
    obtain ⟨-, hok⟩ := guard_eq_ok.1 hok
    split at hok
    · cases hok
    · cases hok
      rfl
  | empty hnewest =>
    rw [markOf, hnewest]
    rfl

/-- The parts of a recovery that came back: where it starts, the replay, and the check behind it. -/
structure Recovered [Digests] (config : PartitionConfig) (wal snap : Dir Bytes) (p : Partition)
    (report : RecoveryReport) (base : Partition) (found : RecoveryReport) (replay : Replay) :
    Prop where
  valid : config.validate = .ok ()
  starts : ∃ metric, config.metricOf = .ok metric ∧ Base config metric snap base
  mark : found.snapshotHighWater = markOf config snap
  torn : found.tornTailFound = none
  replayed : (enumerate wal.files).foldlM (replaySegment config.id (wal.files.length - 1))
    ⟨base, found, decide (base.highWater = 0 ∧ wal.files = []), none⟩ = .ok replay
  sawHistory : replay.sawHistory = true
  walEnd : replay.walEnd.any (· < replay.report.snapshotHighWater) = false
  partition : p = replay.partition
  report : report = { replay.report with highWater := p.highWater }

theorem recovered_of_recover [Digests] {wal snap : Dir Bytes} {report : RecoveryReport}
    (hok : recover (some config) wal snap = .ok (p, report)) :
    ∃ base found replay, Recovered config wal snap p report base found replay := by
  unfold recover at hok
  obtain ⟨hvalid, hok⟩ := check_bind_eq_ok.1 hok
  obtain ⟨metric, hmetric, hok⟩ := bind_eq_ok.1 hok
  generalize hnewest : newestSnapshot config.id snap.files.reverse = newest at hok
  obtain ⟨loaded, rejected⟩ := newest
  have hloaded : (newestSnapshot config.id snap.files.reverse).1 = loaded := by rw [hnewest]
  -- the same tail of the computation behind both kinds of base
  have hend {base : Partition} {found : RecoveryReport} (hbase : Base config metric snap base)
      (hmark : found.snapshotHighWater = markOf config snap) (htorn : found.tornTailFound = none)
      (hok : (do
        let replay ← (enumerate wal.files).foldlM (replaySegment config.id (wal.files.length - 1))
          ⟨base, found, decide (base.highWater = 0 ∧ wal.files = []), none⟩
        if !replay.sawHistory || replay.walEnd.any (· < replay.report.snapshotHighWater) then
          .error (.missingHistory replay.report.snapshotHighWater (wal.files.head?.map Prod.fst))
        else return (replay.partition,
          { replay.report with highWater := replay.partition.highWater })) = .ok (p, report)) :
      ∃ base found replay, Recovered config wal snap p report base found replay := by
    obtain ⟨replay, hreplay, hok⟩ := bind_eq_ok.1 hok
    obtain ⟨hcheck, hok⟩ := guard_eq_ok.1 hok
    cases hok
    simp only [Bool.or_eq_true, Bool.not_eq_true', not_or, Bool.not_eq_false,
      Bool.not_eq_true] at hcheck
    exact ⟨base, found, replay, hvalid, ⟨metric, hmetric, hbase⟩, hmark, htorn, hreplay, hcheck.1,
      hcheck.2, rfl, rfl⟩
  cases loaded with
  | none =>
    dsimp only at hok
    split at hok
    · cases hok
    · rename_i hbase
      exact hend (.empty hloaded (by simpa using hbase)) (by rw [markOf, hloaded]; rfl) rfl hok
  | some found =>
    obtain ⟨path, s⟩ := found
    dsimp only at hok
    obtain ⟨base, hbase, hok⟩ := bind_eq_ok.1 hok
    exact hend (.snapshot hloaded hbase) (by rw [markOf, hloaded]; rfl) rfl hok

/-- Recovery applies the entries of the log, one after the other, to the state it starts from. -/
theorem replayed_of_recover [Digests] {wal snap : Dir Bytes} {report : RecoveryReport}
    (hok : recover (some config) wal snap = .ok (p, report)) :
    config.validate = .ok () ∧ ∃ metric, config.metricOf = .ok metric ∧
      ∃ base, Base config metric snap base ∧ Relation.ReflTransGen Advances base p := by
  obtain ⟨base, found, replay, h⟩ := recovered_of_recover hok
  obtain ⟨metric, hmetric, hbase⟩ := h.starts
  refine ⟨h.valid, metric, hmetric, base, hbase, ?_⟩
  rw [h.partition]
  exact foldlM_ok_induct
    (P := fun state : Replay => Relation.ReflTransGen Advances base state.partition)
    (fun _ _ _ hb hstep => hb.trans (replayed_of_replaySegment hstep)) .refl h.replayed

end Partition

end Index

end DistrHnsw
