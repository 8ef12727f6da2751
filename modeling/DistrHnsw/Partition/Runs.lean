import DistrHnsw.Partition.Steps

/-!
# Runs of a partition

A partition is created, bulk loaded or opened, and then written, snapshotted, compacted and opened
again, on devices of which any step may fail.
-/

namespace DistrHnsw

namespace Index

open Wal (Operation WalWriter)

namespace Partition

variable [Digests]

/-- A partition in memory with the compactions that were captured from it. -/
structure Running where
  partition : Partition
  captured : List CompactionInput

/-- What may be done; every action finds its own devices. -/
inductive Action where
  | create (d : Disk) (config : PartitionConfig)
  | bulkLoad (d : Disk) (config : PartitionConfig) (vectors : FlatVectors) (keys : List Bytes)
    (index : Hnsw)
  | «open» (d : Disk)
  | upsert (wal : Device) (opId : OpId) (key : Bytes) (vector : List F32) (payload : Bytes)
  | delete (wal : Device) (opId : OpId) (key : Bytes)
  | snapshot (snap : Device)
  | truncateWal (wal : Device)
  | captureCompaction
  | finishCompaction (d : Disk) (input : CompactionInput) (index : Hnsw)
  | setRamBudget (budget : Option ℕ)
  | setFailpoint (failpoint : Option Failpoint)

/-- An action and the state behind it, whether the call succeeds or fails; graphs are those that the
parallel builder may return. -/
inductive Step : Option Running → Action → Running → Prop
  | create {s : Option Running} {d d' : Disk} {config : PartitionConfig} {p : Partition}
      (ok : Partition.create d config = (.ok p, d')) : Step s (.create d config) ⟨p, []⟩
  | bulkLoad {s : Option Running} {d d' : Disk} {config : PartitionConfig} {metric : Metric}
      {vectors : FlatVectors} {keys : List Bytes} {index : Hnsw} {p : Partition} {path : ℕ}
      (metricOf : config.metricOf = .ok metric)
      (builds : BuildsParallel vectors metric config.params index)
      (ok : Partition.bulkLoad d config vectors keys index = (.ok (p, path), d')) :
      Step s (.bulkLoad d config vectors keys index) ⟨p, []⟩
  | «open» {s : Option Running} {d d' : Disk} {p : Partition} {report : RecoveryReport}
      (ok : Partition.open d = (.ok (p, report), d')) : Step s (.open d) ⟨p, []⟩
  | upsert {s : Running} {wal : Device} {opId : OpId} {key payload : Bytes} {vector : List F32} :
      Step (some s) (.upsert wal opId key vector payload)
        { s with partition := (s.partition.upsert wal opId key vector payload).2.1 }
  | delete {s : Running} {wal : Device} {opId : OpId} {key : Bytes} :
      Step (some s) (.delete wal opId key)
        { s with partition := (s.partition.delete wal opId key).2.1 }
  | snapshot {s : Running} {snap : Device} :
      Step (some s) (.snapshot snap) { s with partition := (s.partition.snapshot snap).2.1 }
  | truncateWal {s : Running} {wal : Device} : Step (some s) (.truncateWal wal) s
  | captureCompaction {s : Running} {input : CompactionInput}
      (ok : s.partition.captureCompaction = .ok input) :
      Step (some s) .captureCompaction { s with captured := input :: s.captured }
  | finishCompaction {s : Running} {d : Disk} {input : CompactionInput} {index : Hnsw}
      (captured : input ∈ s.captured)
      (builds : BuildsParallel input.vectors input.metric input.params index) :
      Step (some s) (.finishCompaction d input index)
        { s with partition := (s.partition.finishCompaction d (build input index)).2.1 }
  | setRamBudget {s : Running} {budget : Option ℕ} :
      Step (some s) (.setRamBudget budget)
        { s with partition := { s.partition with
            config := { s.partition.config with ramBudgetBytes := budget } } }
  | setFailpoint {s : Running} {failpoint : Option Failpoint} :
      Step (some s) (.setFailpoint failpoint)
        { s with partition := { s.partition with failpoint } }

/-- A run whose steps all satisfy `Q`. -/
inductive Run (Q : Option Running → Action → Running → Prop) : Option Running → Prop
  | start : Run Q none
  | step {s : Option Running} {a : Action} {s' : Running} (before : Run Q s) (step : Step s a s')
      (orderly : Q s a s') : Run Q (some s')

/-- What an action asks of the state before it: a snapshot that is opened gives every live slot to one
key and has its versions in order, and the sequence numbers are not used up. -/
def Action.Meets (s : Option Running) : Action → Prop
  | .open d => ∀ config, d.manifest = some config → Trusted config d.snap.files
  | .upsert .. | .delete .. => ∀ running, s = some running → running.partition.highWater + 1 < 2 ^ 64
  | _ => True

/-- The action is met, and every position of the key table has a number. -/
def Orderly (s : Option Running) (a : Action) (s' : Running) : Prop :=
  a.Meets s ∧ s'.partition.Fits

/-- What holds of every state of a run. -/
structure Sound (s : Running) : Prop where
  served : s.partition.Served
  pending (input : CompactionInput) : input ∈ s.captured → s.partition.Pending input

omit [Digests] in
theorem admits_eq_error {p : Partition} {payloadLen : ℕ} {e : PartitionError}
    (h : p.admits payloadLen = .error e) (point : Failpoint) : e ≠ .injected point := by
  unfold admits at h
  split at h
  · cases h
  · rw [ite_eq_iff] at h
    rcases h with ⟨-, h⟩ | ⟨-, h⟩ <;> cases h
    nofun

/-- An upsert repeats an earlier outcome, is refused, or is logged. -/
theorem upsert_cases (p : Partition) (wal : Device) (opId : OpId) (key : Bytes) (vector : List F32)
    (payload : Bytes) :
    (∃ seq, p.upsert wal opId key vector payload = (.ok ⟨seq, true⟩, p, wal)) ∨
    (∃ e, p.upsert wal opId key vector payload = (.error e, p, wal) ∧
      ∀ point, e ≠ .injected point) ∨
    p.idempotency.get opId = none ∧ vector.length = p.config.dims ∧ p.admits payload.length = .ok () ∧
      p.upsert wal opId key vector payload =
        p.mutate wal opId (.upsert key payload (FlatVectors.stored vector p.metric)) := by
  unfold upsert
  split
  · exact .inl ⟨_, rfl⟩
  rename_i hfresh
  split
  · exact .inr (.inl ⟨_, rfl, fun _ h => by cases h⟩)
  rename_i hdims
  split
  · exact .inr (.inl ⟨_, rfl, fun _ h => by cases h⟩)
  split
  · exact .inr (.inl ⟨_, rfl, fun _ h => by cases h⟩)
  split
  · rename_i hadmits
    exact .inr (.inl ⟨_, rfl, admits_eq_error hadmits⟩)
  · rename_i hadmits
    exact .inr (.inr ⟨hfresh, not_not.1 hdims, hadmits, rfl⟩)

/-- An upsert that is accepted for the first time is logged. -/
theorem upsert_accepted {p : Partition} {wal : Device} {opId : OpId} {key payload : Bytes}
    {vector : List F32} {seq : ℕ} (h : (p.upsert wal opId key vector payload).1 = .ok ⟨seq, false⟩) :
    p.upsert wal opId key vector payload =
      p.mutate wal opId (.upsert key payload (FlatVectors.stored vector p.metric)) := by
  obtain ⟨seq', heq⟩ | ⟨e, heq, -⟩ | ⟨-, -, -, heq⟩ := p.upsert_cases wal opId key vector payload
  · rw [heq] at h
    cases h
  · rw [heq] at h
    cases h
  · exact heq

theorem delete_cases (p : Partition) (wal : Device) (opId : OpId) (key : Bytes) :
    (p.delete wal opId key).2.1 = p ∨ p.delete wal opId key = p.mutate wal opId (.delete key) := by
  unfold delete
  split
  · exact .inl rfl
  · exact .inr rfl

variable {p p' : Partition} {s : Option Running} {s' : Running} {a : Action}

omit [Digests] in
/-- A logged operation keeps the configuration. -/
theorem Mutated.same {opId : OpId} {operation : Wal.Operation} (h : p.Mutated opId operation p') :
    SameConfig p' p := by
  rcases h.outcome with heq | ⟨q, happly, heq⟩
  · rw [heq]
    exact ⟨rfl, rfl⟩
  · rw [heq, eq_of_apply happly]
    exact ⟨rfl, rfl⟩

omit [Digests] in
theorem Sound.partition {s : Running} (h : Sound s) (hserved : p.Served)
    (hsame : SameConfig p s.partition) : Sound { s with partition := p } :=
  ⟨hserved, fun input hinput => (h.pending input hinput).same hsame⟩

/-- Every step keeps what holds of a run. -/
theorem Step.sound (hstep : Step s a s') (hmeets : a.Meets s) (hfits : s'.partition.Fits)
    (h : ∀ running, s = some running → Sound running) : Sound s' := by
  cases hstep with
  | create ok => exact ⟨served_create ok, nofun⟩
  | bulkLoad metricOf builds ok => exact ⟨served_bulkLoad metricOf builds ok hfits, nofun⟩
  | «open» ok => exact ⟨served_open ok hmeets hfits, nofun⟩
  | @upsert s wal opId key payload vector =>
    have hs := h s rfl
    obtain ⟨seq, heq⟩ | ⟨e, heq, -⟩ | ⟨-, -, -, heq⟩ :=
      upsert_cases s.partition wal opId key vector payload
    · rw [heq]
      exact hs
    · rw [heq]
      exact hs
    · rw [heq] at hfits ⊢
      have hm := (mutate_cases hs.served.counts wal opId
        (.upsert key payload (FlatVectors.stored vector s.partition.metric))).1
      exact hs.partition (hs.served.mutated hm (hmeets s rfl) hfits) hm.same
  | @delete s wal opId key =>
    have hs := h s rfl
    obtain heq | heq := delete_cases s.partition wal opId key
    · rw [heq]
      exact hs
    · rw [heq] at hfits ⊢
      have hm := (mutate_cases hs.served.counts wal opId (.delete key)).1
      exact hs.partition (hs.served.mutated hm (hmeets s rfl) hfits) hm.same
  | @snapshot s snap =>
    have hs := h s rfl
    have hremapped := remapped_of_snapshot s.partition snap
    refine hs.partition (hremapped.served hs.served) ?_
    obtain ⟨vectors, mark, -, -, heq⟩ := hremapped.state
    rw [heq]
    exact ⟨rfl, rfl⟩
  | truncateWal => exact h s' rfl
  | @captureCompaction s input ok =>
    have hs := h s rfl
    refine ⟨hs.served, fun input' hinput => ?_⟩
    rcases List.mem_cons.1 hinput with rfl | hinput
    · exact ⟨s.partition, hs.served.rep, hs.served.versioned, .refl _,
        captured_of_captureCompaction ok⟩
    · exact hs.pending input' hinput
  | @finishCompaction s d input index captured builds =>
    have hs := h s rfl
    obtain ⟨hserved, hsame⟩ := hs.served.finished (hs.pending input captured) builds d hfits
    exact hs.partition hserved hsame
  | @setRamBudget s budget =>
    have hs := h s rfl
    have hstate : s.partition.SameState { s.partition with
        config := { s.partition.config with ramBudgetBytes := budget } } :=
      ⟨⟨rfl, rfl⟩, rfl, rfl, rfl, rfl, rfl⟩
    exact hs.partition ⟨hstate.rep hs.served.rep, hstate.versioned hs.served.versioned,
      hs.served.counts⟩ hstate.config
  | @setFailpoint s failpoint =>
    have hs := h s rfl
    have hstate : s.partition.SameState { s.partition with failpoint } :=
      ⟨⟨rfl, rfl⟩, rfl, rfl, rfl, rfl, rfl⟩
    exact hs.partition ⟨hstate.rep hs.served.rep, hstate.versioned hs.served.versioned,
      hs.served.counts⟩ hstate.config

theorem Run.sound (hrun : Run Orderly s) {running : Running} (hs : s = some running) : Sound running := by
  induction hrun generalizing running with
  | start => cases hs
  | step before step orderly ih =>
    cases hs
    exact step.sound orderly.1 orderly.2 fun running heq => ih heq

/-! ## The representation -/

/-- What the parallel structures of a partition say of each other. -/
structure Represents (p : Partition) : Prop where
  slots : p.slots.length = p.index.len
  vectors : p.index.vectors.len = p.index.len
  quantized : p.index.quantized.Shaped p.index.vectors.dims p.index.len
  distinct : p.keyTable.Nodup
  keys (key : Bytes) (i : UInt32) :
    (∃ live, p.keys key = some (i, live)) ↔ p.keyTable[i.toNat]? = some key
  live (key : Bytes) (slot : Slot) : p.slotForKey key = some slot ↔ ∃ record,
    p.slots[slot.toNat]? = some record ∧ record.tombstone = false ∧
      p.keyTable[record.keyIndex.toNat]? = some key
  once (slot slot' : Slot) (record record' : SlotRecord) : p.slots[slot.toNat]? = some record →
    p.slots[slot'.toNat]? = some record' → record.tombstone = false → record'.tombstone = false →
      record.keyIndex = record'.keyIndex → slot = slot'
  bits (s : ℕ) : testBit p.index.tombstones s = (p.slots[s]?).any SlotRecord.tombstone
  count : p.index.tombstoneCount = p.slots.countP SlotRecord.tombstone
  ordered : (p.slots.map SlotRecord.version).Pairwise (· ≤ ·)
  bounded (record : SlotRecord) : record ∈ p.slots → record.version ≤ p.highWater

omit [Digests] in
theorem Served.represents (h : p.Served) : p.Represents := by
  obtain ⟨hrep, hversioned, -⟩ := h
  have hlive (key : Bytes) (slot : Slot) : p.slotForKey key = some slot ↔ ∃ record,
      p.slots[slot.toNat]? = some record ∧ record.tombstone = false ∧
        p.keyTable[record.keyIndex.toNat]? = some key :=
    (hrep.live key slot).trans owner_eq_some
  refine ⟨hrep.slots, hrep.shaped.vectors, hrep.shaped.quantized, hrep.distinct, hrep.keys, hlive,
    fun slot slot' record record' hread hread' hclear hclear' heq => ?_, hrep.bits, hrep.count,
    hversioned.ordered, fun record hmem => hversioned.bounded _ (List.mem_map_of_mem hmem)⟩
  have hkey := List.getElem?_eq_getElem (hrep.keyIndex record (List.mem_of_getElem? hread))
  have hslot := (hlive _ slot).2 ⟨record, hread, hclear, hkey⟩
  have hslot' := (hlive _ slot').2 ⟨record', hread', hclear', by rw [← heq]; exact hkey⟩
  exact Option.some.inj (hslot.symm.trans hslot')

/-- In every orderly run the structures agree. -/
theorem representation_of_run {running : Running} (hrun : Run Orderly (some running)) :
    running.partition.Represents := (hrun.sound rfl).served.represents

/-! ## A first write -/

/-- A directory without a partition. -/
def newDisk : Disk := ⟨none, .reliable Dir.empty, .reliable Dir.empty⟩

theorem create_newDisk {config : PartitionConfig} {metric : Metric}
    (hvalid : config.validate = .ok ()) (hmetric : config.metricOf = .ok metric) : ∃ w wal,
      create newDisk config =
        (.ok { empty config metric with wal := some w }, ⟨some config, wal, .reliable Dir.empty⟩) ∧
      wal.faults = [] ∧ w.nextSeq = 1 ∧ w.poisoned = false ∧ w.bytes < Wal.segmentRotateBytes := by
  have hext : WalWriter.extendNewest (Device.reliable Dir.empty).files config.id 0 = .ok none := rfl
  obtain ⟨w, wal, hopen, hreliable, hnext, hclean, hshort⟩ :=
    WalWriter.open_of_reliable rfl hext (fun _ _ h => by cases h)
      (fun _ file hfile => absurd hfile List.not_mem_nil)
  refine ⟨w, wal, ?_, hreliable, hnext, hclean, hshort⟩
  unfold create
  simp only [hvalid, hmetric, ok_bind, newDisk, Option.isSome_none, Bool.false_eq_true, if_false]
  have hopen' : WalWriter.open (.reliable Dir.empty) config.id 0 = (.ok w, wal) := hopen
  rw [hopen']

omit [Digests] in
/-- An empty partition takes in what passes the checks. -/
theorem upsertable_empty {config : PartitionConfig} {metric : Metric} (hvalid : config.validate = .ok ())
    (hmetric : config.metricOf = .ok metric) (w : WalWriter) {opId : OpId} {key payload : Bytes}
    {vector : List F32} (hdims : vector.length = config.dims)
    (hfinite : ∀ value ∈ FlatVectors.stored vector metric, value.isFinite = true)
    (hraw : ∀ value ∈ vector, value.isFinite = true)
    (hnonzero : metric.normalizes = true → (normalize vector).1 = true)
    (hadmitted : ({ empty config metric with wal := some w } : Partition).admits payload.length = .ok ())
    (hfits : (Operation.upsert key payload (FlatVectors.stored vector metric)).Fits) :
    ({ empty config metric with wal := some w } : Partition).Upsertable opId key vector payload where
  fresh := rfl
  dims := hdims
  finite := hraw
  nonzero := hnonzero
  admitted := hadmitted
  fits := hfits
  applies := by
    have hrep := rep_empty hvalid hmetric
    have htakes : (empty config metric).index.Takes (FlatVectors.stored vector metric) :=
      ⟨(FlatVectors.length_stored vector metric).trans hdims, hfinite, show 0 < 2 ^ 32 by decide⟩
    obtain ⟨p', hp'⟩ := hrep.exists_applyUpsert (topped_new hvalid) htakes 1 key payload
    rw [apply_wal]
    unfold apply
    simp only [empty] at hp' ⊢
    rw [hp']
    exact ⟨_, rfl⟩

/-- A partition is created and its first write is accepted. -/
theorem run_first_write {config : PartitionConfig} {metric : Metric}
    (hvalid : config.validate = .ok ()) (hmetric : config.metricOf = .ok metric) {opId : OpId}
    {key payload : Bytes} {vector : List F32}
    (h : ∀ w, ({ empty config metric with wal := some w } : Partition).Upsertable opId key vector
      payload) : ∃ w d,
        let p : Partition := { empty config metric with wal := some w }
        Run Orderly (some ⟨p, []⟩) ∧ (p.upsert d opId key vector payload).1 = .ok ⟨1, false⟩ ∧
          Run Orderly (some ⟨(p.upsert d opId key vector payload).2.1, []⟩) ∧
          p.AppliedEntry ⟨1, opId, .upsert key payload (FlatVectors.stored vector metric)⟩
            { (p.upsert d opId key vector payload).2.1 with wal := some w } := by
  obtain ⟨w, wal, hcreate, hreliable, hnext, hclean, hshort⟩ := create_newDisk hvalid hmetric
  refine ⟨w, wal, ?_⟩
  intro p
  have hcreated : Run Orderly (some ⟨p, []⟩) :=
    .step .start (.create hcreate) ⟨trivial, Nat.zero_le _⟩
  have hserved : p.Served := (hcreated.sound rfl).served
  have haccepted : (p.upsert wal opId key vector payload).1 = .ok ⟨1, false⟩ :=
    upsert_of_reliable (h w) hreliable rfl hnext hclean hshort rfl
  have hmutate := upsert_accepted haccepted
  have hroom : p.EntryRoom ⟨1, opId, .upsert key payload (FlatVectors.stored vector metric)⟩ :=
    .inr (show 0 < 2 ^ 32 by decide)
  obtain ⟨-, q, happly, hstate⟩ := (mutate_cases hserved.counts wal opId
    (.upsert key payload (FlatVectors.stored vector p.metric))).2 _ (hmutate ▸ haccepted)
  rw [← hmutate] at hstate
  have happlied := hserved.rep.applied hroom happly
  have hwriter : q.wal = some w := by rw [eq_of_apply happly]
  refine ⟨hcreated, haccepted, .step hcreated .upsert ⟨?_, ?_⟩, ?_⟩
  · rintro running heq
    cases heq
    exact show 0 + 1 < 2 ^ 64 by decide
  · rw [hstate]
    exact (happlied.rep hserved.rep hroom).keyTable_le
  · rw [hstate, ← hwriter]
    exact happlied

omit [Digests] in
/-- A first write to a small partition. -/
theorem upsertable_small (w : WalWriter) : ({ empty smallConfig .l2 with wal := some w } :
    Partition).Upsertable smallConfig.id [1] [F32.one, F32.zero] [9] := by
  have hfinite : ∀ value ∈ [F32.one, F32.zero], value.isFinite = true := by
    simp only [List.forall_mem_cons, List.not_mem_nil, false_implies, implies_true, and_true]
    exact ⟨rfl, rfl⟩
  exact upsertable_empty rfl rfl w rfl hfinite hfinite nofun rfl (by decide)

omit [Digests] in
theorem first_write_represented : letI := Digests.standard
    ∃ running, Run Orderly (some running) ∧ running.partition.highWater = 1 ∧
      running.partition.Represents := by
  let _ := Digests.standard
  obtain ⟨w, d, -, -, hrun, happlied⟩ := run_first_write rfl rfl upsertable_small
  refine ⟨_, hrun, ?_, representation_of_run hrun⟩
  cases happlied with
  | upsert hoperation hslots hupserted heq => exact congrArg Partition.highWater heq
  | delete hoperation hdeleted heq => exact congrArg Partition.highWater heq

end Partition

end Index

end DistrHnsw
