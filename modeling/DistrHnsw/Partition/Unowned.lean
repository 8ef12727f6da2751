import DistrHnsw.Partition.Interrupted
import DistrHnsw.Partition.Queries

/-!
# A slot that no key has

A snapshot may hold a live slot whose key has no slot.  It is accepted and opened; searches answer with
the key, and deleting the key changes nothing.
-/

namespace DistrHnsw

namespace Index

open Wal (WalWriter)

/-! ## The file -/

/-- One live slot; its key has no slot. -/
def unowned : SnapshotInput where
  partitionId := smallConfig.id
  dims := 2
  metric := .l2
  params := smallConfig.params
  highWater := 0
  keys := [([1], noSlot)]
  slots := [⟨0, false, 0, [9]⟩]
  vectors := .fromMapped 2 [[F32.one, F32.zero]] (by decide)
  quantized := ⟨2, [127, 0], [⟨0x3C010204⟩], [F32.one]⟩
  graph :=
    { levels := [0], level0 := [0, 0, 0, 0], level0Len := [0], upper := [[]], upperLen := [[]]
      tombstones := [0], tombstoneCount := 0, entry := some 0, maxLevel := 0 }
  idempotency := []

theorem shaped_unowned : unowned.index.Shaped where
  m_le := show 2 ≤ 255 by decide
  m0_le := show 4 ≤ 255 by decide
  len_le := show 1 ≤ 2 ^ 32 by decide
  vectors := rfl
  quantized := ⟨rfl, rfl, rfl, rfl⟩
  level0 := rfl
  level0Len := rfl
  upper := rfl
  upperLen := rfl
  links {s level links} hlevel hlinks := by
    match s with
    | 0 =>
      cases hlevel
      cases hlinks
      rfl
    | s + 1 => cases hlevel
  lens {s level lens} hlevel hlens := by
    match s with
    | 0 =>
      cases hlevel
      cases hlens
      rfl
    | s + 1 => cases hlevel
  tombstones := show 1 = (1 + 63) / 64 by decide

theorem encodable_unowned : unowned.Encodable where
  shaped := shaped_unowned
  slots := rfl
  dims := rfl
  dims_pos := show 0 < 2 by decide
  dims_lt := show 2 < 2 ^ 32 by decide
  m := show 0 < 2 by decide
  m0 := show 0 < 4 by decide
  efConstruction := show 10 < 2 ^ 32 by decide
  highWater := show 0 < 2 ^ 64 by decide
  version := by simp [unowned]
  seq := by simp [unowned]
  consistent := (validateStructure_eq_ok shaped_unowned).1 (by decide)
  key_pos := by simp [unowned]
  key_le := by simp [unowned]

/-- The file is accepted. -/
theorem load_unowned [Digests] :
    ∃ bytes, load bytes unowned.partitionId = .ok (unowned.loaded rfl bytes.length) := by
  obtain ⟨graph, hgraph, hencode⟩ := encode_eq encodable_unowned
  have hcountable : unowned.Countable :=
    ⟨show 1 < 2 ^ 32 by decide, show 1 < 2 ^ 32 by decide, show 0 < 2 ^ 32 by decide⟩
  have hshort : unowned.Short := by simp [SnapshotInput.Short, unowned]
  refine ⟨_, load_encode encodable_unowned hcountable hshort hencode ?_⟩
  have hlen : graph.length = 59 := by
    cases hgraph
    rfl
  have hlens : (unowned.sections graph).map (fun s => s.2.length) =
      [7, 25, 1, 8, 10, graph.length, 0] := rfl
  rw [length_file_eq_sum, hlens, hlen]
  decide

/-! ## The partition -/

namespace Partition

/-- A directory with one snapshot and no log. -/
def snapshotDisk (config : PartitionConfig) (path : ℕ) (bytes : Bytes) : Disk where
  manifest := some config
  wal := .reliable Dir.empty
  snap := .reliable ⟨[(path, bytes)], List.pairwise_singleton _ _⟩

/-- A snapshot from before the first entry is opened without a log. -/
theorem open_snapshotDisk [Digests] {config : PartitionConfig} {metric : Metric} {path : ℕ}
    {bytes : Bytes} {s : LoadedSnapshot} {p : Partition} (hvalid : config.validate = .ok ())
    (hmetric : config.metricOf = .ok metric) (hload : load bytes config.id = .ok s)
    (hstart : s.highWater = 0) (hok : ofSnapshot config metric s = .ok p) :
    ∃ report w d', «open» (snapshotDisk config path bytes) =
      (.ok ({ p with wal := some w }, report), d') ∧ d'.wal.faults = [] ∧ w.nextSeq = 1 ∧
        w.poisoned = false ∧ w.bytes < Wal.segmentRotateBytes := by
  have hmark : p.highWater = 0 ∧ p.config = config := by
    unfold ofSnapshot at hok
    obtain ⟨-, hok⟩ := guard_eq_ok.1 hok
    obtain ⟨-, hok⟩ := guard_eq_ok.1 hok
    split at hok
    · cases hok
    · cases hok
      exact ⟨hstart, rfl⟩
  have hrecover : ∃ report, recover (some config) Dir.empty (snapshotDisk config path bytes).snap.files =
      .ok (p, report) ∧ report.tornTailFound = none := by
    have hnewest : newestSnapshot config.id [(path, bytes)] = (some (path, s), []) := by
      rw [newestSnapshot, hload]
    simp only [recover, hvalid, hmetric, ok_bind, snapshotDisk, Device.reliable,
      List.reverse_singleton, hnewest, hok, Dir.files_empty, enumerate, List.zipIdx_nil, List.map_nil,
      List.foldlM_nil, pure_eq_ok, hmark.1]
    exact ⟨_, rfl, rfl⟩
  obtain ⟨report, hrecover, htorn⟩ := hrecover
  have hext : WalWriter.extendNewest (Device.reliable Dir.empty).files config.id 0 = .ok none := rfl
  obtain ⟨w, d', hopen, hreliable, hnext, hclean, hshort⟩ := WalWriter.open_of_reliable rfl hext (fun _ _ h => by cases h)
    (fun _ file hfile => absurd hfile List.not_mem_nil)
  unfold «open»
  have hrecover' : recover (snapshotDisk config path bytes).manifest
      (snapshotDisk config path bytes).wal.files (snapshotDisk config path bytes).snap.files =
        .ok (p, report) := hrecover
  rw [hrecover']
  simp only [htorn, hmark.1, hmark.2]
  have hopen' : WalWriter.open (snapshotDisk config path bytes).wal config.id 0 = (.ok w, d') := hopen
  rw [hopen']
  exact ⟨_, w, _, rfl, hreliable, hnext, hclean, hshort⟩

/-- What is opened from the file. -/
def unownedState : Partition where
  config := smallConfig
  metric := .l2
  index := unowned.index
  keyTable := [[1]]
  keys := (keysOf unowned.keys).2
  slots := unowned.slots
  idempotency := .new 8
  wal := none
  highWater := 0
  snapshotHighWater := 0
  failpoint := none

theorem ofSnapshot_unowned (fileBytes : ℕ) :
    ofSnapshot smallConfig .l2 (unowned.loaded rfl fileBytes) = .ok unownedState := by
  have hparts : Hnsw.fromParts (unowned.loaded rfl fileBytes).params .l2
      (unowned.loaded rfl fileBytes).vectors (unowned.loaded rfl fileBytes).quantized
      (unowned.loaded rfl fileBytes).graph = some unowned.index := encodable_unowned.fromParts
  unfold ofSnapshot
  have hagree : ¬((unowned.loaded rfl fileBytes).dims ≠ smallConfig.dims ∨
      (unowned.loaded rfl fileBytes).metric ≠ .l2) :=
    show ¬((2 : ℕ) ≠ 2 ∨ Metric.l2 ≠ Metric.l2) by decide
  have hparams : ¬(unowned.loaded rfl fileBytes).params ≠ smallConfig.params :=
    show ¬smallConfig.params ≠ smallConfig.params by decide
  rw [if_neg hagree, if_neg hparams, hparts]
  rfl

theorem slotForKey_unowned : unownedState.slotForKey [1] = none := by decide +kernel

/-- A run may open the file. -/
theorem run_unowned [Digests] : ∃ w, w.nextSeq = 1 ∧ w.poisoned = false ∧
    w.bytes < Wal.segmentRotateBytes ∧
    Run (fun _ _ _ => True) (some ⟨{ unownedState with wal := some w }, []⟩) := by
  obtain ⟨bytes, hload⟩ := load_unowned
  obtain ⟨report, w, d', hopen, -, hnext, hclean, hshort⟩ :=
    @open_snapshotDisk _ smallConfig .l2 0 bytes _ _ rfl rfl hload rfl (ofSnapshot_unowned bytes.length)
  exact ⟨w, hnext, hclean, hshort, .step .start (.open hopen) trivial⟩

/-- The slot is live and names a key that has no slot. -/
theorem unowned_not_represented : letI := Digests.standard
    ¬ ∀ running, Run (fun _ _ _ => True) (some running) → running.partition.Represents := by
  let _ := Digests.standard
  intro hall
  obtain ⟨w, -, -, -, hrun⟩ := run_unowned
  have hlive := ((hall _ hrun).live [1] 0).2 ⟨⟨0, false, 0, [9]⟩, rfl, rfl, rfl⟩
  cases slotForKey_unowned.symm.trans hlive

/-- The first slot alone. -/
def firstSlot : Bitmap := ⟨[0], List.pairwise_singleton _ _⟩

/-- A search answers with the key that is not alive. -/
theorem search_unowned : (unownedState.search [F32.one, F32.zero] 1 1 (some firstSlot)).map
    (List.map fun h => (h.key, h.payload, h.slot)) = .ok [([1], [9], 0)] := by
  decide +kernel

theorem unowned_is_answered : letI := Digests.standard
    ¬ ∀ running, Run (fun _ _ _ => True) (some running) →
      ∀ query k ef filter hits, running.partition.search query k ef filter = .ok hits →
        running.partition.Answered query k filter hits := by
  let _ := Digests.standard
  intro hall
  obtain ⟨w, -, -, -, hrun⟩ := run_unowned
  have hsearch := search_unowned
  cases hfound : unownedState.search [F32.one, F32.zero] 1 1 (some firstSlot) with
  | error e =>
    rw [hfound] at hsearch
    cases hsearch
  | ok hits =>
    rw [hfound] at hsearch
    have hhits : hits.map (fun h => (h.key, h.payload, h.slot)) = [([1], [9], 0)] :=
      Except.ok.inj hsearch
    obtain ⟨h, hh, heq⟩ := List.mem_map.1
      (show (([1], [9], 0) : Bytes × Bytes × Slot) ∈ hits.map _ from hhits ▸ List.mem_cons_self)
    have hanswered := hall _ hrun [F32.one, F32.zero] 1 1 (some firstSlot) hits hfound
    have hlive := (hanswered.live h hh).1
    rw [show h.key = [1] from congrArg Prod.fst heq] at hlive
    cases slotForKey_unowned.symm.trans hlive

end Partition

end Index

end DistrHnsw
