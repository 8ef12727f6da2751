import DistrHnsw.Partition.Serving

/-!
# The first state of a partition

A partition is created empty, or bulk loaded with one key for each vector and stored as a snapshot.
-/

namespace DistrHnsw

namespace Index

open Wal (WalWriter Remains Standing)

namespace Partition

section Create

variable [Digests] {d d' : Disk} {config : PartitionConfig} {p : Partition}

/-- What is left when the manifest was written. -/
structure Created (config : PartitionConfig) (d : Disk) (out : Except PartitionError Partition × Disk) :
    Prop where
  valid : config.validate = .ok ()
  metric : ∃ metric, config.metricOf = .ok metric
  wal : d.wal.Through (Remains config.id 1 []) out.2.wal
  snap : out.2.snap = d.snap
  ok (p : Partition) : out.1 = .ok p → ∃ metric w, config.metricOf = .ok metric ∧
    p = { empty config metric with wal := some w } ∧ Standing config.id 1 [] w out.2.wal.files

theorem created_of_create (hempty : d.wal.files = Dir.empty) (hnew : d.manifest = none)
    (hwritten : (create d config).2.manifest = some config) : Created config d (create d config) := by
  have hlog : Wal.Holds config.id 1 [] d.wal.files := ⟨[], trivial, rfl, by rw [hempty]; rfl⟩
  obtain ⟨hthrough, hstanding⟩ := Wal.open_remains hlog (fun _ => rfl) rfl (by decide)
  unfold create at hwritten ⊢
  split at hwritten
  · rw [hnew] at hwritten
    cases hwritten
  rename_i metric hchecks
  obtain ⟨hvalid, hmetric⟩ := check_bind_eq_ok.1 hchecks
  rw [if_neg (by rw [hnew]; decide)]
  dsimp only
  generalize WalWriter.open d.wal config.id 0 = opened at hthrough hstanding
  obtain ⟨result, wal⟩ := opened
  cases result with
  | error e => exact ⟨hvalid, ⟨metric, hmetric⟩, hthrough, rfl, fun p hp => by cases hp⟩
  | ok w =>
    refine ⟨hvalid, ⟨metric, hmetric⟩, hthrough, rfl, fun p hp => ?_⟩
    cases hp
    exact ⟨metric, w, hmetric, rfl, hstanding w rfl⟩

theorem manifest_of_create (hok : create d config = (.ok p, d')) :
    d.manifest = none ∧ d'.manifest = some config := by
  unfold create at hok
  split at hok
  · cases hok
  split at hok
  · cases hok
  rename_i hnew
  dsimp only at hok
  split at hok
  · cases hok
  · cases hok
    exact ⟨by simpa using hnew, rfl⟩

/-- A directory without history. -/
theorem held_new {wal : Dir Bytes} (hplain : config.baseSnapshot = false)
    (h : Remains config.id 1 [] wal) :
    Held config ⟨[], 0⟩ [] [] 1 wal Dir.empty where
  lawful := ledger_nil
  room := show 0 < 2 ^ 32 by decide
  pos := Nat.one_pos
  rooted := {
    image := fun n bytes hfile => by cases hfile
    covered := .inl rfl
    origin := fun _ => ⟨rfl, hplain⟩ }
  remains := h

/-- A process that just created its partition. -/
theorem serving_new {metric : Metric} {w : WalWriter} {wal snap : Dir Bytes}
    (hvalid : config.validate = .ok ()) (hmetric : config.metricOf = .ok metric)
    (h : Standing config.id 1 [] w wal) :
    Serving config ⟨[], 0⟩ [] [] 1 wal snap ⟨{ empty config metric with wal := some w }, []⟩ where
  follows := (follows_empty hvalid hmetric).frame (sameState_of_eq rfl) rfl
  configured := rfl
  bounded := .inl rfl
  writer := ⟨w, rfl, h.near, .inr ⟨rfl, h⟩⟩
  captured input hinput := by cases hinput

end Create

/-! ## Bulk loading -/

/-- One record for each key, with its row. -/
def bulkContents (vectors : FlatVectors) (keys : List Bytes) : Contents :=
  (keys.zip vectors.rows).map fun (key, row) => (key, ⟨row, [], 0⟩)

section Bulk

variable {config : PartitionConfig} {metric : Metric} {vectors : FlatVectors} {keys : List Bytes}
  {index : Hnsw} {map : KeyMap} {slots : List SlotRecord} {levels : List UInt8}

/-- What a bulk load keeps in memory. -/
def loaded (config : PartitionConfig) (metric : Metric) (index : Hnsw) (keys : List Bytes) (map : KeyMap)
    (slots : List SlotRecord) : Partition :=
  { empty config metric with index, keyTable := keys, keys := map, slots }

/-- Every position has a live record of its own. -/
theorem slots_of_bulkRows (hok : bulkRows keys = .ok (map, slots)) :
    slots = (List.range keys.length).map fun slot => ⟨0, false, .ofNat slot, []⟩ := by
  induction keys using List.reverseRecOn generalizing map slots with
  | nil =>
    cases hok
    rfl
  | append_singleton keys last ih =>
    unfold bulkRows at hok
    rw [enumerate_append, List.foldlM_append] at hok
    obtain ⟨⟨map₀, slots₀⟩, hfront, hok⟩ := bind_eq_ok.1 hok
    obtain ⟨out, hstep, hlast⟩ := bind_eq_ok.1 hok
    cases hlast
    obtain ⟨-, hstep⟩ := guard_eq_ok.1 hstep
    cases hstep
    rw [ih hfront, List.length_append, List.length_singleton, List.range_succ, List.map_append]
    rfl

/-- Every key of a bulk load owns the row at its place. -/
theorem entryAt_loaded (hlen : keys.length ≤ 2 ^ 32) (hkeys : keys.length = vectors.len)
    (hok : bulkRows keys = .ok (map, slots)) (hvectors : index.vectors = vectors) {s : ℕ}
    (hs : s < keys.length) :
    (loaded config metric index keys map slots).entryAt s = (bulkContents vectors keys)[s]? := by
  have hread : slots[s]? = some ⟨0, false, .ofNat s, []⟩ := by
    rw [slots_of_bulkRows hok, List.getElem?_map, List.getElem?_range hs]
    rfl
  have hkey : keys[s]? = some keys[s] := List.getElem?_eq_getElem hs
  have howner : (loaded config metric index keys map slots).owner s = some keys[s] := by
    refine owner_eq_some.2 ⟨_, hread, rfl, ?_⟩
    show keys[(UInt32.ofNat s).toNat]? = some keys[s]
    rw [UInt32.toNat_ofNat_of_lt' (hs.trans_le hlen), hkey]
  have hlt : s < vectors.rows.length := hs.trans_eq hkeys
  have hrow : vectors.rows[s]? = some vectors.rows[s] := List.getElem?_eq_getElem hlt
  have hget : (loaded config metric index keys map slots).index.vectors.get s = some vectors.rows[s] := by
    show index.vectors.rows[s]? = _
    rw [hvectors, hrow]
  have hslot : (loaded config metric index keys map slots).slots[s]? = some ⟨0, false, .ofNat s, []⟩ :=
    hread
  rw [entryAt, howner, hslot, hget, bulkContents, List.getElem?_map, List.zip, List.getElem?_zipWith,
    hkey, hrow]
  rfl

theorem filterMap_getElem?_range {α : Type} (l : List α) :
    (List.range l.length).filterMap (l[·]?) = l := by
  induction l using List.reverseRecOn with
  | nil => rfl
  | append_singleton l a ih =>
    have hfront : (List.range l.length).filterMap ((l ++ [a])[·]?) = l := by
      rw [List.filterMap_congr fun i hi => List.getElem?_append_left (List.mem_range.1 hi), ih]
    rw [List.length_append, List.length_singleton, List.range_succ, List.filterMap_append, hfront]
    simp

theorem contents_loaded (hlen : keys.length ≤ 2 ^ 32) (hkeys : keys.length = vectors.len)
    (hok : bulkRows keys = .ok (map, slots)) (hvectors : index.vectors = vectors) :
    (loaded config metric index keys map slots).contents = bulkContents vectors keys := by
  have hcount : slots.length = keys.length := by simp [slots_of_bulkRows hok]
  have hlength : (bulkContents vectors keys).length = keys.length := by
    have : vectors.rows.length = keys.length := hkeys.symm
    simp [bulkContents, this]
  have hentries : (List.range keys.length).filterMap
      (loaded config metric index keys map slots).entryAt =
        (List.range keys.length).filterMap ((bulkContents vectors keys)[·]?) :=
    List.filterMap_congr fun s hs => entryAt_loaded hlen hkeys hok hvectors (List.mem_range.1 hs)
  show (List.range slots.length).filterMap _ = _
  rw [hcount, hentries, ← hlength]
  exact filterMap_getElem?_range _

theorem follows_loaded (hvalid : config.validate = .ok ()) (hmetric : config.metricOf = .ok metric)
    (hlen : keys.length ≤ 2 ^ 32) (hkeys : keys.length = vectors.len)
    (hdims : vectors.dims = config.dims) (hok : bulkRows keys = .ok (map, slots))
    (hbuilt : BuiltOver ⟨metric, vectors, config.params⟩ levels index)
    (hnames : ∀ key ∈ keys, 0 < key.length ∧ key.length ≤ 65535) :
    (loaded config metric index keys map slots).Follows ⟨bulkContents vectors keys, keys.length⟩ [] := by
  have hrep : (loaded config metric index keys map slots).Rep :=
    rep_bulk hvalid hmetric hlen hkeys hdims hok hbuilt
  have hslots := slots_of_bulkRows hok
  have hcount : slots.length = keys.length := by simp [hslots]
  have hfresh (record : SlotRecord) (hrecord : record ∈ slots) :
      record.version = 0 ∧ record.payload = [] := by
    rw [hslots] at hrecord
    obtain ⟨s, -, rfl⟩ := List.mem_map.1 hrecord
    exact ⟨rfl, rfl⟩
  have hversion (version : ℕ) (hmem : version ∈ slots.map SlotRecord.version) : version = 0 := by
    obtain ⟨record, hrecord, rfl⟩ := List.mem_map.1 hmem
    exact (hfresh record hrecord).1
  obtain ⟨-, -, -, -, -, -, -, hwindow⟩ := PartitionConfig.validate_eq_ok hvalid
  refine ⟨⟨rfl, ?_, ?_, Nat.max_eq_left hwindow⟩, hrep, ⟨?_, fun version hmem => ?_⟩, hbuilt.topped,
    ⟨hcount.le, le_rfl, fun key hkey => hnames key hkey, fun record hrecord => ?_⟩⟩
  · exact contents_loaded hlen hkeys hok hbuilt.vectors
  · rw [recent, List.rtake_nil]
    exact IdempotencyWindow.remembers_new _
  · refine List.pairwise_iff_forall_sublist.2 fun {a b} hab => ?_
    rw [hversion a (hab.subset List.mem_cons_self)]
    exact Nat.zero_le b
  · rw [hversion version hmem]
    exact Nat.zero_le _
  · rw [(hfresh record hrecord).2]
    exact Nat.zero_le _

/-- Only the keys of the vectors count. -/
theorem bulkContents_take : bulkContents vectors (keys.take vectors.len) = bulkContents vectors keys := by
  have hzip : (keys.take vectors.rows.length).zip (vectors.rows.take vectors.rows.length) =
      keys.zip vectors.rows := by
    rw [List.zip, ← List.take_zipWith, List.take_of_length_le]
    rw [List.length_zipWith]
    exact Nat.min_le_right _ _
  rw [List.take_length] at hzip
  rw [bulkContents, bulkContents, ← hzip]
  rfl

end Bulk

section Load

variable [Digests] {config : PartitionConfig} {metric : Metric} {vectors : FlatVectors}
  {keys : List Bytes} {index : Hnsw} {p q : Partition} {d d' : Disk} {snap snap' : Device} {path : ℕ}

/-- A snapshot has only keys that can be stored. -/
theorem names_of_encode {input : SnapshotInput} {bytes : Bytes} (h : encode input = .ok bytes) :
    ∀ key ∈ input.keys, 0 < key.1.length ∧ key.1.length ≤ 65535 := by
  unfold encode at h
  split at h
  · cases h
  split at h
  · cases h
  rename_i hkeys
  intro key hkey
  have hnot : ¬(key.1.length = 0 ∨ key.1.length > 65535) := fun hbad =>
    hkeys (List.any_eq_true.2 ⟨key, hkey, decide_eq_true hbad⟩)
  omega

theorem encodes_of_snapshot (hok : p.snapshot snap = (.ok path, q, snap')) :
    ∃ bytes, encode p.snapshotInput = .ok bytes := by
  unfold snapshot at hok
  split at hok
  · cases hok
  rename_i path' snap'' hwrite
  have hwritten : Written (fun _ => True) p.snapshotInput snap (.ok path', snap'') := by
    rw [← hwrite]
    exact writeWithHook_spec trivial (fun _ _ => trivial) _
  obtain ⟨-, bytes, hencode, -⟩ := hwritten.path path' rfl
  exact ⟨bytes, hencode⟩

/-- A bulk load creates the partition, fills it, and stores it. -/
theorem bulkLoad_eq_ok (hok : bulkLoad d config vectors keys index = (.ok (p, path), d')) :
    ∃ p₀ d₀ map slots, create d { config with baseSnapshot := true } = (.ok p₀, d₀) ∧
      vectors.dims = p₀.config.dims ∧ bulkRows (keys.take vectors.len) = .ok (map, slots) ∧
      (keys.take vectors.len).length = vectors.len ∧
      snapshot { p₀ with index, keyTable := keys.take vectors.len, keys := map, slots } d₀.snap =
        (.ok path, p, d'.snap) ∧ d'.wal = d₀.wal := by
  unfold bulkLoad at hok
  split at hok
  · cases hok
  rename_i p₀ d₀ hcreate
  split at hok
  · cases hok
  rename_i hdims
  dsimp only at hok
  split at hok
  · cases hok
  rename_i map slots hrows
  split at hok
  · cases hok
  rename_i hlen
  split at hok
  · cases hok
  rename_i path' q snap hsnapshot
  cases hok
  exact ⟨p₀, d₀, map, slots, hcreate, not_not.1 hdims, hrows, not_not.1 hlen, hsnapshot, rfl⟩

/-- The first snapshot of a partition without history. -/
theorem rooted_first {o : Origin} {snap : Dir Bytes} (hempty : snap = Dir.empty) (hp : p.Follows o [])
    (hconfig : p.Configured config) {bytes : Bytes} (hencode : encode p.snapshotInput = .ok bytes) :
    Rooted config o [] 1 (snap.put p.highWater bytes) where
  image n content hfile := by
    rcases Dir.mem_put.1 hfile with ⟨rfl, rfl⟩ | ⟨-, hfile⟩
    · rw [hp.highWater]
      exact ⟨le_rfl, p, hp, hconfig, hencode⟩
    · rw [hempty] at hfile
      cases hfile
  covered := .inl rfl
  origin hnil := by
    have hmem : (p.highWater, bytes) ∈ (snap.put p.highWater bytes).files :=
      Dir.mem_put.2 (.inl ⟨rfl, rfl⟩)
    rw [hnil] at hmem
    cases hmem

theorem rooted_of_first {o : Origin} (hempty : snap.files = Dir.empty) (hp : p.Follows o [])
    (hconfig : p.Configured config) (hroom : o.count < 2 ^ 32)
    (hok : p.snapshot snap = (.ok path, q, snap')) :
    Rooted config o [] 1 snap'.files ∧ q.Follows o [] ∧ SameConfig q p ∧ q.wal = p.wal ∧
      (q.snapshotHighWater = p.snapshotHighWater ∨ q.snapshotHighWater ∈ snap'.files.names) := by
  have hsnapped :
      Snapshotted (fun m => m = Dir.empty ∨ Rooted config o [] 1 m) p snap (p.snapshot snap) :=
    hp.snapshotted hroom (fun e he => absurd he List.not_mem_nil) (.inl hempty)
      fun bytes hencode => .inr (rooted_first hempty hp hconfig hencode)
  obtain ⟨hfollows, hsame, hwal, -⟩ := hsnapped.follows hp
  rw [hok] at hsnapped hfollows hsame hwal
  have hnamed := hsnapped.named path rfl
  refine ⟨?_, hfollows, hsame, hwal, ?_⟩
  · rcases hsnapped.through.files with hnone | hrooted
    · rw [hnone] at hnamed
      cases hnamed
    · exact hrooted
  · rcases hsnapped.bounded with hmark | ⟨hmark, hname⟩
    · exact .inl hmark
    · rw [hmark]
      exact .inr hname

/-- What a bulk load of new directories leaves. -/
theorem serving_bulkLoad (hmetric : config.metricOf = .ok metric)
    (hbuilds : BuildsParallel vectors metric config.params index) (hroom : vectors.len < 2 ^ 32)
    (hwal : d.wal.files = Dir.empty) (hsnap : d.snap.files = Dir.empty)
    (hok : bulkLoad d config vectors keys index = (.ok (p, path), d')) :
    Created { config with baseSnapshot := true } d (create d { config with baseSnapshot := true }) ∧
    Held { config with baseSnapshot := true } ⟨bulkContents vectors keys, vectors.len⟩ [] [] 1
        d'.wal.files d'.snap.files ∧
      Serving { config with baseSnapshot := true } ⟨bulkContents vectors keys, vectors.len⟩ [] [] 1
        d'.wal.files d'.snap.files ⟨p, []⟩ := by
  obtain ⟨p₀, d₀, map, slots, hcreate, hdims, hrows, hlen, hsnapshot, hsame⟩ := bulkLoad_eq_ok hok
  obtain ⟨hnew, hwritten⟩ := manifest_of_create hcreate
  have hcreated := created_of_create hwal hnew (by rw [hcreate]; exact hwritten)
  refine ⟨hcreated, ?_⟩
  rw [hcreate] at hcreated
  obtain ⟨metric', w, hmetric', rfl, hstanding⟩ := hcreated.ok p₀ rfl
  cases hmetric.symm.trans hmetric'
  obtain ⟨-, -, -, -, hm, hm0, -⟩ := PartitionConfig.validate_eq_ok hcreated.valid
  have hbuilt := builtOver_of_buildsParallel (show config.params.m ≤ 255 from hm.trans hm0) hm0
    hroom.le hbuilds
  obtain ⟨bytes, hencode⟩ := encodes_of_snapshot hsnapshot
  have hnames (key : Bytes) (hkey : key ∈ keys.take vectors.len) :
      0 < key.length ∧ key.length ≤ 65535 :=
    names_of_encode hencode _ (List.mem_map_of_mem hkey)
  have hfollows := follows_loaded hcreated.valid hmetric' (hlen.trans_le hroom.le) hlen hdims hrows hbuilt
    hnames
  rw [bulkContents_take, hlen] at hfollows
  have hfollows : ({ empty { config with baseSnapshot := true } metric with
      wal := some w, index, keyTable := keys.take vectors.len, keys := map, slots } : Partition).Follows
        ⟨bulkContents vectors keys, vectors.len⟩ [] := hfollows.frame (sameState_of_eq rfl) rfl
  have hconfig : ({ empty { config with baseSnapshot := true } metric with
      wal := some w, index, keyTable := keys.take vectors.len, keys := map, slots } : Partition).Configured
        { config with baseSnapshot := true } := by
    unfold Configured
    rfl
  have hempty : d₀.snap.files = Dir.empty := by
    rw [show d₀.snap = d.snap from hcreated.snap, hsnap]
  obtain ⟨hrooted, hfollows, hsame', hkept, hmark⟩ :=
    rooted_of_first hempty hfollows hconfig hroom hsnapshot
  have hstanding : Standing { config with baseSnapshot := true }.id 1 [] w d'.wal.files := by
    rw [hsame]
    exact hstanding
  exact ⟨⟨ledger_nil, hroom, Nat.one_pos, hrooted, hstanding.remains⟩, hfollows, hconfig.same hsame',
    hmark, ⟨w, hkept, hstanding.near, .inr ⟨rfl, hstanding⟩⟩, fun input hinput => by cases hinput⟩

end Load

end Partition

end Index

end DistrHnsw
