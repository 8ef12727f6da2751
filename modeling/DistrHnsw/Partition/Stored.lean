import DistrHnsw.Index.Loaded
import DistrHnsw.Index.RoundTrip
import DistrHnsw.Partition.Contents
import DistrHnsw.Partition.Steps

/-!
# A partition in a snapshot file

The snapshot of a partition that follows a log is encoded, its file is shorter than 2⁶⁴ bytes while
fewer than 2³² slots were ever filled, and what is loaded from it follows the same log: with the rows
mapped from the file, both in the process that wrote it and in the one that opens it.
-/

namespace DistrHnsw

namespace Index

open Reader (u32ToLe u64ToLe)
open Wal (Entry)

/-- Only the shape of the rows matters to the lists. -/
theorem Hnsw.Topped.remapped {g : Hnsw} (h : g.Topped) {vectors : FlatVectors}
    (hlen : vectors.len = g.vectors.len) (hdims : vectors.dims = g.vectors.dims) :
    ({ g with vectors } : Hnsw).Topped :=
  { h with
    vectors := hlen.trans h.vectors
    quantized := by
      show g.quantized.Shaped vectors.dims _
      rw [hdims]
      exact h.quantized }

namespace Partition

variable {p p' : Partition} {o : Origin} {es : List Entry}

/-! ## What is captured -/

theorem rows_mapped {input : SnapshotInput} (hdims : input.vectors.dims = input.dims) :
    (input.mapped hdims).rows = input.vectors.rows := FlatVectors.rows_fromMapped _

theorem Rep.index_snapshotInput (h : p.Rep) : p.snapshotInput.index = p.index := by
  have hmetric := h.metric
  show Hnsw.mk p.index.toGraphParts p.index.params p.metric p.index.vectors p.index.quantized = p.index
  rw [← hmetric]

/-- A key in the file and its live slot. -/
theorem getElem?_snapshotKeys {i : ℕ} {key : Bytes} {slot : Slot} :
    p.snapshotInput.keys[i]? = some (key, slot) ↔
      p.keyTable[i]? = some key ∧ (p.slotForKey key).getD noSlot = slot := by
  show (p.keyTable.map _)[i]? = _ ↔ _
  rw [List.getElem?_map, Option.map_eq_some_iff]
  constructor
  · rintro ⟨k, hk, heq⟩
    cases heq
    exact ⟨hk, rfl⟩
  · rintro ⟨hk, rfl⟩
    exact ⟨key, hk, rfl⟩

theorem map_fst_snapshotKeys : p.snapshotInput.keys.map Prod.fst = p.keyTable := by
  show (p.keyTable.map _).map _ = _
  rw [List.map_map]
  exact List.map_id' p.keyTable

theorem Rep.consistent (h : p.Rep) (ht : p.index.Topped) :
    Consistent p.index p.snapshotInput.keys p.slots where
  inRange := ht.toLinked.inRange
  levels := ht.levels
  entry slot hslot := by
    have hon := ht.entry slot hslot
    exact ⟨hon.1, Nat.le_antisymm (ht.top slot hon.1) hon.2⟩
  empty := ht.empty
  tombstones {s record} hread := by
    rw [h.bits, retired, hread]
    rfl
  owner {s record} hread := by
    show _ < (p.keyTable.map _).length
    rw [List.length_map]
    exact h.keyIndex record (List.mem_of_getElem? hread)
  count := by rw [h.count, List.countP_eq_length_filter]
  live {i key slot} hkey hne := by
    obtain ⟨htable, hslot⟩ := getElem?_snapshotKeys.1 hkey
    cases hlive : p.slotForKey key with
    | none =>
      rw [hlive] at hslot
      exact absurd hslot.symm hne
    | some live =>
      rw [hlive] at hslot
      obtain rfl : live = slot := hslot
      obtain ⟨record, hread, hclear, hindex⟩ := owner_eq_some.1 ((h.live key live).1 hlive)
      refine ⟨record, hread, hclear, ?_⟩
      obtain ⟨hlt, hat⟩ := List.getElem?_eq_some_iff.1 hindex
      obtain ⟨hlt', hat'⟩ := List.getElem?_eq_some_iff.1 htable
      exact h.distinct.getElem_inj_iff.1 (hat.trans hat'.symm)

/-- The last slot number stands for no slot. -/
theorem Follows.slot_ne (h : p.Follows o es) (hroom : o.count + es.length < 2 ^ 32) {key : Bytes}
    {slot : Slot} (hlive : p.slotForKey key = some slot) : slot ≠ noSlot := by
  rintro rfl
  have hlt := h.rep.slot_lt hlive
  have hle := h.sized.slots
  have hnone : noSlot.toNat = 2 ^ 32 - 1 := by decide
  omega

theorem Follows.encodable (h : p.Follows o es) (hroom : o.count + es.length < 2 ^ 32)
    (hseq : ∀ e ∈ es, e.seq < 2 ^ 64) : p.snapshotInput.Encodable := by
  obtain ⟨-, hdims, hwide, hm, hm0, -, hef, -⟩ := PartitionConfig.validate_eq_ok h.rep.config
  have hindex := h.rep.index_snapshotInput
  have hparams := h.rep.params
  have hhigh : p.highWater < 2 ^ 64 := by
    rw [h.highWater]
    omega
  have hm' : p.index.params.m = p.config.m := by rw [hparams]; rfl
  have hm0' : p.index.params.m0 = p.config.m0 := by rw [hparams]; rfl
  have hef' : p.index.params.efConstruction = p.config.efConstruction := by rw [hparams]; rfl
  refine { shaped := ?_, slots := ?_, dims := h.rep.dims, dims_pos := hdims, dims_lt := ?_, m := ?_,
           m0 := ?_, efConstruction := ?_, highWater := hhigh, version := fun record hrecord => ?_,
           seq := fun entry hentry => ?_, consistent := ?_, key_pos := fun key hkey => ?_,
           key_le := fun key hkey => ?_ }
  · rw [hindex]
    exact h.rep.shaped
  · rw [hindex]
    exact h.rep.slots
  · show p.config.dims < 2 ^ 32
    unfold Wal.maxDims at hwide
    omega
  · show 0 < p.index.params.m
    omega
  · show 0 < p.index.params.m0
    omega
  · show p.index.params.efConstruction < 2 ^ 32
    unfold maxEf at hef
    omega
  · exact (h.versioned.bounded record.version (List.mem_map_of_mem hrecord)).trans_lt hhigh
  · have hentry : entry ∈ p.idempotency.entries := hentry
    rw [h.window.entries] at hentry
    obtain ⟨e, he, rfl⟩ := List.mem_map.1 hentry
    exact hseq e (List.mem_of_mem_drop he)
  · rw [hindex]
    exact h.rep.consistent h.topped
  · have hkey := List.mem_map_of_mem (f := Prod.fst) hkey
    rw [map_fst_snapshotKeys] at hkey
    exact (h.sized.key key.1 hkey).1
  · have hkey := List.mem_map_of_mem (f := Prod.fst) hkey
    rw [map_fst_snapshotKeys] at hkey
    exact (h.sized.key key.1 hkey).2

theorem Follows.countable (h : p.Follows o es) (hroom : o.count + es.length < 2 ^ 32) :
    p.snapshotInput.Countable where
  slots := h.sized.slots.trans_lt hroom
  keys := by
    show (p.keyTable.map _).length < 2 ^ 32
    rw [List.length_map]
    exact h.sized.keyTable.trans_lt hroom
  idempotency := by
    show p.idempotency.entries.length < 2 ^ 32
    rw [h.window.entries, length_recent]
    omega

theorem Follows.short (h : p.Follows o es) : p.snapshotInput.Short := fun record hrecord =>
  (h.sized.payload record hrecord).trans_lt (by decide)

theorem Follows.exclusive (h : p.Follows o es) (hroom : o.count + es.length < 2 ^ 32) :
    p.snapshotInput.Exclusive where
  distinct := by
    rw [map_fst_snapshotKeys]
    exact h.rep.distinct
  owned := by
    refine (h.rep.consistent h.topped).owned_iff.2 fun s record hread hclear => ?_
    have hkey := h.rep.keyIndex record (List.mem_of_getElem? hread)
    have htable := List.getElem?_eq_getElem hkey
    have howner : p.owner s = some p.keyTable[record.keyIndex.toNat] :=
      owner_eq_some.2 ⟨record, hread, hclear, htable⟩
    obtain ⟨slot, hlive, rfl⟩ := Option.map_eq_some_iff.1 ((h.rep.owner_eq_some_iff howner).2 rfl)
    refine ⟨_, slot, getElem?_snapshotKeys.2 ⟨htable, ?_⟩, h.slot_ne hroom hlive, rfl⟩
    rw [hlive]
    rfl
  clear s hs := by
    have hs : p.slots.length ≤ s := hs
    show testBit p.index.tombstones s = false
    rw [h.rep.bits, retired, List.getElem?_eq_none hs]
    rfl

/-! ## The length of the file -/

theorem length_flatMap_le {α β : Type} {f : α → List β} {bound : ℕ} {l : List α}
    (h : ∀ a ∈ l, (f a).length ≤ bound) : (l.flatMap f).length ≤ l.length * bound := by
  induction l with
  | nil => exact Nat.zero_le _
  | cons a l ih =>
    rw [List.flatMap_cons, List.length_append, List.length_cons, Nat.succ_mul, Nat.add_comm]
    exact Nat.add_le_add (ih fun b hb => h b (List.mem_cons_of_mem a hb)) (h a List.mem_cons_self)

theorem length_recordsToLe {slots : List SlotRecord} {offset : ℕ} :
    (recordsToLe offset slots).length = slots.length * 25 := by
  induction slots generalizing offset with
  | nil => rfl
  | cons record slots ih =>
    simp only [recordsToLe, List.length_append, length_toLeBytes, u32ToLe, List.length_nil,
      List.length_cons, ih]
    omega

theorem length_listsToLe_le {level : UInt8} {lists : List UInt8 × List Slot} {m : ℕ} (hm : m ≤ 255)
    (hlevel : level.toNat ≤ 31) (hlens : lists.1.length = level.toNat)
    (hlinks : lists.2.length = level.toNat * m) : (listsToLe level lists).length ≤ 32000 := by
  unfold listsToLe
  split
  · exact Nat.zero_le _
  · rw [List.length_append, length_slotsToLe, hlens, hlinks]
    have := Nat.mul_le_mul hlevel hm
    omega

theorem length_uppers_le {m : ℕ} {levels : List UInt8} {lists : List (List UInt8 × List Slot)}
    (hm : m ≤ 255) (hlevels : ∀ level ∈ levels, level.toNat ≤ 31)
    (h : List.Forall₂ (fun level l => l.1.length = level.toNat ∧ l.2.length = level.toNat * m)
      levels lists) :
    (levels.zipWith listsToLe lists).flatten.length ≤ levels.length * 32000 := by
  induction h with
  | nil => exact Nat.zero_le _
  | cons hfirst _ ih =>
    have hlist := length_listsToLe_le hm (hlevels _ List.mem_cons_self) hfirst.1 hfirst.2
    have hrest := ih fun level hlevel => hlevels level (List.mem_cons_of_mem _ hlevel)
    simp only [List.zipWith_cons_cons, List.flatten_cons, List.length_append, List.length_cons]
    omega

/-- The graph section takes a bounded number of bytes for each slot. -/
theorem length_graphToLe_le {g : Hnsw} (h : g.Topped) {bytes : Bytes}
    (hbytes : graphToLe g.params g.len g.graphParts = .ok bytes) :
    bytes.length ≤ 33 + g.len * 33031 + 8 := by
  rw [graphToLe_eq h.toShaped] at hbytes
  cases hbytes
  have hlists : (g.levels.zipWith listsToLe (g.upperLen.zip g.upper)).flatten.length ≤
      g.len * 32000 := length_uppers_le h.m_le h.levels h.uppers
  have hlevels : g.levels.length = g.len := rfl
  have hlens := h.level0Len
  have hlevel0 : (slotsToLe g.level0).length ≤ g.len * 1020 := by
    rw [length_slotsToLe, h.level0, Nat.mul_assoc]
    have := h.m0_le
    exact Nat.mul_le_mul_left _ (by omega)
  have hwords : (g.tombstones.flatMap u64ToLe).length ≤ g.tombstones.length * 8 :=
    length_flatMap_le fun word _ => by simp [u64ToLe]
  have htombstones := h.tombstones
  simp only [List.length_append, length_toLeBytes, u64ToLe, u32ToLe, List.length_singleton] at hwords ⊢
  omega

section

variable [Digests]

/-- A snapshot of fewer than 2³² slots is far shorter than its 64-bit lengths allow. -/
theorem Follows.length_lt (h : p.Follows o es) (hroom : o.count + es.length < 2 ^ 32)
    (hseq : ∀ e ∈ es, e.seq < 2 ^ 64) {bytes : Bytes} (hencode : encode p.snapshotInput = .ok bytes) :
    bytes.length < 2 ^ 64 := by
  obtain ⟨-, -, hwide, -⟩ := PartitionConfig.validate_eq_ok h.rep.config
  obtain ⟨graph, hgraph, hfile⟩ := encode_eq (h.encodable hroom hseq)
  cases hfile.symm.trans hencode
  have hslots := h.sized.slots
  have hgraphLen : graph.length ≤ 33 + p.index.len * 33031 + 8 := by
    refine length_graphToLe_le h.topped ?_
    rw [← h.rep.slots]
    exact hgraph
  have hkeys : (p.snapshotInput.keys.flatMap keyToLe).length ≤ p.keyTable.length * 65541 := by
    have hle : (p.snapshotInput.keys.flatMap keyToLe).length ≤ p.snapshotInput.keys.length * 65541 :=
      length_flatMap_le fun key hkey => by
        have hkey := List.mem_map_of_mem (f := Prod.fst) hkey
        rw [map_fst_snapshotKeys] at hkey
        have := (h.sized.key key.1 hkey).2
        simp only [keyToLe, List.length_append, length_toLeBytes, u32ToLe]
        omega
    have hlen := congrArg List.length (map_fst_snapshotKeys (p := p))
    rw [List.length_map] at hlen
    rwa [hlen] at hle
  have hpayloads : (p.slots.flatMap SlotRecord.payload).length ≤ p.slots.length * 65536 :=
    length_flatMap_le fun record hrecord => h.sized.payload record hrecord
  have hrows : (p.index.vectors.rows.flatMap F32.manyToLe).length ≤ p.slots.length * 262144 := by
    have hlen : p.index.vectors.rows.length = p.slots.length := h.rep.rows
    rw [← hlen]
    refine length_flatMap_le fun row hrow => ?_
    have hwidth : row.length = p.config.dims := (p.index.vectors.width_rows hrow).trans h.rep.dims
    unfold Wal.maxDims at hwide
    rw [F32.length_manyToLe]
    omega
  have hdata : p.index.quantized.data.length ≤ p.slots.length * 65536 := by
    have hdims : p.index.vectors.dims = p.config.dims := h.rep.dims
    rw [h.rep.shaped.quantized.data, ← h.rep.slots, hdims]
    exact Nat.mul_le_mul_left _ hwide
  have hscales : p.index.quantized.scales.length = p.slots.length :=
    h.rep.shaped.quantized.scales.trans h.rep.slots.symm
  have hnorms : p.index.quantized.normsSq.length = p.slots.length :=
    h.rep.shaped.quantized.normsSq.trans h.rep.slots.symm
  have hids : (p.idempotency.entries.flatMap idempotentToLe).length ≤ es.length * 24 := by
    have hle : (p.idempotency.entries.flatMap idempotentToLe).length ≤
        p.idempotency.entries.length * 24 :=
      length_flatMap_le fun entry _ => by
        rw [idempotentToLe, List.length_append, entry.1.2, length_toLeBytes]
    have hcount : p.idempotency.entries.length ≤ es.length := by
      rw [h.window.entries, length_recent]
      exact Nat.min_le_left _ _
    exact hle.trans (Nat.mul_le_mul_right _ hcount)
  have hlens : (p.snapshotInput.sections graph).map (fun s => s.2.length) =
      [(p.snapshotInput.keys.flatMap keyToLe).length, (recordsToLe 0 p.slots).length,
        (p.slots.flatMap SlotRecord.payload).length,
        (p.index.vectors.rows.flatMap F32.manyToLe).length,
        (F32.manyToLe p.index.quantized.scales ++ F32.manyToLe p.index.quantized.normsSq ++
          p.index.quantized.data.map Int8.toUInt8).length,
        graph.length, (p.idempotency.entries.flatMap idempotentToLe).length] := rfl
  have hlen := h.rep.slots
  have hkeyTable := h.sized.keyTable
  have hfirst : firstSection = 512 := by decide
  have hfooter : footerLen = 32 := rfl
  rw [length_file_eq_sum, hlens]
  simp only [List.map_cons, List.map_nil, List.sum_cons, List.sum_nil, alignUp, align,
    List.length_append, F32.length_manyToLe, List.length_map, length_recordsToLe]
  omega

/-! ## Writing -/

/-- The outcomes of writing a snapshot: the directory has it, or is as it was. -/
structure Written (P : Dir Bytes → Prop) (input : SnapshotInput) (snap : Device)
    (out : Except SnapshotError ℕ × Device) : Prop where
  through : snap.Through P out.2
  path (path : ℕ) : out.1 = .ok path → path = input.highWater ∧
    ∃ bytes, encode input = .ok bytes ∧ out.2.files = snap.files.put input.highWater bytes

theorem Written.failed {P : Dir Bytes → Prop} {input : SnapshotInput} {snap snap' : Device}
    (e : SnapshotError) (h : snap.Through P snap') : Written P input snap (.error e, snap') :=
  ⟨h, fun path hpath => by cases hpath⟩

theorem writeWithHook_spec {P : Dir Bytes → Prop} {input : SnapshotInput} {snap : Device}
    (hold : P snap.files)
    (hnew : ∀ bytes, encode input = .ok bytes → P (snap.files.put input.highWater bytes))
    (proceed : Bool) : Written P input snap (writeWithHook snap input proceed) := by
  unfold writeWithHook
  have hopened : snap.Through P snap.touch.2 := .touch hold
  refine Device.orFail_rule (Q := Written P input snap) (fun _ => .failed _ hopened) fun _ => ?_
  cases hencode : encode input with
  | error e => exact .failed _ hopened
  | ok bytes =>
    dsimp only
    have hwritten : snap.Through P snap.touch.2.touch.2 := hopened.trans (.touch hopened.files)
    refine Device.orFail_rule (Q := Written P input snap) (fun _ => .failed _ hwritten) fun _ => ?_
    have hsynced : snap.Through P snap.touch.2.touch.2.touch.2 :=
      hwritten.trans (.touch hwritten.files)
    refine Device.orFail_rule (Q := Written P input snap) (fun _ => .failed _ hsynced) fun _ => ?_
    split
    · exact .failed _ hsynced
    have hfiles : snap.touch.2.touch.2.touch.2.files = snap.files := by
      rw [Device.touch_files, Device.touch_files, Device.touch_files]
    generalize snap.touch.2.touch.2.touch.2 = synced at hsynced hfiles
    have hswap := synced.swaps_rename input.highWater bytes
    rw [hfiles] at hswap
    have hrenamed : snap.Through P (synced.rename input.highWater bytes).2 :=
      hsynced.trans (.swap hswap hsynced.files (hnew bytes hencode))
    refine Device.orFail_rule (Q := Written P input snap) (fun _ => .failed _ hrenamed) fun hdone => ?_
    have hput : (synced.rename input.highWater bytes).2.files =
        snap.files.put input.highWater bytes := by
      rcases hswap with ⟨hno, -⟩ | ⟨-, hput, -⟩
      · rw [hdone] at hno
        cases hno
      · exact hput
    have htouched := hrenamed.trans (.touch hrenamed.files)
    refine Device.orFail_rule (Q := Written P input snap) (fun _ => .failed _ htouched) fun _ => ?_
    refine ⟨htouched, fun path hpath => ?_⟩
    cases hpath
    exact ⟨rfl, bytes, hencode, (Device.touch_files _).trans hput⟩

omit [Digests] in
/-- Serving the same rows from elsewhere. -/
theorem Follows.remapped (h : p.Follows o es) {vectors : FlatVectors}
    (hrows : vectors.rows = p.index.vectors.rows) (hdims : vectors.dims = p.index.vectors.dims)
    (mark : ℕ) :
    ({ p with index := { p.index with vectors }, snapshotHighWater := mark } : Partition).Follows
      o es := by
  have hlen : vectors.len = p.index.vectors.len := congrArg List.length hrows
  have hremapped : p.Remapped { p with index := { p.index with vectors }, snapshotHighWater := mark } :=
    ⟨vectors, mark, hdims, hlen, rfl⟩
  refine ⟨⟨h.highWater, ?_, h.window, h.capacity⟩, hremapped.rep h.rep, hremapped.versioned h.versioned,
    ?_, h.sized.congr rfl rfl⟩
  · refine Eq.trans ?_ h.contents
    exact contents_congr rfl rfl hrows
  · exact h.topped.remapped hlen hdims

/-- What a snapshot leaves: the directory without the file or with it, and a partition that serves
the same. -/
structure Snapshotted (P : Dir Bytes → Prop) (p : Partition) (snap : Device)
    (out : Except PartitionError ℕ × Partition × Device) : Prop where
  through : snap.Through P out.2.2
  partition : out.2.1 = p ∨ ∃ vectors mark, vectors.rows = p.index.vectors.rows ∧
    vectors.dims = p.index.vectors.dims ∧
      out.2.1 = { p with index := { p.index with vectors }, snapshotHighWater := mark }
  bounded : out.2.1.snapshotHighWater = p.snapshotHighWater ∨
    out.2.1.snapshotHighWater = p.highWater ∧ p.highWater ∈ out.2.2.files.names
  named (path : ℕ) : out.1 = .ok path → p.highWater ∈ out.2.2.files.names

theorem Follows.snapshotted (h : p.Follows o es) (hroom : o.count + es.length < 2 ^ 32)
    (hseq : ∀ e ∈ es, e.seq < 2 ^ 64) {P : Dir Bytes → Prop} {snap : Device} (hold : P snap.files)
    (hnew : ∀ bytes, encode p.snapshotInput = .ok bytes → P (snap.files.put p.highWater bytes)) :
    Snapshotted P p snap (p.snapshot snap) := by
  have hwritten : Written P p.snapshotInput snap (writeWithHook snap p.snapshotInput
      (decide (p.failpoint ≠ some .snapshotBeforeRename))) := writeWithHook_spec hold hnew _
  unfold snapshot
  generalize writeWithHook snap p.snapshotInput _ = written at hwritten
  obtain ⟨result, snap'⟩ := written
  cases result with
  | error e => exact ⟨hwritten.through, .inl rfl, .inl rfl, fun path hpath => by cases hpath⟩
  | ok path =>
    obtain ⟨rfl, bytes, hencode, hfiles⟩ := hwritten.path path rfl
    have hmem : (p.highWater, bytes) ∈ snap'.files.files := by
      have hfiles : snap'.files = snap.files.put p.highWater bytes := hfiles
      rw [hfiles]
      exact Dir.mem_put.2 (.inl ⟨rfl, rfl⟩)
    have hname : p.highWater ∈ snap'.files.names := Dir.mem_names.2 ⟨bytes, hmem⟩
    have hinput := h.encodable hroom hseq
    have hmap : mapFile snap'.files p.snapshotInput.highWater p.config.id p.config.dims
        p.slots.length = .ok (p.snapshotInput.mapped hinput.dims) := by
      have hget : snap'.files.get? p.snapshotInput.highWater = some bytes := Dir.get?_eq_some.2 hmem
      unfold mapFile
      rw [hget]
      exact mapVectors_encode hinput (h.countable hroom) hencode (h.length_lt hroom hseq hencode)
    have hrows : (p.snapshotInput.mapped hinput.dims).rows = p.index.vectors.rows :=
      rows_mapped _
    have hdims : (p.snapshotInput.mapped hinput.dims).dims = p.index.vectors.dims :=
      h.rep.dims.symm
    have hreplace : p.index.replaceVectors (p.snapshotInput.mapped hinput.dims) =
        (true, { p.index with vectors := p.snapshotInput.mapped hinput.dims }) := by
      have hlen : (p.snapshotInput.mapped hinput.dims).len = p.index.vectors.len :=
        congrArg List.length hrows
      unfold Hnsw.replaceVectors
      rw [if_neg (by simp [hdims, hlen])]
    have hthrough := hwritten.through
    dsimp only at hthrough ⊢
    rw [hmap]
    dsimp only
    rw [hreplace]
    dsimp only
    split
    · exact ⟨hthrough, .inr ⟨_, _, hrows, hdims, rfl⟩, .inr ⟨rfl, hname⟩, fun _ _ => hname⟩
    · exact ⟨hthrough, .inr ⟨_, _, hrows, hdims, rfl⟩, .inr ⟨rfl, hname⟩, fun _ _ => hname⟩

/-! ## Loading -/

/-- A file that holds the snapshot of a partition that follows the log. -/
structure Image (config : PartitionConfig) (o : Origin) (es : List Entry) (bytes : Bytes) : Prop where
  written : ∃ q : Partition, q.Follows o es ∧
    q.config = { config with ramBudgetBytes := q.config.ramBudgetBytes } ∧
      encode q.snapshotInput = .ok bytes

/-- What is loaded from the file follows the log again. -/
theorem Image.loads {config : PartitionConfig} {metric : Metric} {bytes : Bytes}
    (himage : Image config o es bytes) (hmetric : config.metricOf = .ok metric)
    (hroom : o.count + es.length < 2 ^ 32) (hseq : ∀ e ∈ es, e.seq < 2 ^ 64) :
    ∃ s p, load bytes config.id = .ok s ∧ s.highWater = es.length ∧
      ofSnapshot config metric s = .ok p ∧ p.Follows o es ∧ p.config = config ∧
        p.snapshotHighWater = es.length := by
  obtain ⟨q, hq, hconfig, hencode⟩ := himage.written
  have hinput := hq.encodable hroom hseq
  have hcount := hq.countable hroom
  have hid : q.config.id = config.id := by rw [hconfig]
  have hdims : q.config.dims = config.dims := by rw [hconfig]
  have hparams : q.config.params = config.params := by
    rw [hconfig]
    rfl
  have hwindow : q.config.idempotencyWindow = config.idempotencyWindow := by rw [hconfig]
  have hmetrics : q.metric = metric := by
    have hof : config.metricOf = .ok q.metric := by
      have := hq.rep.metricOf
      rwa [hconfig] at this
    cases hof.symm.trans hmetric
    rfl
  have hload := load_encode hinput hcount hq.short hencode (hq.length_lt hroom hseq hencode)
  rw [show q.snapshotInput.partitionId = config.id from hid] at hload
  generalize hs : q.snapshotInput.loaded hinput.dims bytes.length = s at hload
  obtain ⟨hformed, hcountable, -, -⟩ := formed_of_load hload
  have hslots : s.slots = q.slots := by rw [← hs]; rfl
  have hkeys : s.keys = q.snapshotInput.keys := by rw [← hs]; rfl
  have htable : s.keys.map Prod.fst = q.keyTable := by rw [hkeys, map_fst_snapshotKeys]
  have hrows : s.vectors.rows = q.index.vectors.rows := by
    rw [← hs]
    exact rows_mapped hinput.dims
  have hmark : s.highWater = es.length := by
    rw [← hs]
    exact hq.highWater
  have hids : s.idempotency = recent config.idempotencyWindow es := by
    rw [← hs, ← hwindow]
    exact hq.window.entries
  have hsdims : s.dims = config.dims := by
    rw [← hs]
    exact hdims
  have hsmetric : s.metric = metric := by
    rw [← hs]
    exact hmetrics
  have hsparams : s.params = config.params := by
    rw [← hs, ← hparams]
    exact hq.rep.params
  have hparts : Hnsw.fromParts s.params metric s.vectors s.quantized s.graph = some s.index := by
    have := hformed.fromParts
    rwa [hsmetric] at this
  have hvalid : config.validate = .ok () := by
    have := hq.rep.config
    rw [hconfig] at this
    exact this
  have hok : ofSnapshot config metric s = .ok { empty config metric with
      index := s.index, keyTable := (keysOf s.keys).1, keys := (keysOf s.keys).2, slots := s.slots
      idempotency := .ofEntries config.idempotencyWindow s.idempotency
      highWater := s.highWater, snapshotHighWater := s.highWater } := by
    unfold ofSnapshot
    rw [if_neg (by simp [hsdims, hsmetric]), if_neg (not_not.2 hsparams), hparts]
  have hexclusive : s.Exclusive := by
    have := hq.exclusive hroom
    rw [← hs]
    exact ⟨this.distinct, this.owned, this.clear⟩
  have hsequenced : s.Sequenced := by
    rw [← hs]
    exact ⟨hq.versioned.ordered, hq.versioned.bounded⟩
  refine ⟨s, _, hload, hmark, hok, ?_, rfl, hmark⟩
  have hrep := rep_ofSnapshot hvalid hmetric hformed hcountable hexclusive hok
  have hversioned := versioned_ofSnapshot hsequenced hok
  have hfit : (recent config.idempotencyWindow es).length ≤ max config.idempotencyWindow 1 := by
    rw [length_recent]
    omega
  have hdistinct : ((recent config.idempotencyWindow es).map Prod.fst).Nodup := by
    rw [← hwindow]
    exact hq.window.distinct
  obtain ⟨hremembers, hcapacity⟩ := IdempotencyWindow.remembers_ofEntries hdistinct hfit
  have hpos := hq.window_pos
  refine ⟨⟨hmark, ?_, ?_, ?_⟩, hrep, hversioned, ?_, hq.sized.congr hslots htable⟩
  · refine (contents_congr hslots htable hrows).trans ?_
    rw [hq.contents, hmetrics]
    rfl
  · show (IdempotencyWindow.ofEntries config.idempotencyWindow s.idempotency).Remembers _
    rw [hids]
    exact hremembers
  · show (IdempotencyWindow.ofEntries config.idempotencyWindow s.idempotency).capacity = _
    rw [hids, hcapacity]
    exact Nat.max_eq_left (hwindow ▸ hpos)
  · have hindex : s.index = { q.index with vectors := s.vectors } := by
      rw [← hq.rep.index_snapshotInput, ← hs]
      rfl
    show s.index.Topped
    rw [hindex]
    refine hq.topped.remapped (congrArg List.length hrows) ?_
    rw [← hs]
    exact hq.rep.dims.symm

end

end Partition

end Index

end DistrHnsw
