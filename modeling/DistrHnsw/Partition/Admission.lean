import DistrHnsw.Lib.Faultless
import DistrHnsw.Partition.Runs

/-!
# Admission against the memory budget

What an upsert adds to the resident bytes, structure by structure.  Admission projects the published
model instead, so an upsert that it accepts may leave the hot set above the limit.
-/

namespace DistrHnsw

namespace Index

open Wal (Entry Operation WalWriter)

/-! ## Bytes of the graph -/

namespace Hnsw

variable {g g' : Hnsw} {slot : Slot}

/-- Bytes of a slot of the level: the row on the heap, the codes with their scalars, the lists of level
0, the lists above with their headers, the level, and a word of tombstones where one begins. -/
def slotBytes (g : Hnsw) (level : ℕ) : ℕ :=
  g.dims * 4 + (g.dims + 8) + (g.params.m0 * 4 + 1) + (level * g.params.m * 4 + 24) + (level + 24) + 1 +
    if g.tombstones.length * 64 < g.levels.length + 1 then 8 else 0

theorem accountedBytes_grow {vectors : FlatVectors} {row : List F32} {level : UInt8}
    (hdims : vectors.dims = g.dims) (htail : vectors.tail.length = g.vectors.tail.length + 1)
    (hrow : row.length = g.dims) :
    (g.grow vectors row level).accountedBytes = g.accountedBytes + g.slotBytes level.toNat := by
  have hvectors : vectors.residentBytes = g.vectors.residentBytes + g.dims * 4 := by
    unfold FlatVectors.residentBytes
    rw [htail, hdims, Nat.succ_mul, Nat.add_mul]
    rfl
  have hcodes : (g.quantized.push row).accountedBytes =
      g.quantized.accountedBytes + (g.dims + 8) := by
    simp only [QuantizedVectors.accountedBytes, QuantizedVectors.push,
      QuantizedVectors.pushQuantized, List.length_append, List.length_singleton,
      length_codes_quantize, hrow]
    omega
  have htombstones : (g.grow vectors row level).tombstones.length * 8 =
      g.tombstones.length * 8 + if g.tombstones.length * 64 < g.levels.length + 1 then 8 else 0 := by
    simp only [grow]
    split
    · rw [List.length_append, List.length_singleton, Nat.succ_mul]
    · rfl
  unfold accountedBytes slotBytes
  rw [htombstones]
  simp only [grow, hvectors, hcodes, List.length_append, List.length_replicate, List.length_singleton,
    List.map_append, List.map_cons, List.map_nil, List.sum_append, List.sum_cons, List.sum_nil]
  omega

theorem accountedBytes_of_reshaped (h : g.Reshaped g') : g'.accountedBytes = g.accountedBytes := by
  have hupper : (g'.upper.map fun list => list.length * 4 + 24) =
      g.upper.map fun list => list.length * 4 + 24 := by
    simpa [Function.comp_def] using congrArg (List.map fun n => n * 4 + 24) h.upper
  have hupperLen : (g'.upperLen.map fun list => list.length + 24) =
      g.upperLen.map fun list => list.length + 24 := by
    simpa [Function.comp_def] using congrArg (List.map fun n => n + 24) h.upperLen
  unfold accountedBytes
  rw [h.vectors, h.quantized, h.level0, h.level0Len, hupper, hupperLen, h.levels, h.tombstones]

/-- An insertion adds the bytes of its slot, whatever the lists held before. -/
theorem accountedBytes_of_insert {vector : List F32} {out : Slot × Hnsw}
    (h : g.insert vector = .ok out) : out.2.accountedBytes = g.accountedBytes +
      g.slotBytes (levelFor g.params (.ofNat g.vectors.len)).toNat := by
  unfold insert at h
  obtain ⟨⟨id, vectors⟩, hpush, h⟩ := bind_eq_ok.1 h
  obtain ⟨slot, hslot, h⟩ := bind_eq_ok.1 h
  obtain ⟨row, hrow, h⟩ := bind_eq_ok.1 h
  obtain ⟨-, -, rfl, hdims, -, htail⟩ := FlatVectors.push_eq_ok.1 (mapError_eq_ok.1 hpush)
  have hslot : slot = .ofNat g.vectors.len := by
    unfold toSlot at hslot
    split at hslot <;> cases hslot
    rfl
  subst hslot
  have hwidth : row.length = g.dims :=
    (vectors.width row (List.mem_of_getElem? (expect_eq_ok.1 hrow))).trans hdims
  have hgrown := @accountedBytes_grow g vectors row (levelFor g.params (.ofNat g.vectors.len)) hdims
    (by rw [htail, List.length_append, List.length_singleton]) hwidth
  split at h
  · cases h
    exact hgrown
  · obtain ⟨linked, hlink, h⟩ := bind_eq_ok.1 h
    cases h
    obtain ⟨e, l, hre⟩ := reshaped_of_link hlink
    exact (accountedBytes_of_reshaped hre).trans hgrown

theorem accountedBytes_of_tombstone {changed : Bool} (h : g.tombstone slot = .ok (changed, g')) :
    g'.accountedBytes = g.accountedBytes := by
  unfold tombstone at h
  split at h
  · obtain ⟨word, -, h⟩ := bind_eq_ok.1 h
    split at h
    · cases h
      rfl
    · obtain ⟨tombstones, hset, h⟩ := bind_eq_ok.1 h
      cases h
      obtain ⟨-, rfl⟩ := setAt_eq_ok.1 hset
      unfold accountedBytes
      rw [List.length_set]
  · cases h

end Hnsw

/-! ## The window of ids -/

namespace IdempotencyWindow

theorem length_evict (capacity : ℕ) (order : List OpId) (seqs : OpId → Option ℕ) :
    (evict capacity order seqs).1.length = min order.length capacity := by
  induction order generalizing seqs with
  | nil => simp [evict]
  | cons old order ih =>
    unfold evict
    split
    · rename_i hfull
      rw [ih]
      rw [List.length_cons] at hfull ⊢
      omega
    · rename_i hroom
      rw [Nat.min_eq_left (Nat.le_of_not_lt hroom)]

/-- A new id is added, and the oldest dropped from a full window. -/
theorem length_record {window : IdempotencyWindow} {opId : OpId} (h : window.get opId = none)
    (seq : ℕ) : (window.record opId seq).order.length = min (window.order.length + 1) window.capacity := by
  have hfresh : (window.seqs opId).isNone = true := Option.isNone_iff_eq_none.2 h
  unfold record
  rw [if_pos hfresh]
  exact (length_evict _ _ _).trans (by rw [List.length_append, List.length_singleton])

end IdempotencyWindow

/-- The admissible limit: the budget without its headroom. -/
def PartitionConfig.limit (c : PartitionConfig) (budget : ℕ) : ℕ :=
  let fraction := c.headroomFraction
  let fraction := if fraction < 0.0 then 0.0 else if 0.9 < fraction then 0.9 else fraction
  budget - (budget.toFloat * fraction).toUInt64.toNat

/-! ## Bytes of a partition -/

namespace Partition

variable {p q : Partition} {opId : OpId} {key payload : Bytes} {vector : List F32} {seq : ℕ}

/-- Bytes that an upsert adds to everything but the window of ids. -/
def upsertBytes (p : Partition) (key payload : Bytes) : ℕ :=
  p.index.slotBytes (levelFor p.index.params (.ofNat p.index.vectors.len)).toNat +
    (payload.length + 32) + if (p.keys key).isSome then 0 else key.length + 48

/-- What the window of ids counts for. -/
def windowBytes (ids : ℕ) : ℕ := ids * 40

/-- Tombstoning a slot keeps the bytes. -/
theorem bytes_of_tombstone {index index' : Hnsw} {slots slots' : List SlotRecord} {slot : Slot}
    (h : tombstone index slots slot = .ok (index', slots')) :
    index'.accountedBytes = index.accountedBytes ∧
      (slots'.map fun slot => slot.payload.length + 32) =
        slots.map fun slot => slot.payload.length + 32 := by
  unfold tombstone at h
  obtain ⟨⟨changed, masked⟩, hmask, h⟩ := bind_eq_ok.1 h
  obtain ⟨record, hrecord, h⟩ := bind_eq_ok.1 h
  cases h
  refine ⟨Hnsw.accountedBytes_of_tombstone hmask, ?_⟩
  obtain ⟨hlt, hread⟩ := List.getElem?_eq_some_iff.1 (index_eq_ok.1 hrecord)
  rw [List.map_set]
  apply List.ext_getElem (by simp)
  intro i hi _
  rw [List.getElem_set]
  split
  · rename_i heq
    subst heq
    rw [List.getElem_map, hread]
  · rfl

/-- An upsert that is applied adds its bytes, and its id to the window. -/
theorem residentBytes_of_apply (hfresh : p.idempotency.get opId = none)
    (h : p.apply ⟨seq, opId, .upsert key payload vector⟩ = .ok q) :
    q.residentBytes + windowBytes p.idempotency.order.length =
      p.residentBytes + p.upsertBytes key payload +
        windowBytes (min (p.idempotency.order.length + 1) p.idempotency.capacity) := by
  unfold apply at h
  obtain ⟨applied, happlied, h⟩ := bind_eq_ok.1 h
  cases h
  unfold applyUpsert at happlied
  obtain ⟨-, happlied⟩ := guard_eq_ok.1 happlied
  obtain ⟨⟨slot, inserted⟩, hinsert, happlied⟩ := bind_eq_ok.1 happlied
  have hgrown := Hnsw.accountedBytes_of_insert (mapError_eq_ok.1 hinsert)
  have hkept : ∃ slots keyIndex, applied = { p with
      index := applied.index, keyTable := (p.keyPosition key).2, keys := applied.keys
      slots := slots ++ [⟨seq, false, keyIndex, payload⟩] } ∧
      applied.index.accountedBytes = inserted.accountedBytes ∧
        (slots.map fun slot => slot.payload.length + 32) =
          p.slots.map fun slot => slot.payload.length + 32 := by
    dsimp only at happlied
    split at happlied
    · obtain ⟨⟨index, slots⟩, htombstone, happlied⟩ := bind_eq_ok.1 happlied
      cases happlied
      exact ⟨slots, _, rfl, bytes_of_tombstone (mapError_eq_ok.1 htombstone)⟩
    · cases happlied
      exact ⟨p.slots, _, rfl, rfl, rfl⟩
  obtain ⟨slots, keyIndex, heq, hindex, hslots⟩ := hkept
  have hkeys : ((p.keyPosition key).2.map fun key => key.length + 48).sum =
      (p.keyTable.map fun key => key.length + 48).sum +
        if (p.keys key).isSome then 0 else key.length + 48 := by
    unfold keyPosition
    cases p.keys key <;> simp
  have hwindow := IdempotencyWindow.length_record hfresh seq
  have hrecords : applied.slots = slots ++ [⟨seq, false, keyIndex, payload⟩] := by rw [heq]
  have htable : applied.keyTable = (p.keyPosition key).2 := by rw [heq]
  have hids : applied.idempotency = p.idempotency := by rw [heq]
  simp only [residentBytes, windowBytes, upsertBytes, hindex, hgrown, hrecords, htable, hids, hwindow,
    hkeys, hslots, List.map_append, List.sum_append, List.map_singleton, List.sum_singleton]
  omega

/-! ## Upserts that are taken in -/

/-- The error of a named crash point. -/
def AtPoint : PartitionError → Prop
  | .injected _ => True
  | _ => False

theorem faultless_checked {α : Type} (x : Checked α) : Faultless AtPoint (checked x) := by
  cases x with
  | ok a => exact faultless_ok a
  | error fault => cases fault <;> exact faultless_error.2 id

/-- Applying an entry stops at no crash point. -/
theorem faultless_apply (p : Partition) (entry : Entry) : Faultless AtPoint (p.apply entry) := by
  unfold apply
  split
  · refine Faultless.bind ?_ fun _ _ => faultless_ok _
    unfold applyUpsert
    refine (faultless_guard id).2 fun _ => (faultless_checked _).bind fun inserted _ => ?_
    dsimp only
    split
    · exact (faultless_checked _).bind fun _ _ => faultless_ok _
    · exact (faultless_ok _).bind fun _ _ => faultless_ok _
  · refine Faultless.bind ?_ fun _ _ => faultless_ok _
    unfold applyDelete
    split
    · exact (faultless_checked _).bind fun _ _ => faultless_ok _
    · exact faultless_ok _

/-- The call has applied the operation: it was accepted, or stopped at the crash point behind it. -/
def Took (result : Except PartitionError Applied) : Prop :=
  (∃ seq, result = .ok ⟨seq, false⟩) ∨ result = .error (.injected .afterApply)

section

variable [Digests] {wal : Device} {operation : Operation}

omit [Digests] in
theorem syncAndApply_ne_injected {entry : Entry} :
    (p.syncAndApply wal entry).1 ≠ .error (.injected .afterApply) := by
  unfold syncAndApply
  split
  · nofun
  split
  · nofun
  split
  · nofun
  dsimp only
  split
  · nofun
  rename_i writer hwriter _ writer' wal' hsync _
  cases happly : ({ p with wal := some writer' } : Partition).apply entry with
  | ok q => nofun
  | error e =>
    intro h
    cases h
    exact faultless_apply _ _ _ happly trivial

theorem applied_of_mutate (h : Took (p.mutate wal opId operation).1) :
    ∃ seq q, p.apply ⟨seq, opId, operation⟩ = .ok q ∧ (p.mutate wal opId operation).2.1 =
      { q with wal := (p.mutate wal opId operation).2.1.wal } := by
  unfold mutate at h ⊢
  split
  · rename_i hwal
    rw [hwal] at h
    rcases h with ⟨seq, h⟩ | h <;> cases h
  rename_i writer hwal
  simp only [hwal] at h
  split
  · rename_i happend
    rw [happend] at h
    rcases h with ⟨seq, h⟩ | h <;> cases h
  rename_i seq writer' wal' happend
  rw [happend] at h
  dsimp only at h ⊢
  obtain ⟨e, w, wal₁, hsync⟩ | ⟨q, w, wal₁, happly, -, hsync⟩ :=
    syncAndApply_cases { p with wal := some writer' } wal' ⟨seq, opId, operation⟩
  · rw [hsync] at h
    rcases h with ⟨seq, h⟩ | h
    · cases h
    · cases h
      exact absurd (congrArg Prod.fst hsync) syncAndApply_ne_injected
  · rw [apply_wal] at happly
    obtain ⟨q', hq, rfl⟩ := map_eq_ok.1 happly
    rw [hsync]
    refine ⟨seq, q', hq, ?_⟩
    dsimp only
    split <;> rfl

/-- An upsert that has been applied is new and was admitted. -/
theorem applied_of_upsert (h : Took (p.upsert wal opId key vector payload).1) :
    p.idempotency.get opId = none ∧ p.admits payload.length = .ok () ∧
      ∃ seq q, p.apply ⟨seq, opId, .upsert key payload (FlatVectors.stored vector p.metric)⟩ = .ok q ∧
        (p.upsert wal opId key vector payload).2.1 =
          { q with wal := (p.upsert wal opId key vector payload).2.1.wal } := by
  obtain ⟨seq, heq⟩ | ⟨e, heq, hpoint⟩ | ⟨hfresh, -, hadmits, heq⟩ :=
    p.upsert_cases wal opId key vector payload
  · rw [heq] at h
    rcases h with ⟨seq, h⟩ | h <;> cases h
  · rw [heq] at h
    rcases h with ⟨seq, h⟩ | h
    · cases h
    · exact absurd (Except.error.inj h) (hpoint _)
  · rw [heq] at h ⊢
    exact ⟨hfresh, hadmits, applied_of_mutate h⟩

end

/-! ## The limit -/

theorem admits_eq_ok {budget payloadLen : ℕ} (hbudget : p.config.ramBudgetBytes = some budget) :
    p.admits payloadLen = .ok () ↔
      p.residentBytes + p.config.hotBytesPerInsert payloadLen ≤ p.config.limit budget := by
  unfold admits
  rw [hbudget]
  dsimp only
  rw [ite_eq_iff]
  simp [PartitionConfig.limit]

section

variable [Digests] {wal : Device}

/-- A budget of 170 bytes without headroom. -/
def tightConfig : PartitionConfig :=
  { smallConfig with ramBudgetBytes := some 170, headroomFraction := 0.0 }

omit [Digests] in
theorem upsertable_tight (w : WalWriter) : ({ empty tightConfig .l2 with wal := some w } :
    Partition).Upsertable tightConfig.id [1] [F32.one, F32.zero] [9] := by
  have hfinite : ∀ value ∈ [F32.one, F32.zero], value.isFinite = true := by decide
  have hlimit : 0 + tightConfig.hotBytesPerInsert 1 ≤ tightConfig.limit 170 := by decide +kernel
  exact upsertable_empty rfl rfl w rfl hfinite hfinite nofun ((admits_eq_ok rfl).2 hlimit) (by decide)

end

end Partition

end Index

end DistrHnsw
