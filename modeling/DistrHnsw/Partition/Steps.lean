import DistrHnsw.Partition.Compacted
import DistrHnsw.Partition.Reopened

/-!
# What each step of a partition keeps

Operations, snapshots and compactions keep the representation invariant, on devices of which any step
may fail; it holds of what is created, bulk loaded, or opened from a snapshot in order.
-/

namespace DistrHnsw

namespace Index

open Wal (Entry Operation WalWriter WalError)
open Device (orFail)

namespace Partition

variable {p p' q : Partition}

/-! ## One operation -/

/-- The writer counts on from the mark, unless it is poisoned. -/
def Counts (p : Partition) : Prop :=
  ∀ w, p.wal = some w → w.poisoned = false → w.nextSeq = succ64 p.highWater

/-- What a logged operation leaves: the state as it was, up to the writer, or with the next entry. -/
structure Mutated (p : Partition) (opId : OpId) (operation : Operation) (p' : Partition) : Prop where
  counts : p'.Counts
  outcome : p' = { p with wal := p'.wal } ∨
    ∃ q, p.apply ⟨succ64 p.highWater, opId, operation⟩ = .ok q ∧ p' = { q with wal := p'.wal }

theorem mutated_self (h : p.Counts) (opId : OpId) (operation : Operation) :
    p.Mutated opId operation p := ⟨h, .inl rfl⟩

theorem Counts.of_same (h : p.Counts) (hwal : p'.wal = p.wal) (hmark : p'.highWater = p.highWater) :
    p'.Counts := by
  intro w hw hclean
  rw [hmark]
  exact h w (hwal ▸ hw) hclean

theorem counts_poisoned (p : Partition) : p.poisoned.Counts := by
  intro w hw hclean
  obtain ⟨w', -, rfl⟩ := Option.map_eq_some_iff.1 hw
  cases hclean

section

variable [Digests] {opId : OpId} {operation : Operation}

omit [Digests] in
/-- What is synced is applied, unless something fails in between. -/
theorem syncAndApply_cases (p : Partition) (wal : Device) (entry : Entry) :
    (∃ e w wal', p.syncAndApply wal entry = (.error e, { p with wal := w }, wal')) ∨
    ∃ q w wal', p.apply entry = .ok q ∧ p.wal = some w ∧
      p.syncAndApply wal entry = (.ok (), { q with wal := some w }, wal') := by
  unfold syncAndApply
  by_cases happend : p.failpoint = some .afterWalAppend
  · rw [if_pos happend]
    exact .inl ⟨_, p.wal, _, rfl⟩
  rw [if_neg happend]
  split
  · exact .inl ⟨_, p.wal, _, rfl⟩
  · rename_i w hwal
    obtain ⟨wal', hsync⟩ | ⟨e, w', wal', hsync⟩ := w.sync_cases wal
    · rw [hsync]
      dsimp only
      split
      · exact .inl ⟨_, some w, _, rfl⟩
      · rw [apply_wal]
        cases happly : p.apply entry with
        | error e => exact .inl ⟨_, some w, _, rfl⟩
        | ok q => exact .inr ⟨q, w, wal', rfl, hwal, rfl⟩
    · rw [hsync]
      exact .inl ⟨_, some w', _, rfl⟩

/-- A logged operation is applied at the next number, or changes at most the writer. -/
theorem mutate_cases (h : p.Counts) (wal : Device) (opId : OpId) (operation : Operation) :
    p.Mutated opId operation (p.mutate wal opId operation).2.1 ∧
      ∀ applied, (p.mutate wal opId operation).1 = .ok applied →
        applied = ⟨succ64 p.highWater, false⟩ ∧
          ∃ q, p.apply ⟨succ64 p.highWater, opId, operation⟩ = .ok q ∧
            (p.mutate wal opId operation).2.1 =
              { q with wal := (p.mutate wal opId operation).2.1.wal } := by
  unfold mutate
  split
  · exact ⟨mutated_self h opId operation, nofun⟩
  rename_i w hwal
  obtain ⟨w', wal', happend, hclean, hnext⟩ | ⟨e, w', wal', happend, hw'⟩ :=
    w.appendUnsynced_cases wal opId operation
  · have hseq : w.nextSeq = succ64 p.highWater := h w hwal hclean
    rw [happend]
    dsimp only
    rw [hseq] at hnext ⊢
    obtain ⟨e, w₁, wal₁, hsync⟩ | ⟨q, w₁, wal₁, happly, hw₁, hsync⟩ :=
      syncAndApply_cases { p with wal := some w' } wal' ⟨succ64 p.highWater, opId, operation⟩
    · rw [hsync]
      exact ⟨⟨counts_poisoned _, .inl rfl⟩, nofun⟩
    · cases hw₁
      rw [hsync]
      rw [apply_wal] at happly
      cases hq : p.apply ⟨succ64 p.highWater, opId, operation⟩ with
      | error e =>
        rw [hq] at happly
        cases happly
      | ok q' =>
        rw [hq] at happly
        cases happly
        have hmark : q'.highWater = succ64 p.highWater := (same_of_apply hq).1
        have hcounts : ({ q' with wal := some w' } : Partition).Counts := by
          intro w₂ hw₂ _
          cases hw₂
          show w'.nextSeq = succ64 q'.highWater
          rw [hnext, hmark]
        dsimp only
        split
        · exact ⟨⟨hcounts, .inr ⟨q', hq, rfl⟩⟩, nofun⟩
        · refine ⟨⟨hcounts, .inr ⟨q', hq, rfl⟩⟩, fun applied happlied => ?_⟩
          cases happlied
          exact ⟨rfl, q', rfl, rfl⟩
  · rw [happend]
    refine ⟨⟨fun w₂ hw₂ hclean => ?_, .inl rfl⟩, nofun⟩
    cases hw₂
    rcases hw' with rfl | hpoisoned
    · exact h w' hwal hclean
    · cases hpoisoned.symm.trans hclean

end

/-! ## What every state of a run satisfies -/

/-- The invariant of a run. -/
structure Served (p : Partition) : Prop where
  rep : p.Rep
  versioned : p.Versioned
  counts : p.Counts

/-- The records, the keys and the mark are the same. -/
structure SameState (p p' : Partition) : Prop where
  config : SameConfig p' p
  index : p'.index = p.index
  keyTable : p'.keyTable = p.keyTable
  keys : p'.keys = p.keys
  slots : p'.slots = p.slots
  highWater : p'.highWater = p.highWater

theorem SameState.rep (h : p.SameState p') (hp : p.Rep) : p'.Rep := by
  obtain ⟨⟨hmetric, hconfig⟩, hindex, hkeyTable, hkeys, hslots, -⟩ := h
  obtain ⟨config, metric, index, keyTable, keys, slots, window, wal, highWater, snapshotHighWater,
    failpoint⟩ := p'
  dsimp only at hmetric hconfig hindex hkeyTable hkeys hslots
  generalize config.ramBudgetBytes = budget at hconfig
  subst hmetric hconfig hindex hkeyTable hkeys hslots
  exact ⟨hp.config, hp.metricOf, hp.shaped, hp.params, hp.metric, hp.dims, hp.slots, hp.distinct,
    hp.keyTable_le, hp.keys, hp.keyIndex, hp.live, hp.bits, hp.count⟩

theorem SameState.versioned (h : p.SameState p') (hp : p.Versioned) : p'.Versioned := by
  refine ⟨?_, fun version hmem => ?_⟩
  · rw [h.slots]
    exact hp.ordered
  · rw [h.slots] at hmem
    rw [h.highWater]
    exact hp.bounded version hmem

theorem sameState_of_eq (h : p' = { p with wal := p'.wal }) : p.SameState p' := by
  rw [h]
  exact ⟨⟨rfl, rfl⟩, rfl, rfl, rfl, rfl, rfl⟩

theorem Mutated.rep {opId : OpId} {operation : Operation} (hm : p.Mutated opId operation p')
    (h : p.Rep) (hfits : p'.Fits) : p'.Rep := by
  rcases hm.outcome with heq | ⟨q, happly, heq⟩
  · exact (sameState_of_eq heq).rep h
  · have hstate := sameState_of_eq heq
    have hroom := (room_of_apply happly (by rw [Fits, ← hstate.keyTable]; exact hfits)).2
    exact hstate.rep ((h.applied hroom happly).rep h hroom)

/-- Entries are applied at increasing numbers. -/
theorem Served.mutated (h : p.Served) {opId : OpId} {operation : Operation}
    (hm : p.Mutated opId operation p') (hseq : p.highWater + 1 < 2 ^ 64) (hfits : p'.Fits) :
    p'.Served := by
  have hnext : succ64 p.highWater = p.highWater + 1 := Nat.mod_eq_of_lt hseq
  refine ⟨hm.rep h.rep hfits, ?_, hm.counts⟩
  rcases hm.outcome with heq | ⟨q, happly, heq⟩
  · exact (sameState_of_eq heq).versioned h.versioned
  · have hstate := sameState_of_eq heq
    have hroom := (room_of_apply happly (by rw [Fits, ← hstate.keyTable]; exact hfits)).2
    refine hstate.versioned ((h.rep.applied hroom happly).versioned h.versioned ?_)
    rw [hnext]
    exact Nat.le_succ _

/-! ## Snapshots and compactions -/

/-- The rows are served from elsewhere. -/
structure Remapped (p p' : Partition) : Prop where
  state : ∃ vectors mark, vectors.dims = p.index.vectors.dims ∧ vectors.len = p.index.vectors.len ∧
    p' = { p with index := { p.index with vectors }, snapshotHighWater := mark }

theorem Remapped.rep (h : p.Remapped p') (hp : p.Rep) : p'.Rep := by
  obtain ⟨vectors, mark, hdims, hlen, rfl⟩ := h.state
  exact ⟨hp.config, hp.metricOf, { hp.shaped with
      vectors := hlen.trans hp.shaped.vectors
      quantized := by
        show p.index.quantized.Shaped vectors.dims _
        rw [hdims]
        exact hp.shaped.quantized },
    hp.params, hp.metric, hdims.trans hp.dims, hp.slots, hp.distinct, hp.keyTable_le, hp.keys,
    hp.keyIndex, hp.live, hp.bits, hp.count⟩

theorem Remapped.versioned (h : p.Remapped p') (hp : p.Versioned) : p'.Versioned := by
  obtain ⟨vectors, mark, -, -, rfl⟩ := h.state
  exact ⟨hp.ordered, hp.bounded⟩

theorem Remapped.counts (h : p.Remapped p') (hp : p.Counts) : p'.Counts := by
  obtain ⟨vectors, mark, -, -, rfl⟩ := h.state
  exact hp

theorem Remapped.served (h : p.Remapped p') (hp : p.Served) : p'.Served :=
  ⟨h.rep hp.rep, h.versioned hp.versioned, h.counts hp.counts⟩

section

variable [Digests]

theorem remapped_of_snapshot (p : Partition) (snap : Device) : p.Remapped (p.snapshot snap).2.1 := by
  have hself (mark : ℕ) : p.Remapped { p with snapshotHighWater := mark } :=
    ⟨p.index.vectors, mark, rfl, rfl, rfl⟩
  unfold snapshot
  split
  · exact hself p.snapshotHighWater
  · dsimp only
    split
    · exact hself p.highWater
    · rename_i mapped _
      unfold Hnsw.replaceVectors
      by_cases hshape : mapped.dims ≠ p.index.vectors.dims ∨ mapped.len ≠ p.index.vectors.len
      · rw [if_pos hshape]
        exact hself p.highWater
      · rw [if_neg hshape]
        obtain ⟨hdims, hlen⟩ := not_or.1 hshape
        rw [not_not] at hdims hlen
        have hmapped : p.Remapped { p with
            index := { p.index with vectors := mapped }, snapshotHighWater := p.highWater } :=
          ⟨mapped, p.highWater, hdims, hlen, rfl⟩
        dsimp only
        split
        · exact hmapped
        · exact hmapped

/-- Entries that are caught up with are applied one after the other. -/
theorem advances_of_catchUp {id : Uuid} {newest rebuildPoint highWater : ℕ}
    {segments : List (ℕ × ℕ × Bytes)} {state out : Partition × ℕ}
    (hok : segments.foldlM (catchUpSegment id newest rebuildPoint highWater) state = .ok out) :
    Relation.ReflTransGen Advances state.1 out.1 := by
  refine foldlM_ok_induct
    (P := fun out : Partition × ℕ => Relation.ReflTransGen Advances state.1 out.1)
    (fun current segment next hcurrent hstep => ?_) .refl hok
  unfold catchUpSegment at hstep
  dsimp only at hstep
  split at hstep
  · cases hstep
    exact hcurrent
  obtain ⟨read, -, hentries⟩ := bind_eq_ok.1 hstep
  refine foldlM_ok_induct
    (P := fun out : Partition × ℕ => Relation.ReflTransGen Advances state.1 out.1)
    (fun current entry next hcurrent hentry => ?_) hcurrent hentries
  unfold catchUpEntry at hentry
  split at hentry
  · cases hentry
    exact hcurrent
  split at hentry
  · cases hentry
  rename_i hseq
  obtain ⟨q, happly, hentry⟩ := bind_eq_ok.1 hentry
  cases hentry
  exact hcurrent.tail ⟨entry, not_not.1 hseq, happly⟩

end

theorem Advances.same (h : p.Advances p') : SameConfig p' p ∧ p'.highWater = p.highWater + 1 ∧
    p'.snapshotHighWater = p.snapshotHighWater ∧ p'.failpoint = p.failpoint ∧ p'.wal = p.wal := by
  obtain ⟨entry, hseq, happly⟩ := h
  rw [eq_of_apply happly]
  exact ⟨⟨rfl, rfl⟩, hseq, rfl, rfl, rfl⟩

theorem Advances.versioned (h : p.Advances p') (hrep : p.Rep) (hv : p.Versioned) (hfits : p'.Fits) :
    p'.Versioned := by
  obtain ⟨entry, hseq, happly⟩ := h
  have hroom := (room_of_apply happly hfits).2
  refine (hrep.applied hroom happly).versioned hv ?_
  rw [hseq]
  exact Nat.le_succ _

/-- The invariant after entries that were replayed. -/
theorem replayed_versioned (hreplay : Relation.ReflTransGen Advances p p') (h : p.Rep)
    (hv : p.Versioned) (hfits : p'.Fits) : p'.Versioned := by
  revert hfits
  induction hreplay with
  | refl => exact fun _ => hv
  | tail hfront hlast ih =>
    intro hfits
    obtain ⟨entry, hseq, happly⟩ := hlast
    have hold := (room_of_apply happly hfits).1
    exact Advances.versioned ⟨entry, hseq, happly⟩ (replayed_rep hfront h hold) (ih hold) hfits

theorem replayed_same (hreplay : Relation.ReflTransGen Advances p p') :
    SameConfig p' p ∧ p'.failpoint = p.failpoint := by
  induction hreplay with
  | refl => exact ⟨.refl p, rfl⟩
  | tail _ hlast ih =>
    obtain ⟨hsame, -, -, hfailpoint, -⟩ := hlast.same
    exact ⟨hsame.trans ih.1, hfailpoint.trans ih.2⟩

/-- A compaction that was captured earlier. -/
def Pending (p : Partition) (input : CompactionInput) : Prop :=
  ∃ q, q.Rep ∧ q.Versioned ∧ SameConfig p q ∧ q.Captured input

theorem Pending.same {input : CompactionInput} (h : p.Pending input) (hsame : SameConfig p' p) :
    p'.Pending input := by
  obtain ⟨q, hrep, hversioned, hconfig, hcaptured⟩ := h
  exact ⟨q, hrep, hversioned, hsame.trans hconfig, hcaptured⟩

section

variable [Digests] {input : CompactionInput} {index : Hnsw}

/-- A compaction that is finished leaves the state, or swaps in the one that caught up. -/
theorem finishCompaction_cases (p : Partition) (d : Disk) (plan : CompactionPlan) :
    (p.finishCompaction d plan).2.1 = p ∨ ∃ caught rebuilt,
      Relation.ReflTransGen Advances (p.staged plan) caught ∧ caught.highWater = p.highWater ∧
      caught.Remapped rebuilt ∧ (p.finishCompaction d plan).2.1 = { p with
        index := rebuilt.index, keyTable := rebuilt.keyTable, keys := rebuilt.keys
        slots := rebuilt.slots, idempotency := rebuilt.idempotency
        snapshotHighWater := p.highWater } := by
  unfold finishCompaction
  dsimp only
  split
  · exact .inl rfl
  · rename_i caught replayed hcatch
    have hadvances := advances_of_catchUp hcatch
    split
    · exact .inl rfl
    · rename_i hmark
      have hremapped := remapped_of_snapshot caught d.snap
      generalize caught.snapshot d.snap = snapshotted at hremapped
      obtain ⟨result, rebuilt, snap⟩ := snapshotted
      cases result with
      | error e => exact .inl rfl
      | ok path =>
        dsimp only
        split
        · exact .inl rfl
        · exact .inr ⟨caught, rebuilt, hadvances, not_not.1 hmark, hremapped, rfl⟩

/-- A compaction of a state that satisfied the invariant swaps in one that does, of which the versions
are in order when they were. -/
theorem Rep.finished (h : p.Rep) (hrep : q.Rep) (hsame : SameConfig p q) (hcaptured : q.Captured input)
    (hbuilds : BuildsParallel input.vectors input.metric input.params index) (d : Disk)
    (hfits : (p.finishCompaction d (build input index)).2.1.Fits) :
    (p.finishCompaction d (build input index)).2.1.Rep ∧
      SameConfig (p.finishCompaction d (build input index)).2.1 p ∧
      (p.finishCompaction d (build input index)).2.1.wal = p.wal ∧
      (p.finishCompaction d (build input index)).2.1.highWater = p.highWater ∧
      (p.Versioned → q.Versioned → (p.finishCompaction d (build input index)).2.1.Versioned) := by
  obtain heq | ⟨caught, rebuilt, hadvances, hmark, hremapped, heq⟩ :=
    finishCompaction_cases p d (build input index)
  · rw [heq]
    exact ⟨h, .refl p, rfl, rfl, fun hv _ => hv⟩
  · rw [heq] at hfits ⊢
    obtain ⟨-, -, -, -, hm, hm0, -⟩ := PartitionConfig.validate_eq_ok hrep.config
    have hlen : input.vectors.len ≤ 2 ^ 32 := by
      rw [hcaptured.length_rows, hcaptured.length_slots, length_liveSlots]
      exact (List.length_filter_le _ _).trans hrep.slots_le
    have hparams : input.params = q.config.params := hcaptured.params
    have hbuilt := builtOver_of_buildsParallel (by rw [hparams]; exact hm.trans hm0)
      (by rw [hparams]; exact hm0) hlen hbuilds
    have hstaged := hcaptured.rep hrep h hsame hbuilt
    obtain ⟨vectors, mark, hdims, hcount, hrebuilt⟩ := hremapped.state
    have hcaughtFits : caught.Fits := by
      rw [hrebuilt] at hfits
      exact hfits
    have hcaught := replayed_rep hadvances hstaged hcaughtFits
    have hconfig := (replayed_same hadvances).1
    have hstate : rebuilt.SameState { p with
        index := rebuilt.index, keyTable := rebuilt.keyTable, keys := rebuilt.keys
        slots := rebuilt.slots, idempotency := rebuilt.idempotency
        snapshotHighWater := p.highWater } := by
      refine ⟨⟨?_, ?_⟩, rfl, rfl, rfl, rfl, ?_⟩
      · rw [hrebuilt]
        exact hconfig.metric.symm
      · rw [hrebuilt]
        show p.config = { caught.config with ramBudgetBytes := p.config.ramBudgetBytes }
        rw [hconfig.config]
        rfl
      · rw [hrebuilt]
        exact hmark.symm
    refine ⟨hstate.rep (hremapped.rep hcaught), ⟨rfl, rfl⟩, rfl, rfl, fun _ hversioned => ?_⟩
    exact hstate.versioned (hremapped.versioned
      (replayed_versioned hadvances hstaged (hcaptured.versioned hversioned) hcaughtFits))

theorem Served.finished (h : p.Served) (hpending : p.Pending input)
    (hbuilds : BuildsParallel input.vectors input.metric input.params index) (d : Disk)
    (hfits : (p.finishCompaction d (build input index)).2.1.Fits) :
    (p.finishCompaction d (build input index)).2.1.Served ∧
      SameConfig (p.finishCompaction d (build input index)).2.1 p := by
  obtain ⟨q, hrep, hversioned, hsame, hcaptured⟩ := hpending
  obtain ⟨hrep', hsame', hwal, hmark, hversioned'⟩ :=
    h.rep.finished hrep hsame hcaptured hbuilds d hfits
  exact ⟨⟨hrep', hversioned' h.versioned hversioned, h.counts.of_same hwal hmark⟩, hsame'⟩

end

/-! ## Where a run starts -/

section Bulk

variable {keys : List Bytes} {map : KeyMap} {slots : List SlotRecord} {key : Bytes} {i : UInt32}
  {live : Option Slot}

/-- What the rows of a bulk load are: distinct keys, each alive at its own position. -/
theorem bulkRows_eq_ok (hlen : keys.length ≤ 2 ^ 32) (hok : bulkRows keys = .ok (map, slots)) :
    keys.Nodup ∧ slots.map SlotRecord.keyIndex = (List.range keys.length).map UInt32.ofNat ∧
      (∀ record ∈ slots, record.version = 0 ∧ record.tombstone = false) ∧
      ∀ key i live, map key = some (i, live) ↔ keys[i.toNat]? = some key ∧ live = some i := by
  induction keys using List.reverseRecOn generalizing map slots with
  | nil =>
    cases hok
    simp
  | append_singleton keys last ih =>
    rw [List.length_append, List.length_singleton] at hlen
    unfold bulkRows at hok
    rw [enumerate_append, List.foldlM_append] at hok
    obtain ⟨⟨map₀, slots₀⟩, hfront, hok⟩ := bind_eq_ok.1 hok
    obtain ⟨hnodup, hindex, hfresh, hmap⟩ := ih (Nat.le_of_succ_le hlen) hfront
    rw [List.foldlM_cons] at hok
    obtain ⟨out, hstep, hlast⟩ := bind_eq_ok.1 hok
    cases hlast
    dsimp only at hstep
    obtain ⟨hnew, hstep⟩ := guard_eq_ok.1 hstep
    cases hstep
    have hposition : (UInt32.ofNat keys.length).toNat = keys.length :=
      UInt32.toNat_ofNat_of_lt' (Nat.lt_of_succ_le hlen)
    have hnot : last ∉ keys := by
      intro hmem
      obtain ⟨j, hj⟩ := List.mem_iff_getElem?.1 hmem
      have hlt := (List.getElem?_eq_some_iff.1 hj).1
      have hsome := (hmap last (.ofNat j) (some (.ofNat j))).2
        ⟨by rwa [UInt32.toNat_ofNat_of_lt' (show j < 2 ^ 32 by omega)], rfl⟩
      exact hnew (by rw [hsome]; rfl)
    refine ⟨?_, ?_, fun record hrecord => ?_, fun key i live => ?_⟩
    · exact List.nodup_append.2 ⟨hnodup, List.nodup_singleton last, fun a ha b hb heq =>
        hnot (List.mem_singleton.1 hb ▸ heq ▸ ha)⟩
    · rw [List.map_append, hindex, List.length_append, List.length_singleton, List.range_succ,
        List.map_append]
      rfl
    · rcases List.mem_append.1 hrecord with hold | hlast
      · exact hfresh record hold
      · rw [List.mem_singleton.1 hlast]
        exact ⟨rfl, rfl⟩
    · by_cases hk : key = last
      · subst hk
        rw [Function.update_self]
        constructor
        · intro heq
          cases heq
          rw [hposition]
          exact ⟨List.getElem?_concat_length, rfl⟩
        · rintro ⟨hat, rfl⟩
          have hge : keys.length ≤ i.toNat := by
            by_contra hlt
            rw [List.getElem?_append_left (Nat.lt_of_not_le hlt)] at hat
            exact hnot (List.mem_of_getElem? hat)
          have hlt := (List.getElem?_eq_some_iff.1 hat).1
          rw [List.length_append, List.length_singleton] at hlt
          rw [show keys.length = i.toNat by omega, UInt32.ofNat_toNat]
      · rw [Function.update_of_ne hk, hmap, getElem?_append_of_ne hk]

variable {config : PartitionConfig} {metric : Metric} {vectors : FlatVectors} {index : Hnsw}
  {levels : List UInt8}

/-- A partition over the rows of a bulk load. -/
theorem rep_bulk (hvalid : config.validate = .ok ()) (hmetric : config.metricOf = .ok metric)
    (hlen : keys.length ≤ 2 ^ 32) (hkeys : keys.length = vectors.len)
    (hdims : vectors.dims = config.dims) (hok : bulkRows keys = .ok (map, slots))
    (hbuilt : BuiltOver ⟨metric, vectors, config.params⟩ levels index) :
    ({ empty config metric with index, keyTable := keys, keys := map, slots } : Partition).Rep := by
  obtain ⟨hnodup, hindex, hfresh, hmap⟩ := bulkRows_eq_ok hlen hok
  have hcount : slots.length = keys.length := by
    have := congrArg List.length hindex
    simpa using this
  have hrows : index.len = keys.length := by
    rw [← hbuilt.topped.vectors, hbuilt.vectors]
    exact hkeys.symm
  have hrecord {s : ℕ} {record : SlotRecord} (hs : slots[s]? = some record) :
      record.keyIndex = .ofNat s ∧ s < keys.length := by
    have hat := congrArg (·[s]?) hindex
    have hlt := (List.getElem?_eq_some_iff.1 hs).1
    rw [hcount] at hlt
    simp only [List.getElem?_map, hs, Option.map_some, List.getElem?_range hlt] at hat
    exact ⟨Option.some.inj hat, hlt⟩
  exact {
    config := hvalid
    metricOf := hmetric
    shaped := hbuilt.topped.toShaped
    params := hbuilt.params
    metric := hbuilt.metric
    dims := by
      show index.vectors.dims = config.dims
      rw [hbuilt.vectors]
      exact hdims
    slots := hcount.trans hrows.symm
    distinct := hnodup
    keyTable_le := hlen
    keys := fun key i => by
      show (∃ live, map key = some (i, live)) ↔ keys[i.toNat]? = some key
      simp [hmap]
    keyIndex := fun record hmem => by
      obtain ⟨s, hs⟩ := List.mem_iff_getElem?.1 hmem
      obtain ⟨heq, hlt⟩ := hrecord hs
      show record.keyIndex.toNat < keys.length
      rw [heq, UInt32.toNat_ofNat_of_lt' (hlt.trans_le hlen)]
      exact hlt
    live := fun key slot => by
      have hleft : (map key).bind Prod.snd = some slot ↔ keys[slot.toNat]? = some key := by
        rw [Option.bind_eq_some_iff]
        constructor
        · rintro ⟨⟨i, live⟩, hentry, rfl⟩
          obtain ⟨hat, hlive⟩ := (hmap _ _ _).1 hentry
          cases hlive
          exact hat
        · intro hat
          exact ⟨(slot, some slot), (hmap _ _ _).2 ⟨hat, rfl⟩, rfl⟩
      refine hleft.trans (Iff.trans ?_ owner_eq_some.symm)
      constructor
      · intro hat
        have hlt := (List.getElem?_eq_some_iff.1 hat).1
        have hs : slots[slot.toNat]? = some slots[slot.toNat] :=
          List.getElem?_eq_getElem (by rwa [hcount])
        refine ⟨_, hs, (hfresh _ (List.mem_of_getElem? hs)).2, ?_⟩
        show keys[_]? = some key
        rwa [(hrecord hs).1, UInt32.ofNat_toNat]
      · rintro ⟨record, hs, -, hkey⟩
        have hkey : keys[record.keyIndex.toNat]? = some key := hkey
        rwa [(hrecord hs).1, UInt32.ofNat_toNat] at hkey
    bits := fun s => by
      show testBit index.tombstones s = retired slots s
      rw [hbuilt.bits, retired]
      cases hs : slots[s]? with
      | none => rfl
      | some record => exact (hfresh record (List.mem_of_getElem? hs)).2.symm
    count := by
      show index.tombstoneCount = slots.countP SlotRecord.tombstone
      rw [hbuilt.tombstoneCount, eq_comm, List.countP_eq_zero]
      intro record hmem
      rw [(hfresh record hmem).2]
      exact Bool.false_ne_true }

end Bulk

section Starts

variable [Digests] {d d' : Disk} {config : PartitionConfig}

theorem counts_of_open {wal wal' : Device} {id : Uuid} {w : WalWriter}
    (hopen : WalWriter.open wal id p.highWater = (.ok w, wal')) :
    ({ p with wal := some w } : Partition).Counts := by
  intro w' hw' _
  cases hw'
  exact (WalWriter.of_open hopen).1

theorem create_eq_ok (hok : create d config = (.ok p, d')) : config.validate = .ok () ∧
    ∃ metric w wal', config.metricOf = .ok metric ∧
      WalWriter.open d.wal config.id 0 = (.ok w, wal') ∧ p = { empty config metric with wal := some w } := by
  unfold create at hok
  split at hok
  · cases hok
  rename_i metric hchecks
  obtain ⟨hvalid, hmetric⟩ := check_bind_eq_ok.1 hchecks
  split at hok
  · cases hok
  dsimp only at hok
  split at hok
  · cases hok
  · rename_i w wal' hopen
    cases hok
    exact ⟨hvalid, metric, w, wal', hmetric, hopen, rfl⟩

theorem served_create (hok : create d config = (.ok p, d')) : p.Served := by
  obtain ⟨hvalid, metric, w, wal', hmetric, hopen, rfl⟩ := create_eq_ok hok
  have hstate : (empty config metric).SameState { empty config metric with wal := some w } :=
    sameState_of_eq rfl
  exact ⟨hstate.rep (rep_empty hvalid hmetric), hstate.versioned versioned_empty,
    @counts_of_open (empty config metric) _ _ _ _ _ hopen⟩

theorem served_bulkLoad {vectors : FlatVectors} {keys : List Bytes} {index : Hnsw} {path : ℕ}
    {metric : Metric} (hmetric : config.metricOf = .ok metric)
    (hbuilds : BuildsParallel vectors metric config.params index)
    (hok : bulkLoad d config vectors keys index = (.ok (p, path), d')) (hfits : p.Fits) : p.Served := by
  unfold bulkLoad at hok
  split at hok
  · cases hok
  rename_i p₀ d₀ hcreate
  obtain ⟨hvalid, metric', w, wal', hmetric', hopen, rfl⟩ := create_eq_ok hcreate
  cases hmetric.symm.trans hmetric'
  split at hok
  · cases hok
  rename_i hdims
  dsimp only at hok
  split at hok
  · cases hok
  rename_i map slots hrows
  split at hok
  · cases hok
  rename_i hlen
  rw [not_not] at hlen hdims
  split at hok
  · cases hok
  rename_i path' q snap hsnapshot
  cases hok
  have hremapped := remapped_of_snapshot ({ empty { config with baseSnapshot := true } metric with
    wal := some w, index, keyTable := keys.take vectors.len, keys := map, slots } : Partition) d₀.snap
  rw [hsnapshot] at hremapped
  have hlen32 : (keys.take vectors.len).length ≤ 2 ^ 32 := by
    obtain ⟨rows, mark, -, -, heq⟩ := hremapped.state
    have hfits : p.keyTable.length ≤ 2 ^ 32 := hfits
    rw [show p = _ from heq] at hfits
    exact hfits
  obtain ⟨-, -, -, -, hm, hm0, -⟩ := PartitionConfig.validate_eq_ok hvalid
  have hbuilt := builtOver_of_buildsParallel (show config.params.m ≤ 255 from hm.trans hm0) hm0
    (hlen ▸ hlen32) hbuilds
  have hrep := rep_bulk hvalid hmetric' hlen32 hlen hdims hrows hbuilt
  obtain ⟨-, -, hfresh, -⟩ := bulkRows_eq_ok hlen32 hrows
  have hversions : ∀ version ∈ slots.map SlotRecord.version, version = 0 := by
    intro version hmem
    obtain ⟨record, hrecord, rfl⟩ := List.mem_map.1 hmem
    exact (hfresh record hrecord).1
  refine hremapped.served ⟨(sameState_of_eq rfl).rep hrep, ⟨?_, fun version hmem => ?_⟩,
    @counts_of_open (empty { config with baseSnapshot := true } metric) _ _ _ _ _ hopen⟩
  · refine List.Pairwise.imp_of_mem (R := fun _ _ => True) (fun {a b} ha hb _ => ?_)
      (List.pairwise_of_forall fun _ _ => trivial)
    rw [hversions a ha, hversions b hb]
  · rw [hversions version hmem]
    exact Nat.zero_le _

/-- What is opened from names every key once, gives every live slot to a key, and has its versions in
order. -/
def Trusted (config : PartitionConfig) (snap : Dir Bytes) : Prop :=
  ∀ path s, (newestSnapshot config.id snap.files.reverse).1 = some (path, s) →
    s.Exclusive ∧ s.Sequenced

theorem load_of_newestSnapshot {id : Uuid} {files : List (ℕ × Bytes)} {path : ℕ} {s : LoadedSnapshot}
    (h : (newestSnapshot id files).1 = some (path, s)) :
    ∃ bytes, (path, bytes) ∈ files ∧ load bytes id = .ok s := by
  induction files with
  | nil => cases h
  | cons file files ih =>
    obtain ⟨name, bytes⟩ := file
    unfold newestSnapshot at h
    split at h
    · rename_i s' hload
      cases h
      exact ⟨bytes, List.mem_cons_self, hload⟩
    · obtain ⟨bytes', hmem, hload⟩ := ih h
      exact ⟨bytes', List.mem_cons_of_mem _ hmem, hload⟩

/-- A recovered state satisfies the representation invariant when the slots of the snapshot it starts
from find their way back. -/
theorem recovered_rep {wal snap : Dir Bytes} {report : RecoveryReport}
    (hexclusive : ∀ path s, (newestSnapshot config.id snap.files.reverse).1 = some (path, s) → s.Exclusive)
    (hok : recover (some config) wal snap = .ok (p, report)) (hfits : p.Fits) :
    p.Rep ∧ ((∀ path s, (newestSnapshot config.id snap.files.reverse).1 = some (path, s) →
      s.Sequenced) → p.Versioned) := by
  obtain ⟨hvalid, metric, hmetric, base, hbase, hreplay⟩ := replayed_of_recover hok
  have hstart : base.Rep ∧ ((∀ path s,
      (newestSnapshot config.id snap.files.reverse).1 = some (path, s) → s.Sequenced) →
        base.Versioned) := by
    cases hbase with
    | snapshot hnewest hload =>
      obtain ⟨bytes, -, hloaded⟩ := load_of_newestSnapshot hnewest
      obtain ⟨hformed, hcountable, -⟩ := formed_of_load hloaded
      exact ⟨rep_ofSnapshot hvalid hmetric hformed hcountable (hexclusive _ _ hnewest) hload,
        fun hsequenced => versioned_ofSnapshot (hsequenced _ _ hnewest) hload⟩
    | empty => exact ⟨rep_empty hvalid hmetric, fun _ => versioned_empty⟩
  exact ⟨replayed_rep hreplay hstart.1 hfits,
    fun hsequenced => replayed_versioned hreplay hstart.1 (hstart.2 hsequenced) hfits⟩

/-- What is opened is what is recovered, with a writer. -/
theorem open_eq_ok {report : RecoveryReport} (hok : «open» d = (.ok (p, report), d')) :
    ∃ config state found w, d.manifest = some config ∧
      recover (some config) d.wal.files d.snap.files = .ok (state, found) ∧
      p = { state with wal := some w } ∧ p.Counts := by
  unfold «open» at hok
  split at hok
  · cases hok
  rename_i state found hrecover
  dsimp only at hok
  split at hok
  · cases hok
  split at hok
  · cases hok
  rename_i w wal' hopen
  cases hok
  cases hmanifest : d.manifest with
  | none =>
    rw [hmanifest] at hrecover
    cases hrecover
  | some config =>
    rw [hmanifest] at hrecover
    exact ⟨config, state, found, w, rfl, hrecover, rfl, counts_of_open hopen⟩

theorem served_open {report : RecoveryReport} (hok : «open» d = (.ok (p, report), d'))
    (htrusted : ∀ config, d.manifest = some config → Trusted config d.snap.files) (hfits : p.Fits) :
    p.Served := by
  obtain ⟨config, state, found, w, hmanifest, hrecover, heq, hcounts⟩ := open_eq_ok hok
  have hstate : state.SameState p := by
    rw [heq]
    exact sameState_of_eq rfl
  have hfits' : state.Fits := by
    rw [Fits, ← hstate.keyTable]
    exact hfits
  have hsnapshot := htrusted config hmanifest
  obtain ⟨hrep, hversioned⟩ :=
    recovered_rep (fun path s h => (hsnapshot path s h).1) hrecover hfits'
  exact ⟨hstate.rep hrep, hstate.versioned (hversioned fun path s h => (hsnapshot path s h).2), hcounts⟩

end Starts

end Partition

end Index

end DistrHnsw
