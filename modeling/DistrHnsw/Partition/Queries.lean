import DistrHnsw.Index.Answers
import DistrHnsw.Partition.Runs

/-!
# What a partition answers

Over the representation invariant, the hits of a search are live slots with their exact distances, and
the keys that they are given are alive at these slots.
-/

namespace DistrHnsw

namespace Index

/-- A hit without its key and payload. -/
def SearchHit.hit (h : SearchHit) : Hit := ⟨h.slot.toNat, h.distance⟩

namespace Partition

variable {p : Partition} {query : List F32} {k ef : ℕ} {filter : Option Bitmap}

/-- What a search may answer: at most `k` hits strictly by distance and slot, of distinct keys; each
key is alive at the slot of its hit, with its payload and the exact distance of its row. -/
structure Answered (p : Partition) (query : List F32) (k : ℕ) (filter : Option Bitmap)
    (hits : List SearchHit) : Prop where
  length_le : hits.length ≤ k
  ranked : Ranked (hits.map SearchHit.hit)
  slots : (hits.map SearchHit.slot).Nodup
  keys : (hits.map SearchHit.key).Nodup
  live (h : SearchHit) : h ∈ hits → p.slotForKey h.key = some h.slot ∧
    (∀ allowed, filter = some allowed → h.slot ∈ allowed.slots) ∧
    ∃ record row, p.slots[h.slot.toNat]? = some record ∧ record.tombstone = false ∧
      record.payload = h.payload ∧ p.index.vectors.get h.slot.toNat = some row ∧
      h.distance = distance p.metric (FlatVectors.stored query p.metric) row

theorem describe_eq_ok {hit : Hit} {out : SearchHit} : p.describe hit = .ok out ↔
    ∃ record, p.slots[(UInt32.ofNat hit.id).toNat]? = some record ∧
      p.keyTable[record.keyIndex.toNat]? = some out.key ∧ out.distance = hit.distance ∧
      out.payload = record.payload ∧ out.slot = .ofNat hit.id := by
  unfold describe
  simp only [bind_eq_ok, index_eq_ok]
  constructor
  · rintro ⟨record, hrecord, key, hkey, hout⟩
    cases hout
    exact ⟨record, hrecord, hkey, rfl, rfl, rfl⟩
  · rintro ⟨record, hrecord, hkey, hdistance, hpayload, hslot⟩
    obtain ⟨key, distance, payload, slot⟩ := out
    dsimp only at hkey hdistance hpayload hslot
    subst hdistance hpayload hslot
    exact ⟨record, hrecord, key, hkey, rfl⟩

/-- Hits of the graph with their keys. -/
theorem Rep.answered (h : p.Rep) {accepts : Slot → Bool} {hits : List Hit} {found : List SearchHit}
    (hanswers : p.index.Answers (FlatVectors.stored query p.metric) k accepts hits)
    (hfilter : ∀ allowed, filter = some allowed → ∀ slot, accepts slot = true → slot ∈ allowed.slots)
    (hfound : hits.mapM p.describe = .ok found) : p.Answered query k filter found := by
  have hlive (hit : Hit) (hmem : hit ∈ hits) : (UInt32.ofNat hit.id).toNat = hit.id := by
    obtain ⟨slot, -, hid, -⟩ := hanswers.hit hit hmem
    rw [hid, UInt32.ofNat_toNat]
  have hmatched : List.Forall₂ (fun hit out => (UInt32.ofNat hit.id).toNat = hit.id ∧
      p.describe hit = .ok out) hits found :=
    (List.forall₂_and_left hits found).2 ⟨hlive, mapM_eq_ok.1 hfound⟩
  have hhits : hits = found.map SearchHit.hit := by
    rw [← List.map_id hits]
    refine Matched.map_eq hmatched fun hit out hout => ?_
    obtain ⟨-, -, -, hdistance, -, hslot⟩ := describe_eq_ok.1 hout.2
    show hit = ⟨out.slot.toNat, out.distance⟩
    rw [hslot, hout.1, hdistance]
  subst hhits
  have howned (out : SearchHit) (hmem : out ∈ found) : p.slotForKey out.key = some out.slot ∧
      accepts out.slot = true ∧ ∃ record row, p.slots[out.slot.toNat]? = some record ∧
        record.tombstone = false ∧ record.payload = out.payload ∧
        p.index.vectors.get out.slot.toNat = some row ∧
        out.distance = distance p.metric (FlatVectors.stored query p.metric) row := by
    obtain ⟨hit, hhit, hid, hdescribe⟩ := Matched.mem_right hmatched out hmem
    obtain ⟨record, hrecord, hkey, hdistance, hpayload, hslot⟩ := describe_eq_ok.1 hdescribe
    obtain ⟨slot, row, heq, -, hclear, haccepts, hrow, hexact⟩ := hanswers.hit hit hhit
    have hsame : out.slot = slot := by rw [hslot, heq, UInt32.ofNat_toNat]
    subst hsame
    rw [← hslot] at hrecord
    have htombstone : record.tombstone = false := by
      have hbit := h.bits out.slot.toNat
      rw [retired, hrecord] at hbit
      exact hbit.symm.trans hclear
    refine ⟨(h.live out.key out.slot).2 (owner_eq_some.2 ⟨record, hrecord, htombstone, hkey⟩), haccepts,
      record, row, hrecord, htombstone, hpayload.symm, hrow, ?_⟩
    rw [hdistance, hexact, h.metric]
  have hslots : (found.map SearchHit.slot).Nodup := by
    have hids := hanswers.distinct
    rw [List.map_map] at hids
    exact List.Nodup.of_map UInt32.toNat (by rw [List.map_map]; exact hids)
  refine ⟨?_, hanswers.ranked, hslots, ?_, fun out hmem => ?_⟩
  · simpa using hanswers.length_le
  · refine List.Nodup.of_map p.slotForKey ?_
    have hmap : (found.map SearchHit.key).map p.slotForKey =
        (found.map SearchHit.slot).map some := by
      rw [List.map_map, List.map_map]
      exact List.map_congr_left fun out hmem => (howned out hmem).1
    rw [hmap]
    exact hslots.map fun _ _ heq => Option.some.inj heq
  · obtain ⟨hkey, haccepts, hrecord⟩ := howned out hmem
    exact ⟨hkey, fun allowed hallowed => hfilter allowed hallowed out.slot haccepts, hrecord⟩

/-- What a search over the invariant answers. -/
theorem Rep.answered_search (h : p.Rep) {found : List SearchHit}
    (hok : p.search query k ef filter = .ok found) : p.Answered query k filter found := by
  unfold search at hok
  obtain ⟨-, hok⟩ := guard_eq_ok.1 hok
  obtain ⟨-, hok⟩ := guard_eq_ok.1 hok
  obtain ⟨-, hok⟩ := guard_eq_ok.1 hok
  obtain ⟨-, hok⟩ := guard_eq_ok.1 hok
  obtain ⟨-, hok⟩ := guard_eq_ok.1 hok
  dsimp only at hok
  obtain ⟨hits, hhits, hok⟩ := bind_eq_ok.1 hok
  have hfound := mapError_eq_ok.1 hok
  cases filter with
  | none =>
    exact h.answered (h.shaped.answers_of_searchWith (mapError_eq_ok.1 hhits)) nofun hfound
  | some allowed =>
    refine h.answered (h.shaped.answers_of_searchFiltered (mapError_eq_ok.1 hhits))
      (fun allowed' heq slot haccepts => ?_) hfound
    cases heq
    exact of_decide_eq_true haccepts

section

variable [Digests]

/-- In every orderly run all searches of the graph, in both modes, and of the partition are sound. -/
theorem searches_are_sound {running : Running} (hrun : Run Orderly (some running)) :
    let p := running.partition
    (∀ query k ef mode allow hits, p.index.searchWith query k ef mode allow = .ok hits →
      p.index.Answers query k (fun slot => (allow.map (· slot)).getD true) hits) ∧
    (∀ query k ef mode allowed cutover hits,
      p.index.searchFiltered query k ef mode allowed cutover = .ok hits →
        p.index.Answers query k (fun slot => decide (slot ∈ allowed.slots)) hits) ∧
    (∀ slot, p.index.isTombstoned slot = (p.slots[slot.toNat]?).any SlotRecord.tombstone) ∧
    ∀ query k ef filter hits, p.search query k ef filter = .ok hits →
      p.Answered query k filter hits := by
  intro p
  have hrep := (hrun.sound rfl).served.rep
  exact ⟨fun _ _ _ _ _ _ hok => hrep.shaped.answers_of_searchWith hok,
    fun _ _ _ _ _ _ _ hok => hrep.shaped.answers_of_searchFiltered hok,
    fun slot => hrep.bits slot.toNat, fun _ _ _ _ _ hok => hrep.answered_search hok⟩

omit [Digests] in
theorem first_write_answered : letI := Digests.standard
    ∃ running, Run Orderly (some running) ∧ running.partition.highWater = 1 ∧
      ∀ query k ef filter hits, running.partition.search query k ef filter = .ok hits →
        running.partition.Answered query k filter hits := by
  let _ := Digests.standard
  obtain ⟨w, d, -, -, hrun, happlied⟩ := run_first_write rfl rfl upsertable_small
  refine ⟨_, hrun, ?_, (searches_are_sound hrun).2.2.2⟩
  cases happlied with
  | upsert hoperation hslots hupserted heq => exact congrArg Partition.highWater heq
  | delete hoperation hdeleted heq => exact congrArg Partition.highWater heq

end

end Partition

end Index

end DistrHnsw
