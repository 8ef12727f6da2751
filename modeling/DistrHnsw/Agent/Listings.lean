import DistrHnsw.Agent.Open
import DistrHnsw.Lib.Result

/-!
# Listings of a running store

Paging through a kind: what one sees on a volume that does not change, and what one sees beside PUTs
and DELETEs.
-/

namespace DistrHnsw.Agent

open Relation (ReflTransGen)

variable {kind : ObjectKind} {limit : ℕ}

/-- On every volume of a run a page is the plain walk cut by cursor and limit, following the cursor
lists the stored objects once each in order, and so does a listing among further steps for every
object that stays. -/
theorem listings_complete [Digests] {v : Volume} (hv : Laid v) (usedBytes : ℕ) (hlimit : limit ≠ 0) :
    (∀ server, ReflTransGen Server.Step ⟨⟨v, usedBytes⟩, []⟩ server →
      (∀ after, (inventory kind after limit).alone server.state.volume =
        .ok (pageOf (min limit maxInventoryPage)
          ((plainWalk server.state.volume kind).filter (later after)))) ∧
      (∀ object, object ∈ plainWalk server.state.volume kind ↔
        ∃ content, FileTree.file? server.state.volume (objectPath kind object.hash) = some content ∧
          object.size = content.length) ∧
      (plainWalk server.state.volume kind).Pairwise (fun a b => a.hash.text < b.hash.text) ∧
      ∀ fuel, (plainWalk server.state.volume kind).length < fuel →
        ∃ pages, pagesOf server.state.volume kind limit fuel none = some (.ok pages) ∧
          pages.flatMap InventoryPage.objects = plainWalk server.state.volume kind ∧
          ∀ page ∈ pages, page.objects.length ≤ min limit maxInventoryPage) ∧
    ∀ seen pages, (⟨⟨v, usedBytes⟩, []⟩ :: seen).IsChain (ReflTransGen Server.Step) →
      Listing kind limit none seen pages →
      (∀ hash, (∀ server ∈ seen, Holds kind hash server.state.volume) →
        ((pages.flatMap InventoryPage.objects).map InventoryObject.hash).count hash = 1) ∧
      (pages.flatMap InventoryPage.objects).Pairwise (fun a b => a.hash.text < b.hash.text) ∧
      ∀ page ∈ pages, page.objects.length ≤ min limit maxInventoryPage := by
  refine ⟨fun server hrun => ?_, fun seen pages _ hlisting => ?_⟩
  · have hlaid : Laid server.state.volume := Laid.run hrun hv
    have hall : (plainWalk server.state.volume kind).filter (later none) =
        plainWalk server.state.volume kind := List.filter_eq_self.2 fun _ _ => rfl
    refine ⟨fun after => inventory_alone hlaid hlimit, fun object => mem_plainWalk hlaid,
      plainWalk_sorted hlaid, fun fuel hfuel => ?_⟩
    obtain ⟨pages, hpages, hflat, hlength⟩ := pagesOf_eq hlaid hlimit fuel none (by rwa [hall])
    exact ⟨pages, hpages, hflat.trans hall, hlength⟩
  · obtain ⟨hsorted, -⟩ := hlisting.sorted
    refine ⟨fun hash hstays => ?_, hsorted, hlisting.length⟩
    have hnodup : ((pages.flatMap InventoryPage.objects).map InventoryObject.hash).Nodup := by
      rw [List.Nodup, List.pairwise_map]
      refine hsorted.imp ?_
      intro a b h heq
      rw [heq] at h
      exact lt_irrefl _ h
    exact List.count_eq_one_of_mem hnodup (hlisting.complete (fun _ => rfl) hstays)

/-- A hash. -/
def sampleHash : ObjectHash := ⟨List.replicate 64 'a', by decide, by decide⟩

/-- Store an empty chunk under the hash. -/
def storeSample (v : Volume) : Except IoError Volume := do
  let v ← v.createDir (firstPrefix .chunk sampleHash)
  let v ← v.createDir (parentOf .chunk sampleHash)
  v.createNew (objectPath .chunk sampleHash)

/-- A volume that holds one empty chunk. -/
def sampleVolume : Option Volume :=
  (ensureKinds ObjectKind.all freshVolume).toOption.bind fun v => (storeSample v).toOption

theorem laid_sample {v : Volume} (h : sampleVolume = some v) : Laid v := by
  obtain ⟨v₀, hkinds, h⟩ := Option.bind_eq_some_iff.1 h
  have hlaid := laid_of_ensureKinds fits_fresh (toOption_eq_some.1 hkinds)
  obtain ⟨v₁, hfirst, h⟩ := bind_eq_ok.1 (toOption_eq_some.1 h)
  obtain ⟨v₂, hsecond, h⟩ := bind_eq_ok.1 h
  have hlaid₁ := hlaid.create hfirst ⟨rfl, isHexPrefix_first sampleHash⟩
  have hlaid₂ := hlaid₁.create hsecond ⟨rfl, isHexPrefix_second sampleHash⟩
  exact hlaid₂.create h (fits_object .chunk sampleHash [])

theorem listings_complete_sample : ∃ v, Laid v ∧ ∃ pages,
    pagesOf v .chunk 1 2 none = some (.ok pages) ∧
      pages.flatMap InventoryPage.objects = [⟨sampleHash, 0⟩] := by
  have hwalk : (sampleVolume.map fun v => plainWalk v .chunk) = some [⟨sampleHash, 0⟩] := by
    decide +kernel
  obtain ⟨v, hv, hwalk⟩ := Option.map_eq_some_iff.1 hwalk
  have hlaid := laid_sample hv
  have hlist := (@listings_complete .chunk 1 Digests.standard v hlaid 0 (by decide)).1 _ .refl
  obtain ⟨pages, hpages, hflat, -⟩ := hlist.2.2.2 2 (by simp [hwalk])
  exact ⟨v, hlaid, pages, hpages, hflat.trans hwalk⟩

end DistrHnsw.Agent
