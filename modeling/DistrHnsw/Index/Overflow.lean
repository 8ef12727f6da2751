import DistrHnsw.Index.Arithmetic

/-!
# Overflows while loading

Two computations of the loader can exceed 64 bits: the end of a payload, and the length of the rows.
Loading ends without a fault exactly when neither does; every other sum and product is bounded by
what was checked before.
-/

namespace DistrHnsw

namespace Index

open Reader

namespace Explicit

/-- Ending without a panic. -/
abbrev Sane {α : Type} (x : Except SnapshotError α) : Prop := Faultless SnapshotError.IsFault x

/-- The same result, unless the first panics. -/
abbrev Same {α : Type} (x y : Except SnapshotError α) : Prop := Agrees SnapshotError.IsFault x y

theorem sane_bind {α β : Type} {x : Except SnapshotError α} {f : α → Except SnapshotError β} :
    Sane (x >>= f) ↔ Sane x ∧ ∀ a, x = .ok a → Sane (f a) := faultless_bind

/-! ## Sums and products -/

section Arithmetic

variable {message : String} {n a b c : ℕ}

theorem fit_of_lt (h : n < 2 ^ 64) : fit message n = .ok n := if_pos h

theorem sane_fit : Sane (fit message n) ↔ n < 2 ^ 64 := by
  unfold fit
  split
  · exact ⟨fun _ => ‹_›, fun _ => faultless_ok _⟩
  · exact ⟨fun h => absurd trivial (faultless_error.1 h), fun h => absurd h ‹_›⟩

theorem fit_eq_ok : fit message n = .ok c ↔ n < 2 ^ 64 ∧ n = c := by
  unfold fit
  split
  · exact ⟨fun h => ⟨‹_›, Except.ok.inj h⟩, fun h => congrArg _ h.2⟩
  · exact ⟨nofun, fun h => absurd h.1 ‹_›⟩

/-- Without an overflow a computation goes on with the result. -/
theorem same_fit_bind {α : Type} {f : ℕ → Except SnapshotError α} {y : Except SnapshotError α}
    (h : Same (f n) y) : Same (fit message n >>= f) y := by
  intro hsane
  have hlt := sane_fit.1 (sane_bind.1 hsane).1
  rw [fit_of_lt hlt, ok_bind] at hsane ⊢
  exact h hsane

theorem same_add_bind {α : Type} {f : ℕ → Except SnapshotError α} {y : Except SnapshotError α}
    (h : Same (f (a + b)) y) : Same (add a b >>= f) y := same_fit_bind h

theorem same_mul_bind {α : Type} {f : ℕ → Except SnapshotError α} {y : Except SnapshotError α}
    (h : Same (f (a * b)) y) : Same (mul a b >>= f) y := same_fit_bind h

/-- The length of the rows exceeds 64 bits when the larger of its two products does. -/
theorem sane_rowsLen {slotCount dims : ℕ} :
    Sane (rowsLen slotCount dims) ↔ slotCount * dims * 4 < 2 ^ 64 := by
  unfold rowsLen
  rw [sane_bind]
  constructor
  · rintro ⟨hlt, hrest⟩
    exact sane_fit.1 (hrest _ (fit_of_lt (sane_fit.1 hlt)))
  · intro h
    have hvalues : slotCount * dims < 2 ^ 64 := by omega
    refine ⟨sane_fit.2 hvalues, fun values hvalues => ?_⟩
    obtain ⟨-, rfl⟩ := fit_eq_ok.1 hvalues
    exact sane_fit.2 h

theorem rowsLen_eq_ok {slotCount dims size : ℕ} (h : rowsLen slotCount dims = .ok size) :
    size < 2 ^ 64 ∧ size = slotCount * dims * 4 := by
  obtain ⟨values, hvalues, hsize⟩ := bind_eq_ok.1 h
  obtain ⟨-, rfl⟩ := fit_eq_ok.1 hvalues
  obtain ⟨hlt, rfl⟩ := fit_eq_ok.1 hsize
  exact ⟨hlt, rfl⟩

theorem same_rowsLen_bind {α : Type} {slotCount dims : ℕ} {f : ℕ → Except SnapshotError α}
    {y : Except SnapshotError α} (h : Same (f (slotCount * dims * 4)) y) :
    Same (rowsLen slotCount dims >>= f) y := by
  unfold rowsLen
  rw [bind_assoc]
  exact same_mul_bind (same_mul_bind h)

end Arithmetic

/-! ## Agreement with the loader -/

theorem same_sliceOf {bytes : Bytes} {offset len : ℕ} :
    Same (sliceOf bytes offset len) (bytesAt bytes offset len) := by
  apply same_add_bind
  rw [Nat.add_sub_cancel_left]
  exact agrees_refl _

theorem same_readRecord (payloads bytes : Bytes) :
    Same (readRecord payloads bytes) (Index.readRecord payloads bytes) := by
  unfold readRecord recordFields Index.readRecord
  simp only [bind_assoc]
  refine (agrees_refl _).bind fun _ _ => (agrees_refl _).bind fun _ _ => ?_
  refine (agrees_refl _).bind fun _ _ => (agrees_refl _).bind fun _ _ => ?_
  refine (agrees_refl _).bind fun _ _ => (agrees_refl _).bind fun _ _ => ?_
  simp only [pure_bind]
  apply same_add_bind
  rw [Nat.add_sub_cancel_left]
  exact agrees_refl _

theorem same_readUpper (m : ℕ) (level : UInt8) (bytes : Bytes) :
    Same (readUpper m level bytes) (Index.readUpper m level bytes) := by
  unfold readUpper Index.readUpper
  split
  · exact agrees_refl _
  · refine (agrees_refl _).bind fun _ _ => same_mul_bind (same_mul_bind ?_)
    rw [Nat.mul_div_cancel _ (by decide)]
    exact agrees_refl _

theorem same_readUppers (m : ℕ) (levels : List UInt8) (bytes : Bytes) :
    Same (readUppers m levels bytes) (Index.readUppers m levels bytes) := by
  induction levels generalizing bytes with
  | nil => exact agrees_refl _
  | cons level levels ih =>
    exact (same_readUpper m level bytes).bind fun _ _ => (ih _).bind fun _ _ => agrees_refl _

theorem same_readGraph (slotCount : ℕ) (bytes : Bytes) :
    Same (readGraph slotCount bytes) (Index.readGraph slotCount bytes) := by
  unfold readGraph Index.readGraph
  refine (agrees_refl _).bind fun _ _ => (agrees_refl _).bind fun _ _ => ?_
  refine (agrees_refl _).bind fun _ _ => (agrees_refl _).bind fun _ _ => Agrees.guard fun _ => ?_
  refine (agrees_refl _).bind fun _ _ => (agrees_refl _).bind fun _ _ => ?_
  refine (agrees_refl _).bind fun _ _ => (agrees_refl _).bind fun _ _ => ?_
  refine (agrees_refl _).bind fun _ _ => same_mul_bind (same_mul_bind ?_)
  rw [Nat.mul_div_cancel _ (by decide)]
  refine (agrees_refl _).bind fun _ _ => same_mul_bind ?_
  rw [Nat.mul_div_cancel _ (by decide)]
  refine (agrees_refl _).bind fun _ _ => (same_readUppers _ _ _).bind fun _ _ => agrees_refl _

theorem same_readQuantized (slotCount dims : ℕ) (bytes : Bytes) :
    Same (readQuantized slotCount dims bytes) (Index.readQuantized slotCount dims bytes) := by
  unfold readQuantized Index.readQuantized readAll
  refine Agrees.bind (Agrees.bind ?_ fun _ _ => agrees_refl _) fun _ _ => agrees_refl _
  refine (agrees_refl _).bind fun _ _ => (agrees_refl _).bind fun _ _ => same_mul_bind ?_
  exact agrees_refl _

theorem same_mapRows (bytes : Bytes) (offset rows dims : ℕ) :
    Same (mapRows bytes offset rows dims) (Index.mapRows bytes offset rows dims) := by
  unfold mapRows Index.mapRows checkedMul
  by_cases hsize : rows * dims * 4 < 2 ^ 64
  · have hvalues : rows * dims < 2 ^ 64 := by omega
    simp only [if_pos hvalues, Option.bind_some, if_pos hsize]
    apply same_add_bind
    simp only [ge_iff_le, Nat.not_le.2 hsize, false_or]
    refine Agrees.guard fun _ => Agrees.guard fun _ => same_rowsLen_bind ?_
    exact same_sliceOf.bind fun _ _ => agrees_refl _
  · have hnone : ((if rows * dims < 2 ^ 64 then some (rows * dims) else none).bind fun a =>
        if a * 4 < 2 ^ 64 then some (a * 4) else none) = none := by
      split
      · rw [Option.bind_some, if_neg hsize]
      · rfl
    rw [hnone]
    dsimp only
    rw [if_pos (.inl (Nat.le_of_not_lt hsize))]
    exact agrees_refl _

theorem same_checkLinks (slotCount width : ℕ) (tooLong outOfRange : String) (links : List Slot)
    (block : ℕ) (len : UInt8) :
    Same (checkLinks slotCount width tooLong outOfRange links block len)
      (Index.checkLinks slotCount width tooLong outOfRange links (block * width) len) := by
  unfold checkLinks Index.checkLinks
  refine Agrees.guard fun _ => same_mul_bind (same_add_bind ?_)
  rw [Nat.add_sub_cancel_left]
  exact agrees_refl _

theorem same_validateStructure (params : HnswParams) (slotCount : ℕ) (keys : List (Bytes × Slot))
    (slots : List SlotRecord) (g : GraphParts) :
    Same (validateStructure params slotCount keys slots g)
      (Index.validateStructure params slotCount keys slots g) := by
  refine (agrees_forM fun _ _ => same_checkLinks _ _ _ _ _ _ _).bind fun _ _ => ?_
  refine (agrees_forM fun slot _ => ?_).bind fun _ _ => agrees_refl _
  refine (agrees_refl _).bind fun _ _ => Agrees.guard fun _ => ?_
  refine (agrees_refl _).bind fun _ _ => (agrees_refl _).bind fun _ _ => ?_
  exact agrees_forM fun _ _ => same_checkLinks _ _ _ _ _ _ _

section Load

variable [Digests] {bytes : Bytes} {id : Uuid}

theorem same_checkSection (entry : SectionEntry) :
    Same (checkSection bytes entry) (Index.checkSection bytes entry) :=
  same_sliceOf.bind fun _ _ => agrees_refl _

omit [Digests] in
theorem same_readTable (header : Header) (hcount : header.sectionCount < 2 ^ 32) :
    Same (readTable bytes header) (Index.readTable bytes header) := by
  have hentries : header.sectionCount * sectionEntryLen < 2 ^ 64 := by
    unfold sectionEntryLen
    omega
  unfold readTable Index.readTable checkedMul
  rw [if_pos hentries, Option.bind_some]
  cases checkedAdd (header.sectionCount * sectionEntryLen) header.tableOffset with
  | none => exact agrees_refl _
  | some tableEnd =>
    refine Agrees.guard fun _ => agrees_mapM fun i _ => ?_
    exact same_mul_bind (same_add_bind (same_sliceOf.bind fun _ _ => agrees_refl _))

omit [Digests] in
theorem same_sectionBytes (sections : List SectionEntry) (kind : ℕ) :
    Same (sectionBytes bytes sections kind) (Index.sectionBytes bytes sections kind) :=
  (agrees_refl _).bind fun _ _ => same_sliceOf

/-- Without an overflow the loader does what its arithmetic says. -/
theorem same_load : Same (load bytes id) (Index.load bytes id) := by
  unfold load Index.load
  refine (agrees_refl _).bind fun header hheader => Agrees.guard fun _ => ?_
  obtain ⟨-, -, -, -, -, -, -, hcount⟩ := readHeader_bounds hheader
  refine (same_readTable header hcount).bind fun sections _ => ?_
  refine (agrees_forM fun _ _ => same_checkSection _).bind fun _ _ => ?_
  refine (same_sectionBytes _ _).bind fun _ _ => (agrees_refl _).bind fun _ _ => ?_
  refine (same_sectionBytes _ _).bind fun payloads _ => (same_sectionBytes _ _).bind fun _ _ => ?_
  refine Agrees.bind ((agrees_many (same_readRecord payloads) _ _).bind fun _ _ => agrees_refl _)
    fun _ _ => ?_
  refine (agrees_refl _).bind fun f32 _ => ?_
  intro hsane
  have hsize := sane_rowsLen.1 (sane_bind.1 hsane).1
  revert hsane
  refine same_rowsLen_bind ?_
  rw [Nat.mod_eq_of_lt hsize]
  refine Agrees.guard fun _ => (same_mapRows _ _ _ _).bind fun _ _ => ?_
  refine (same_sectionBytes _ _).bind fun _ _ => (same_readQuantized _ _ _).bind fun _ _ => ?_
  refine (same_sectionBytes _ _).bind fun _ _ => ?_
  refine Agrees.bind ((same_readGraph _ _).bind fun _ _ => agrees_refl _) fun _ _ => ?_
  refine (same_validateStructure _ _ _ _ _).bind fun _ _ => ?_
  refine (same_sectionBytes _ _).bind fun _ _ => agrees_refl _

theorem same_mapVectors (dims slotCount : ℕ) :
    Same (mapVectors bytes id dims slotCount) (Index.mapVectors bytes id dims slotCount) := by
  unfold mapVectors Index.mapVectors
  refine (agrees_refl _).bind fun header hheader => Agrees.guard fun _ => ?_
  obtain ⟨-, -, -, -, -, -, -, hcount⟩ := readHeader_bounds hheader
  refine (same_readTable header hcount).bind fun sections _ => ?_
  refine (agrees_refl _).bind fun f32 _ => ?_
  intro hsane
  have hsize := sane_rowsLen.1 (sane_bind.1 hsane).1
  revert hsane
  refine same_rowsLen_bind ?_
  rw [Nat.mod_eq_of_lt hsize]
  refine Agrees.guard fun _ => same_sliceOf.bind fun _ _ => Agrees.guard fun _ => ?_
  exact same_mapRows _ _ _ _

end Load

/-! ## What was checked bounds the rest -/

section Parts

variable {bytes : Bytes} {offset len : ℕ}

theorem sane_sliceOf (hlt : offset + len < 2 ^ 64) (hle : offset + len ≤ bytes.length) :
    Sane (sliceOf bytes offset len) := by
  have hrange : range bytes offset len = .ok ((bytes.drop offset).take len) :=
    range_eq_ok.2 (slice_of_le hle)
  refine sane_bind.2 ⟨sane_fit.2 hlt, fun stop hstop => ?_⟩
  obtain ⟨-, rfl⟩ := fit_eq_ok.1 hstop
  rw [Nat.add_sub_cancel_left, bytesAt, hrange]
  exact faultless_ok _

theorem sane_readAll {α : Type} {read : Reader SnapshotError α} {trailing : String} :
    Sane (readAll read trailing bytes) ↔ Sane (read bytes) := by
  unfold readAll
  rw [sane_bind]
  exact and_iff_left fun _ _ => (faultless_guard not_false).2 fun _ => faultless_ok _

theorem sane_readKey (bytes : Bytes) : Sane (readKey bytes) := by
  refine (faultless_word not_false 2 _).bind fun _ _ => ?_
  refine (faultless_take not_false _ _).bind fun _ _ => ?_
  exact (faultless_u32 not_false _).bind fun _ _ => faultless_ok _

theorem sane_readIdempotent (bytes : Bytes) : Sane (readIdempotent bytes) := by
  refine (faultless_array not_false 16 _).bind fun _ _ => ?_
  exact (faultless_word not_false 8 _).bind fun _ _ => faultless_ok _

theorem sane_recordFields (bytes : Bytes) : Sane (recordFields bytes) := by
  refine (faultless_word not_false 8 _).bind fun _ _ => ?_
  refine (faultless_u8 not_false _).bind fun out _ => ?_
  refine Faultless.bind ?_ fun _ _ => ?_
  · unfold readTombstone
    split
    · exact faultless_ok _
    · split
      · exact faultless_ok _
      · exact faultless_error.2 not_false
  · refine (faultless_u32 not_false _).bind fun _ _ => ?_
    refine (faultless_word not_false 8 _).bind fun _ _ => ?_
    exact (faultless_word not_false 4 _).bind fun _ _ => faultless_ok _

/-- Reading a record exceeds 64 bits exactly when the end of its payload does. -/
theorem sane_readRecord {payloads : Bytes} : Sane (readRecord payloads bytes) ↔
    ∀ fields rest, recordFields bytes = .ok (fields, rest) →
      fields.offset + fields.len < 2 ^ 64 := by
  unfold readRecord
  rw [sane_bind]
  constructor
  · rintro ⟨-, hrest⟩ fields rest hfields
    exact sane_fit.1 (sane_bind.1 (hrest _ hfields)).1
  · intro h
    refine ⟨sane_recordFields bytes, fun out hout => sane_bind.2 ⟨sane_fit.2 (h _ _ hout), ?_⟩⟩
    intro stop _
    split
    · exact faultless_error.2 not_false
    · exact faultless_ok _

theorem sane_readQuantized {slotCount dims : ℕ} (hslots : slotCount < 2 ^ 32)
    (hdims : dims < 2 ^ 32) (bytes : Bytes) : Sane (readQuantized slotCount dims bytes) := by
  have hsize : slotCount * dims < 2 ^ 64 := by
    calc slotCount * dims ≤ 2 ^ 32 * dims := Nat.mul_le_mul_right dims hslots.le
      _ < 2 ^ 32 * 2 ^ 32 := Nat.mul_lt_mul_of_pos_left hdims (by decide)
  have hread (what : String) (bytes : Bytes) : Sane (readF32 what bytes) :=
    faultless_convert (faultless_u32 not_false _) fun _ => faultless_ok _
  refine (sane_readAll.2 ?_).bind fun out _ => ?_
  · refine (faultless_many (hread _) _ _).bind fun _ _ => ?_
    refine (faultless_many (hread _) _ _).bind fun _ _ => (sane_fit.2 hsize).bind fun _ _ => ?_
    exact (faultless_take not_false _ _).bind fun _ _ => faultless_ok _
  · dsimp only
    split
    · exact faultless_error.2 not_false
    · exact faultless_ok _

/-- Every row of a map has its width. -/
theorem length_mappedRows {rows dims : ℕ} (h : bytes.length = rows * dims * 4) :
    ∀ row ∈ mappedRows rows dims bytes, row.length = dims := by
  intro row hrow
  obtain ⟨i, hi, rfl⟩ := List.mem_map.1 hrow
  have hblock : i * (dims * 4) + dims * 4 ≤ rows * (dims * 4) := block_le (List.mem_range.1 hi)
  rw [← Nat.mul_assoc rows, ← h] at hblock
  rw [F32.length_manyOfLe, List.length_take, List.length_drop]
  omega

theorem sane_mapRows {rows dims : ℕ} (hlt : offset + rows * dims * 4 < 2 ^ 64)
    (hle : offset + rows * dims * 4 ≤ bytes.length) : Sane (mapRows bytes offset rows dims) := by
  have hsize : rows * dims * 4 < 2 ^ 64 := by omega
  have hvalues : rows * dims < 2 ^ 64 := by omega
  unfold mapRows checkedMul
  simp only [if_pos hvalues, Option.bind_some, if_pos hsize]
  refine (sane_fit.2 hlt).bind fun stop _ => (faultless_guard not_false).2 fun _ => ?_
  refine (faultless_guard not_false).2 fun _ => (sane_rowsLen.2 hsize).bind fun size hlen => ?_
  obtain ⟨-, rfl⟩ := rowsLen_eq_ok hlen
  refine (sane_sliceOf hlt hle).bind fun content hcontent => ?_
  have hlength : content.length = rows * dims * 4 := by
    have hsame := same_sliceOf (sane_sliceOf hlt hle)
    rw [hcontent, bytesAt] at hsame
    exact slice_length (range_eq_ok.1 (mapError_eq_ok.1 hsame.symm))
  rw [dif_pos (length_mappedRows hlength)]
  exact faultless_ok _

end Parts

/-! ## The graph -/

section Graph

variable {params : HnswParams} {slotCount : ℕ} {g : GraphParts}

theorem sane_readUpper {m : ℕ} (hm : m ≤ 255) (level : UInt8) (bytes : Bytes) :
    Sane (readUpper m level bytes) := by
  have hcount : level.toNat * m ≤ 255 * 255 :=
    Nat.mul_le_mul (Nat.le_of_lt_succ level.toNat_lt) hm
  unfold readUpper
  split
  · exact faultless_ok _
  · refine (faultless_take not_false _ _).bind fun _ _ => ?_
    refine (sane_fit.2 (by omega)).bind fun count h => ?_
    obtain ⟨-, rfl⟩ := fit_eq_ok.1 h
    refine (sane_fit.2 (by omega)).bind fun _ _ => ?_
    exact (faultless_many (faultless_u32 not_false) _ _).bind fun _ _ => faultless_ok _

theorem sane_readUppers {m : ℕ} (hm : m ≤ 255) (levels : List UInt8) (bytes : Bytes) :
    Sane (readUppers m levels bytes) := by
  induction levels generalizing bytes with
  | nil => exact faultless_ok _
  | cons level levels ih =>
    exact (sane_readUpper hm level bytes).bind fun _ _ => (ih _).bind fun _ _ => faultless_ok _

theorem sane_readGraph (hslots : slotCount < 2 ^ 32) (bytes : Bytes) :
    Sane (readGraph slotCount bytes) := by
  refine (faultless_word not_false 4 _).bind fun out _ => ?_
  obtain ⟨m, c⟩ := out
  refine (faultless_word not_false 4 _).bind fun out _ => ?_
  obtain ⟨m0, c⟩ := out
  refine (faultless_word not_false 4 _).bind fun _ _ => ?_
  refine (faultless_u64 not_false _).bind fun _ _ => ?_
  refine (faultless_guard not_false).2 fun hparams => ?_
  refine (faultless_u32 not_false _).bind fun _ _ => (faultless_u8 not_false _).bind fun _ _ => ?_
  refine (faultless_word not_false 8 _).bind fun _ _ => ?_
  refine (faultless_take not_false _ _).bind fun _ _ => ?_
  refine (faultless_take not_false _ _).bind fun _ _ => ?_
  have hcount : slotCount * m0 ≤ 2 ^ 32 * 255 := Nat.mul_le_mul hslots.le (by omega)
  refine (sane_fit.2 (by omega)).bind fun count h => ?_
  obtain ⟨-, rfl⟩ := fit_eq_ok.1 h
  refine (sane_fit.2 (by omega)).bind fun _ _ => ?_
  refine (faultless_many (faultless_u32 not_false) _ _).bind fun _ _ => ?_
  refine (sane_fit.2 (by omega)).bind fun _ _ => ?_
  refine (faultless_many (faultless_u64 not_false) _ _).bind fun _ _ => ?_
  exact (sane_readUppers (by omega) _ _).bind fun _ _ => faultless_ok _

theorem sane_index {α : Type} {xs : List α} {i : ℕ} (h : i < xs.length) :
    Sane ((index xs i).mapError SnapshotError.fault) := by
  rw [index_of_lt h]
  exact faultless_ok _

theorem sane_checkLinks {width blocks block : ℕ} {tooLong outOfRange : String} {links : List Slot}
    {len : UInt8} (hlinks : links.length = blocks * width) (hsize : blocks * width < 2 ^ 64)
    (hblock : block < blocks) :
    Sane (checkLinks slotCount width tooLong outOfRange links block len) := by
  have hle : block * width + width ≤ blocks * width := block_le hblock
  unfold checkLinks
  refine (faultless_guard not_false).2 fun hlen => ?_
  refine (sane_fit.2 (by omega)).bind fun start h => ?_
  obtain ⟨-, rfl⟩ := fit_eq_ok.1 h
  refine (sane_fit.2 (by omega)).bind fun stop h => ?_
  obtain ⟨-, rfl⟩ := fit_eq_ok.1 h
  rw [Nat.add_sub_cancel_left, range_eq_ok.2 (slice_of_le (by omega))]
  refine (faultless_ok _ : Sane (.ok _)).bind fun list _ => ?_
  split
  · exact faultless_ok _
  · exact faultless_error.2 not_false

/-- The checks of a graph that was read stay inside its buffers. -/
theorem sane_validateStructure (hslots : slotCount < 2 ^ 32) (hg : g.Sized params slotCount)
    (keys : List (Bytes × Slot)) (slots : List SlotRecord) :
    Sane (validateStructure params slotCount keys slots g) := by
  obtain ⟨lists, hupper, hupperLen, hlists⟩ := hg.uppers
  have hm := hg.m_le
  have hcount : lists.length = slotCount := by rw [← hlists.length_eq, hg.levels]
  unfold validateStructure
  refine (faultless_forM fun slot hslot => ?_).bind fun _ _ => ?_
  · have hlt : slot.1 < slotCount := by
      rw [← hg.level0Len]
      exact (List.getElem?_eq_some_iff.1 (mem_enumerate.1 hslot)).1
    have hsize : slotCount * params.m0 ≤ 2 ^ 32 * 255 := Nat.mul_le_mul hslots.le hg.m0_le
    exact sane_checkLinks hg.level0 (by omega) hlt
  refine (faultless_forM fun slot hslot => ?_).bind fun _ _ => ?_
  · have hlt := List.mem_range.1 hslot
    have hlevel : slot < g.levels.length := hg.levels.symm ▸ hlt
    have hlen : slot < lists.length := hcount.symm ▸ hlt
    have hlens : slot < g.upperLen.length := by rwa [hupperLen, List.length_map]
    have hlinks : slot < g.upper.length := by rwa [hupper, List.length_map]
    obtain ⟨hlens', hlinks'⟩ : lists[slot].1.length = g.levels[slot].toNat ∧
        lists[slot].2.length = g.levels[slot].toNat * params.m :=
      (List.forall₂_iff_get.1 hlists).2 slot hlevel hlen
    refine (sane_index hlevel).bind fun _ _ => (faultless_guard not_false).2 fun _ => ?_
    refine (sane_index hlens).bind fun lens h => ?_
    rw [index_of_lt hlens] at h
    cases h
    refine (sane_index hlinks).bind fun links h => ?_
    rw [index_of_lt hlinks] at h
    cases h
    refine faultless_forM fun entry hentry => ?_
    have hblock := (List.getElem?_eq_some_iff.1 (mem_enumerate.1 hentry)).1
    simp only [hupperLen, hupper, List.getElem_map] at hblock ⊢
    have hsize : g.levels[slot].toNat * params.m ≤ 255 * 255 :=
      Nat.mul_le_mul (Nat.le_of_lt_succ g.levels[slot].toNat_lt) hm
    exact sane_checkLinks hlinks' (by omega) (hlens' ▸ hblock)
  refine Faultless.bind ?_ fun _ _ => ?_
  · unfold checkEntry
    split
    · split
      · rename_i hlt
        refine (sane_index (hg.levels.symm ▸ hlt)).bind fun _ _ => ?_
        split
        · exact faultless_ok _
        · exact faultless_error.2 not_false
      · exact faultless_error.2 not_false
    · exact (faultless_guard not_false).2 fun _ => faultless_ok _
  refine (faultless_forM fun slot _ => ?_).bind fun _ _ => (faultless_guard not_false).2 fun _ => ?_
  · exact (faultless_guard not_false).2 fun _ => (faultless_guard not_false).2 fun _ =>
      faultless_ok _
  · refine (faultless_ok _ : Sane (.ok ())).bind fun _ _ => faultless_forM fun key _ => ?_
    unfold checkKeySlot
    split
    · exact faultless_ok _
    · split
      · exact faultless_error.2 not_false
      · exact (faultless_guard not_false).2 fun _ => faultless_ok _

end Graph

/-! ## The file -/

section File

variable [Digests] {bytes : Bytes} {id : Uuid} {header : Header} {sections : List SectionEntry}

theorem sane_readHeader : Sane (readHeader bytes id) := by
  refine (faultless_guard not_false).2 fun _ => ?_
  dsimp only
  refine (faultless_guard not_false).2 fun _ => (faultless_take not_false 4 _).bind fun _ _ => ?_
  refine (faultless_guard not_false).2 fun _ => (faultless_word not_false 2 _).bind fun _ _ => ?_
  refine (faultless_guard not_false).2 fun _ => (faultless_word not_false 2 _).bind fun _ _ => ?_
  refine (faultless_array not_false 16 _).bind fun _ _ => (faultless_guard not_false).2 fun _ => ?_
  refine (faultless_word not_false 4 _).bind fun _ _ => ?_
  refine (faultless_word not_false 1 _).bind fun out _ => ?_
  obtain ⟨code, c⟩ := out
  cases metricFrom code with
  | none => exact faultless_error.2 not_false
  | some metric =>
    refine (faultless_word not_false 1 _).bind fun _ _ => (faultless_guard not_false).2 fun _ => ?_
    refine (faultless_take not_false 2 _).bind fun _ _ => ?_
    refine (faultless_word not_false 8 _).bind fun _ _ => ?_
    refine (faultless_word not_false 4 _).bind fun _ _ => ?_
    refine (faultless_word not_false 4 _).bind fun _ _ => ?_
    refine (faultless_word not_false 4 _).bind fun _ _ => ?_
    refine (faultless_word not_false 4 _).bind fun _ _ => ?_
    refine (faultless_word not_false 4 _).bind fun _ _ => ?_
    refine (faultless_word not_false 8 _).bind fun _ _ => ?_
    exact (faultless_guard not_false).2 fun _ => faultless_ok _

/-- A section that ends inside the file. -/
def Inside (bytes : Bytes) (entry : SectionEntry) : Prop :=
  entry.offset + entry.len < 2 ^ 64 ∧ entry.offset + entry.len ≤ bytes.length

omit [Digests] in
theorem checkedAdd_eq_some {a b c : ℕ} : checkedAdd a b = some c ↔ a + b < 2 ^ 64 ∧ a + b = c := by
  unfold checkedAdd
  split
  · exact ⟨fun h => ⟨‹_›, Option.some.inj h⟩, fun h => congrArg _ h.2⟩
  · exact ⟨nofun, fun h => absurd h.1 ‹_›⟩

omit [Digests] in
theorem inside_of_bounds {entry : SectionEntry} {tableEnd footerAt : ℕ}
    (hfooter : footerAt ≤ bytes.length)
    (h : ¬(entry.offset < tableEnd ∨ (checkedAdd entry.offset entry.len).all (· > footerAt))) :
    Inside bytes entry := by
  rw [not_or] at h
  cases hend : checkedAdd entry.offset entry.len with
  | none => simp [hend] at h
  | some stop =>
    obtain ⟨hlt, rfl⟩ := checkedAdd_eq_some.1 hend
    have hstop : entry.offset + entry.len ≤ footerAt := by simpa [hend] using h.2
    exact ⟨hlt, hstop.trans hfooter⟩

omit [Digests] in
/-- Reading the table stays inside the file, and its sections do. -/
theorem sane_readTable (hcount : header.sectionCount < 2 ^ 32) :
    Sane (readTable bytes header) ∧
      ∀ sections, readTable bytes header = .ok sections → ∀ entry ∈ sections, Inside bytes entry := by
  have hfooter : bytes.length - footerLen ≤ bytes.length := Nat.sub_le _ _
  have hentries : header.sectionCount * sectionEntryLen < 2 ^ 64 := by
    unfold sectionEntryLen
    omega
  unfold readTable checkedMul
  rw [if_pos hentries, Option.bind_some]
  cases hend : checkedAdd (header.sectionCount * sectionEntryLen) header.tableOffset with
  | none => exact ⟨faultless_error.2 not_false, nofun⟩
  | some tableEnd =>
    obtain ⟨hlt, rfl⟩ := checkedAdd_eq_some.1 hend
    dsimp only
    constructor
    · refine (faultless_guard not_false).2 fun hbounds => faultless_mapM fun i hi => ?_
      have hblock : i * sectionEntryLen + sectionEntryLen ≤ header.sectionCount * sectionEntryLen :=
        block_le (List.mem_range.1 hi)
      rw [not_or, not_lt, not_lt] at hbounds
      refine (sane_fit.2 (by omega)).bind fun skipped h => ?_
      obtain ⟨-, rfl⟩ := fit_eq_ok.1 h
      refine (sane_fit.2 (by omega)).bind fun start h => ?_
      obtain ⟨-, rfl⟩ := fit_eq_ok.1 h
      refine (sane_sliceOf (by omega) (by omega)).bind fun _ _ => ?_
      exact (faultless_guard not_false).2 fun _ => faultless_ok _
    · intro sections h entry hentry
      obtain ⟨-, h⟩ := guard_eq_ok.1 h
      obtain ⟨i, -, hread⟩ := mapM_ok_mem h entry hentry
      obtain ⟨skipped, -, hread⟩ := DistrHnsw.bind_eq_ok.1 hread
      obtain ⟨start, -, hread⟩ := DistrHnsw.bind_eq_ok.1 hread
      obtain ⟨raw, -, hread⟩ := DistrHnsw.bind_eq_ok.1 hread
      obtain ⟨hbounds, hread⟩ := guard_eq_ok.1 hread
      cases hread
      exact inside_of_bounds hfooter hbounds

theorem sane_checkSection {entry : SectionEntry} (h : Inside bytes entry) :
    Sane (checkSection bytes entry) :=
  (sane_sliceOf h.1 h.2).bind fun _ _ => (faultless_guard not_false).2 fun _ => faultless_ok _

omit [Digests] in
theorem sane_findSection (kind : ℕ) : Sane (findSection sections kind) := by
  unfold findSection
  split
  · exact faultless_ok _
  · exact faultless_error.2 not_false

omit [Digests] in
theorem mem_of_findSection {kind : ℕ} {entry : SectionEntry}
    (h : findSection sections kind = .ok entry) : entry ∈ sections := by
  unfold findSection at h
  split at h
  · rename_i found hfind
    cases h
    exact List.mem_of_find?_eq_some hfind
  · cases h

omit [Digests] in
theorem sane_sectionBytes (hinside : ∀ entry ∈ sections, Inside bytes entry) (kind : ℕ) :
    Sane (sectionBytes bytes sections kind) :=
  (sane_findSection kind).bind fun entry hentry =>
    sane_sliceOf (hinside entry (mem_of_findSection hentry)).1
      (hinside entry (mem_of_findSection hentry)).2

/-! ## The two overflows -/

/-- Loading gets to the slot records. -/
structure Reached (bytes : Bytes) (id : Uuid) (header : Header) (sections : List SectionEntry)
    (payloads slots : Bytes) : Prop where
  accepted : readHeader bytes id = .ok header
  footer : (blake3 (bytes.take (bytes.length - footerLen))).1 =
    bytes.drop (bytes.length - footerLen)
  table : readTable bytes header = .ok sections
  digests : sections.forM (checkSection bytes) = .ok ()
  keys : ∃ content keys, sectionBytes bytes sections sectionKeys = .ok content ∧
    readAll (many readKey header.keyCount) "keys section trailing bytes" content = .ok keys
  payloads : sectionBytes bytes sections sectionPayloads = .ok payloads
  slots : sectionBytes bytes sections sectionSlots = .ok slots

/-- Of every slot record that is reached the payload ends below 2⁶⁴, and the rows are shorter than 2⁶⁴
bytes when their section is looked up. -/
structure LoadFits (bytes : Bytes) (id : Uuid) : Prop where
  payloads {header sections payloads slots} : Reached bytes id header sections payloads slots →
    ∀ i < header.slotCount, ∀ records c, many (readRecord payloads) i slots = .ok (records, c) →
      ∀ fields rest, recordFields c = .ok (fields, rest) → fields.offset + fields.len < 2 ^ 64
  rows {header sections payloads slots} : Reached bytes id header sections payloads slots →
    ∀ records, readAll (many (readRecord payloads) header.slotCount)
        "slots section trailing bytes" slots = .ok records →
      ∀ f32, findSection sections sectionVectorsF32 = .ok f32 →
        header.slotCount * header.dims * 4 < 2 ^ 64

/-- The rows are shorter than 2⁶⁴ bytes when their section is looked up. -/
def MapFits (bytes : Bytes) (id : Uuid) (dims slotCount : ℕ) : Prop :=
  ∀ header sections f32, readHeader bytes id = .ok header →
    ¬(header.dims ≠ dims ∨ header.slotCount ≠ slotCount) → readTable bytes header = .ok sections →
      findSection sections sectionVectorsF32 = .ok f32 → slotCount * dims * 4 < 2 ^ 64

theorem loadFits_of_sane (h : Sane (load bytes id)) : LoadFits bytes id := by
  have hslots {header sections payloads slots}
      (hreached : Reached bytes id header sections payloads slots) :
      Sane (readAll (many (readRecord payloads) header.slotCount) "slots section trailing bytes"
        slots) ∧ ∀ records, readAll (many (readRecord payloads) header.slotCount)
          "slots section trailing bytes" slots = .ok records →
        ∀ f32, findSection sections sectionVectorsF32 = .ok f32 →
          Sane (rowsLen header.slotCount header.dims) := by
    obtain ⟨content, keys, hcontent, hkeys⟩ := hreached.keys
    have h := (sane_bind.1 h).2 _ hreached.accepted
    have h := (faultless_guard not_false).1 h (not_not.2 hreached.footer)
    have h := (sane_bind.1 h).2 _ hreached.table
    have h := (sane_bind.1 h).2 _ hreached.digests
    have h := (sane_bind.1 h).2 _ hcontent
    have h := (sane_bind.1 h).2 _ hkeys
    have h := (sane_bind.1 h).2 _ hreached.payloads
    have h := (sane_bind.1 h).2 _ hreached.slots
    obtain ⟨hread, h⟩ := sane_bind.1 h
    refine ⟨hread, fun records hrecords f32 hf32 => ?_⟩
    have h := (sane_bind.1 (h _ hrecords)).2 _ hf32
    exact (sane_bind.1 h).1
  constructor
  · intro header sections payloads slots hreached i hi records c hmany
    have hmany' := faultless_many_iff.1 (sane_readAll.1 (hslots hreached).1) i hi records c hmany
    exact sane_readRecord.1 hmany'
  · intro header sections payloads slots hreached records hrecords f32 hf32
    exact sane_rowsLen.1 ((hslots hreached).2 records hrecords f32 hf32)

theorem sane_load_of_fits (h : LoadFits bytes id) : Sane (load bytes id) := by
  refine sane_readHeader.bind fun header hheader => ?_
  obtain ⟨-, -, hdims, -, hslots, -, -, hcount⟩ := readHeader_bounds hheader
  refine (faultless_guard not_false).2 fun hfooter => ?_
  obtain ⟨htable, hinside⟩ := @sane_readTable bytes header hcount
  refine htable.bind fun sections hsections => ?_
  have hinside := hinside sections hsections
  refine (faultless_forM fun entry hentry => sane_checkSection (hinside entry hentry)).bind
    fun _ hdigests => ?_
  refine (sane_sectionBytes hinside _).bind fun content hcontent => ?_
  refine (sane_readAll.2 (faultless_many sane_readKey _ _)).bind fun keys hkeys => ?_
  refine (sane_sectionBytes hinside _).bind fun payloads hpayloads => ?_
  refine (sane_sectionBytes hinside _).bind fun slotsSection hslotsSection => ?_
  have hreached : Reached bytes id header sections payloads slotsSection :=
    ⟨hheader, not_not.1 hfooter, hsections, hdigests, ⟨content, keys, hcontent, hkeys⟩, hpayloads,
      hslotsSection⟩
  refine (sane_readAll.2 (faultless_many_iff.2 fun i hi records c hmany =>
    sane_readRecord.2 (h.payloads hreached i hi records c hmany))).bind fun slots hrecords => ?_
  refine (sane_findSection _).bind fun f32 hf32 => ?_
  have hrows := h.rows hreached slots hrecords f32 hf32
  refine (sane_rowsLen.2 hrows).bind fun size hsize => (faultless_guard not_false).2 fun hlen => ?_
  obtain ⟨-, rfl⟩ := rowsLen_eq_ok hsize
  obtain ⟨hlt, hle⟩ := hinside f32 (mem_of_findSection hf32)
  rw [not_not.1 hlen] at hlt hle
  refine (sane_mapRows hlt hle).bind fun vectors _ => ?_
  refine (sane_sectionBytes hinside _).bind fun _ _ => ?_
  refine (sane_readQuantized hslots hdims _).bind fun _ _ => ?_
  refine (sane_sectionBytes hinside _).bind fun graphSection _ => ?_
  refine (sane_readAll.2 (sane_readGraph hslots _)).bind fun out hgraph => ?_
  obtain ⟨params, graph⟩ := out
  have hsized : graph.Sized params header.slotCount := by
    obtain ⟨⟨⟨params', graph'⟩, rest⟩, hread, hrest⟩ := DistrHnsw.bind_eq_ok.1 hgraph
    obtain ⟨-, hrest⟩ := guard_eq_ok.1 hrest
    cases hrest
    rw [same_readGraph _ _ (sane_readGraph hslots _)] at hread
    exact readGraph_sized hread
  refine (sane_validateStructure hslots hsized _ _).bind fun _ _ => ?_
  refine (sane_sectionBytes hinside _).bind fun _ _ => ?_
  refine (sane_readAll.2 (faultless_many sane_readIdempotent _ _)).bind fun _ _ => faultless_ok _

theorem sane_mapVectors_iff {dims slotCount : ℕ} :
    Sane (mapVectors bytes id dims slotCount) ↔ MapFits bytes id dims slotCount := by
  constructor
  · intro h header sections f32 hheader hshape htable hf32
    have h := (sane_bind.1 h).2 _ hheader
    have h := (faultless_guard not_false).1 h hshape
    have h := (sane_bind.1 h).2 _ htable
    have h := (sane_bind.1 h).2 _ hf32
    exact sane_rowsLen.1 (sane_bind.1 h).1
  · intro h
    refine sane_readHeader.bind fun header hheader => (faultless_guard not_false).2 fun hshape => ?_
    obtain ⟨-, -, -, -, -, -, -, hcount⟩ := readHeader_bounds hheader
    obtain ⟨htable, hinside⟩ := @sane_readTable bytes header hcount
    refine htable.bind fun sections hsections => (sane_findSection _).bind fun f32 hf32 => ?_
    have hrows := h header sections f32 hheader hshape hsections hf32
    refine (sane_rowsLen.2 hrows).bind fun size hsize => (faultless_guard not_false).2 fun hlen => ?_
    obtain ⟨-, rfl⟩ := rowsLen_eq_ok hsize
    obtain ⟨hlt, hle⟩ := hinside sections hsections f32 (mem_of_findSection hf32)
    refine (sane_sliceOf hlt hle).bind fun _ _ => (faultless_guard not_false).2 fun _ => ?_
    rw [not_not.1 hlen] at hlt hle
    exact sane_mapRows hlt hle

/-- Loading a file and mapping its rows end without an overflow or an access outside the file exactly
when neither the payload of a slot record nor the rows end past 64 bits. -/
theorem loading_sane_iff : (Sane (load bytes id) ↔ LoadFits bytes id) ∧
    ∀ dims slotCount, Sane (mapVectors bytes id dims slotCount) ↔
      MapFits bytes id dims slotCount :=
  ⟨⟨loadFits_of_sane, sane_load_of_fits⟩, fun _ _ => sane_mapVectors_iff⟩

end File

/-! ## A payload past 64 bits -/

section Crafted

local instance craftedDigests : Digests := Digests.standard

/-- A slot record whose payload ends past 64 bits. -/
def farRecord : Bytes :=
  toLeBytes 8 1 ++ [0] ++ toLeBytes 4 0 ++ toLeBytes 8 (2 ^ 64 - 1) ++ toLeBytes 4 1

def farId : Uuid := sampleId

/-- A header of one slot and three sections, before its CRC. -/
def farBody : Bytes :=
  snapshotMagic ++ toLeBytes 2 snapshotVersion ++ toLeBytes 2 0 ++ farId.1 ++ toLeBytes 4 1 ++
    toLeBytes 1 (metricCode .l2) ++ [1, 0, 0] ++ toLeBytes 8 1 ++ toLeBytes 4 1 ++ toLeBytes 4 1 ++
    toLeBytes 4 0 ++ toLeBytes 4 0 ++ toLeBytes 4 3 ++ toLeBytes 8 headerLen ++ zeros 56

def farTable : List SectionEntry :=
  let nothing := toLeBytes 32 0x62321fe4ca939accb712c1adc925cb9b49c9dc36ea4d40a0a6a1f9f5b94913af
  let record := toLeBytes 32 0x45e45a168d9e9b13a7dfc1422309e8820d17efa351187663fcfc94e30c466df0
  [⟨sectionKeys, 284, 0, nothing⟩, ⟨sectionPayloads, 284, 0, nothing⟩,
    ⟨sectionSlots, 284, 25, record⟩]

def farContent : Bytes :=
  farBody ++ toLeBytes 4 0xa16a4ab3 ++ farTable.flatMap SectionEntry.toLe ++ farRecord

/-- A file with valid digests around the record. -/
def farFile : Bytes :=
  farContent ++ toLeBytes 32 0xb6910bc74852c848077b2d3872c353cae75583e1f75d09eb25611a016cf4b29e

theorem crc_farBody : crc32c farBody = 2708097715 := by
  have hfirst : (farBody.take 62).foldl Crc32c.step 0xFFFFFFFF = 1831333766 := by decide +kernel
  have hsecond : (farBody.drop 62).foldl Crc32c.step 1831333766 ^^^ 0xFFFFFFFF = 2708097715 := by
    decide +kernel
  have hsplit : farBody.foldl Crc32c.step 0xFFFFFFFF =
      (farBody.drop 62).foldl Crc32c.step ((farBody.take 62).foldl Crc32c.step 0xFFFFFFFF) := by
    rw [← List.foldl_append, List.take_append_drop]
  show farBody.foldl Crc32c.step 0xFFFFFFFF ^^^ 0xFFFFFFFF = 2708097715
  rw [hsplit, hfirst, hsecond]

theorem readHeader_far :
    readHeader farFile farId = .ok ⟨farId, 1, .l2, 1, 1, 0, 0, 3, headerLen⟩ := by
  have hbody : (farFile.take headerLen).take (headerLen - 4) = farBody := by decide +kernel
  have hcrc : fromLeBytes ((farFile.take headerLen).drop (headerLen - 4)) = 2708097715 := by
    decide +kernel
  unfold readHeader
  rw [if_neg (show ¬farFile.length < headerLen + footerLen by decide +kernel)]
  dsimp only
  rw [hbody, crc_farBody, hcrc, if_neg (show ¬(2708097715 : UInt32).toNat ≠ 2708097715 by decide)]
  decide +kernel

theorem reached_far : Reached farFile farId ⟨farId, 1, .l2, 1, 1, 0, 0, 3, headerLen⟩ farTable []
    farRecord where
  accepted := readHeader_far
  footer := by
    have hcontent : farFile.take (farFile.length - footerLen) = farContent := by decide +kernel
    rw [hcontent]
    decide +kernel
  table := by decide +kernel
  digests := by decide +kernel
  keys := ⟨[], [], by decide +kernel, by decide +kernel⟩
  payloads := by decide +kernel
  slots := by decide +kernel

/-- The end of the payload overflows. -/
theorem crafted_payload_overflows : ¬ ∀ (bytes : Bytes) (id : Uuid), Sane (load bytes id) ∧
    ∀ dims slotCount, Sane (mapVectors bytes id dims slotCount) := by
  intro h
  have hfields : recordFields farRecord = .ok (⟨1, false, 0, 2 ^ 64 - 1, 1⟩, []) := rfl
  have hlt := (loadFits_of_sane (h farFile farId).1).payloads reached_far 0 Nat.one_pos [] farRecord
    rfl _ _ hfields
  exact absurd hlt (by decide)

end Crafted

end Explicit

end Index

end DistrHnsw
