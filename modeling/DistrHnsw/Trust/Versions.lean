import DistrHnsw.Trust.Rotation

/-!
# A version names one key set

Processes load grant material while others write: the counters and the keys are two reads.  As long as
the keys did not change between them, what is produced is the set of one database, and no two sets share
a version.
-/

namespace DistrHnsw

namespace Trust

open Metadata (Access AccessWrite KeyChange SigningKeyRow Time)

section

variable [Ed25519] [Digests] [MasterKey] {a b : Access} {createdAt : Metadata.KeyId → Time}

/-! ## One database after the other -/

/-- While there are keys, a write that keeps the version keeps keys and epoch. -/
theorem same_of_write (h : a.Keyed) (hsome : a.signingKeys ≠ []) (hwrite : Writes a b) :
    (b.signingKeys = a.signingKeys ∧ b.grantState = a.grantState) ∨
      a.grantState.keySetVersion < b.grantState.keySetVersion := by
  obtain ⟨w, -, hok⟩ := hwrite
  have hbump (newEpoch : Bool) :
      a.grantState.keySetVersion < (a.grantState.bump newEpoch).keySetVersion :=
    Nat.lt_succ_self _
  cases Metadata.perform_change hok with
  | kept keys state => exact .inl ⟨keys, state⟩
  | first none fresh keys state =>
    obtain ⟨key, hkey⟩ := List.exists_mem_of_length_pos
      (by rw [h.active hsome]; exact Nat.one_pos)
    obtain ⟨hmem, hactive⟩ := List.mem_filter.1 hkey
    exact absurd (of_decide_eq_true hactive) (none key hmem)
  | rotated fresh keys state => exact .inr (state ▸ hbump _)
  | ended found own retiring keys state => exact .inr (state ▸ hbump _)
  | rejoined keys state => exact .inr (state ▸ hbump _)

/-- From a database with keys on, databases of one version have the same keys and epoch. -/
theorem same_of_version (h : a.Keyed) (hsome : a.signingKeys ≠ [])
    (hrun : Relation.ReflTransGen Writes a b)
    (hversion : b.grantState.keySetVersion = a.grantState.keySetVersion) :
    b.signingKeys = a.signingKeys ∧ b.grantState = a.grantState := by
  induction hrun using Relation.ReflTransGen.head_induction_on with
  | refl => exact ⟨rfl, rfl⟩
  | @head a c hwrite hrest ih =>
    rcases same_of_write h hsome hwrite with ⟨hkeys, hstate⟩ | hlt
    · obtain ⟨hkeys', hstate'⟩ :=
        ih (keyed_write h hwrite) (hkeys ▸ hsome) (hversion.trans (by rw [hstate]))
      exact ⟨hkeys'.trans hkeys, hstate'.trans hstate⟩
    · have hle := (le_of_run hrest).version
      omega

/-- The databases before `access`, newest first. -/
inductive History : Access → List Access → Prop
  | new : History Metadata.Database.new.toAccess []
  | write {a b : Access} {past : List Access} (before : History a past) (ok : Writes a b) :
      History b (a :: past)

theorem History.reaches {past : List Access} (h : History a past) :
    ∀ x ∈ a :: past, Relation.ReflTransGen Writes x a := by
  induction h with
  | new =>
    intro x hx
    rw [List.mem_singleton.1 hx]
  | write before ok ih =>
    intro x hx
    rcases List.mem_cons.1 hx with rfl | hx
    · exact .refl
    · exact (ih x hx).tail ok

theorem History.keyed {past : List Access} (h : History a past) : ∀ x ∈ a :: past, x.Keyed := by
  induction h with
  | new =>
    intro x hx
    rw [List.mem_singleton.1 hx]
    exact Metadata.keyed_new
  | @write a b past before ok ih =>
    intro x hx
    rcases List.mem_cons.1 hx with rfl | hx
    · exact keyed_write (ih a List.mem_cons_self) ok
    · exact ih x hx

/-- Of two databases of a history one came before the other. -/
theorem History.ordered {past : List Access} (h : History a past) : ∀ x ∈ a :: past, ∀ y ∈ a :: past,
    Relation.ReflTransGen Writes x y ∨ Relation.ReflTransGen Writes y x := by
  induction h with
  | new =>
    intro x hx y hy
    rw [List.mem_singleton.1 hx, List.mem_singleton.1 hy]
    exact .inl .refl
  | write before ok ih =>
    have hreaches := (before.write ok).reaches
    intro x hx y hy
    rcases List.mem_cons.1 hx with rfl | hold
    · exact .inr (hreaches y hy)
    rcases List.mem_cons.1 hy with rfl | hold'
    · exact .inl (hreaches x hx)
    · exact ih x hold y hold'

theorem keys_of_load {material : GrantMaterial} (h : GrantMaterial.load createdAt a = .ok material) :
    a.signingKeys ≠ [] := by
  obtain ⟨-, hmatched, -, -⟩ := load_eq_ok.1 h
  obtain ⟨row, hrow, -⟩ := Matched.mem_right hmatched _ (List.head_mem material.signers_ne_nil)
  exact List.ne_nil_of_mem (mem_signingKeys.1 hrow).1

/-- Two databases of a history whose sets have one version have one set. -/
theorem History.one_set {past : List Access} (h : History a past) {x y : Access} (hx : x ∈ a :: past)
    (hy : y ∈ a :: past) {material other : GrantMaterial}
    (hload : GrantMaterial.load createdAt x = .ok material)
    (hload' : GrantMaterial.load createdAt y = .ok other) (hversion : material.version = other.version) :
    material = other := by
  obtain ⟨⟨-, hrange⟩, -, -, hown⟩ := load_eq_ok.1 hload
  obtain ⟨⟨-, hrange'⟩, -, -, hown'⟩ := load_eq_ok.1 hload'
  have hsame : x.grantState.keySetVersion = y.grantState.keySetVersion := by
    rw [← toNat_counter hrange, ← toNat_counter hrange', ← hown, ← hown', hversion]
  have hboth : y.signingKeys = x.signingKeys ∧ y.grantState = x.grantState := by
    rcases h.ordered x hx y hy with hrun | hrun
    · exact same_of_version (h.keyed x hx) (keys_of_load hload) hrun hsame.symm
    · obtain ⟨hkeys, hstate⟩ := same_of_version (h.keyed y hy) (keys_of_load hload') hrun hsame
      exact ⟨hkeys.symm, hstate.symm⟩
  have hloads : GrantMaterial.load createdAt y = GrantMaterial.load createdAt x := by
    unfold GrantMaterial.load signingKeys
    rw [hboth.1, hboth.2]
  rw [hloads, hload] at hload'
  exact Except.ok.inj hload'

/-! ## Loads among writes -/

/-- The database, the databases before it, what each process read of the counters, and from which
database, and the material produced. -/
structure Portal (ι : Type) where
  access : Access
  past : List Access
  reading : ι → Option ((UInt64 × UInt64) × Access)
  produced : List GrantMaterial

def Portal.new (ι : Type) : Portal ι := ⟨Metadata.Database.new.toAccess, [], fun _ => none, []⟩

/-- One write, or one read of a process. -/
inductive Act (ι : Type) where
  | write
  | readState (process : ι)
  | readKeys (process : ι)

variable {ι : Type} [DecidableEq ι] {x y : Portal ι} {act : Act ι}

inductive LoadStep (createdAt : Metadata.KeyId → Time) : Portal ι → Act ι → Portal ι → Prop
  | write {x : Portal ι} {b : Access} (ok : Writes x.access b) :
      LoadStep createdAt x .write { x with access := b, past := x.access :: x.past }
  | readState {x : Portal ι} (process : ι) {state : UInt64 × UInt64}
      (ok : readGrantState x.access.grantState = .ok state) :
      LoadStep createdAt x (.readState process)
        { x with reading := Function.update x.reading process (some (state, x.access)) }
  | readKeys {x : Portal ι} (process : ι) {state : UInt64 × UInt64} {before : Access}
      {material : GrantMaterial} (began : x.reading process = some (state, before))
      (ok : GrantMaterial.assemble state (signingKeys createdAt x.access) = .ok material) :
      LoadStep createdAt x (.readKeys process)
        { x with reading := Function.update x.reading process none, produced := material :: x.produced }
  | failed {x : Portal ι} (process : ι) {state : UInt64 × UInt64} {before : Access} {error : AccessError}
      (began : x.reading process = some (state, before))
      (no : GrantMaterial.assemble state (signingKeys createdAt x.access) = .error error) :
      LoadStep createdAt x (.readKeys process)
        { x with reading := Function.update x.reading process none }

/-- The keys that are read are those that were listed when the counters were read. -/
def Act.Undisturbed (createdAt : Metadata.KeyId → Time) (x : Portal ι) : Act ι → Prop
  | .readKeys process => ∀ state before, x.reading process = some (state, before) →
      signingKeys createdAt x.access = signingKeys createdAt before
  | _ => True

/-- Any number of steps that meet a condition. -/
inductive Loads.Run (createdAt : Metadata.KeyId → Time) (Meets : Portal ι → Act ι → Prop) : Portal ι → Prop
  | new : Run createdAt Meets (.new ι)
  | step {x y : Portal ι} {act : Act ι} (before : Run createdAt Meets x)
      (step : LoadStep createdAt x act y) (meets : Meets x act) : Run createdAt Meets y

/-- What is produced is the set of a database, and what was read is of a database. -/
structure Named (createdAt : Metadata.KeyId → Time) (x : Portal ι) : Prop where
  history : History x.access x.past
  reading : ∀ process state before, x.reading process = some (state, before) →
    before ∈ x.access :: x.past ∧ readGrantState before.grantState = .ok state
  produced : ∀ material ∈ x.produced, ∃ a ∈ x.access :: x.past,
    GrantMaterial.load createdAt a = .ok material

theorem Named.step (h : Named createdAt x) (hstep : LoadStep createdAt x act y)
    (hmeets : act.Undisturbed createdAt x) : Named createdAt y := by
  obtain ⟨hhistory, hreading, hproduced⟩ := h
  have hcleared {process other : ι} {own : (UInt64 × UInt64) × Access}
      (hown : Function.update x.reading process none other = some own) : x.reading other = some own := by
    by_cases hsame : other = process
    · rw [hsame, Function.update_self] at hown
      cases hown
    · rwa [Function.update_of_ne hsame] at hown
  cases hstep with
  | write ok =>
    refine ⟨hhistory.write ok, fun process state before hown => ?_, fun material hmaterial => ?_⟩
    · obtain ⟨hmem, hread⟩ := hreading process state before hown
      exact ⟨List.mem_cons_of_mem _ hmem, hread⟩
    · obtain ⟨a, ha, hload⟩ := hproduced material hmaterial
      exact ⟨a, List.mem_cons_of_mem _ ha, hload⟩
  | @readState process state ok =>
    refine ⟨hhistory, fun other own before hown => ?_, hproduced⟩
    by_cases hsame : other = process
    · rw [hsame] at hown
      dsimp only at hown
      rw [Function.update_self] at hown
      cases hown
      exact ⟨List.mem_cons_self, ok⟩
    · dsimp only at hown
      rw [Function.update_of_ne hsame] at hown
      exact hreading other own before hown
  | @readKeys process state before material began ok =>
    refine ⟨hhistory, fun other own before hown => hreading other own before (hcleared hown), ?_⟩
    intro other hother
    rcases List.mem_cons.1 hother with rfl | hother
    · obtain ⟨hmem, hread⟩ := hreading process state before began
      refine ⟨before, hmem, ?_⟩
      unfold GrantMaterial.load
      rw [hread, ← hmeets state before began]
      exact ok
    · exact hproduced other hother
  | failed process began no =>
    exact ⟨hhistory, fun other own before hown => hreading other own before (hcleared hown), hproduced⟩

theorem Named.run (h : Loads.Run createdAt (Act.Undisturbed createdAt) x) : Named createdAt x := by
  induction h with
  | new =>
    exact ⟨.new, fun _ _ _ h => (nomatch h), fun _ h => absurd h List.not_mem_nil⟩
  | step before step meets ih => exact ih.step step meets

/-! ## One set for each version -/

omit [Digests] [MasterKey] in
theorem update_notNewer {held right : SignedKeySet} {node : Option (List Char)} {offered current : UInt64}
    (h : update (some ⟨held, node⟩) right = .error (.notNewer offered current)) :
    right.keySet.version ≤ held.keySet.version := by
  unfold update at h
  dsimp only at h
  split at h
  · cases h
  · split at h
    · assumption
    · split at h <;> cases h

theorem le_of_load {held right : GrantMaterial} (hrun : Relation.ReflTransGen Writes a b)
    (hheld : GrantMaterial.load createdAt a = .ok held)
    (hright : GrantMaterial.load createdAt b = .ok right) : held.version ≤ right.version := by
  obtain ⟨⟨-, hrange⟩, -, -, hown⟩ := load_eq_ok.1 hheld
  obtain ⟨⟨-, hrange'⟩, -, -, hown'⟩ := load_eq_ok.1 hright
  rw [hown, hown', UInt64.le_iff_toNat_le, toNat_counter hrange, toNat_counter hrange']
  exact (le_of_run hrun).version

/-- The epoch is one of a database that lists the key grants are issued with. -/
def GrantMaterial.IssuesUnder (databases : List Access) (material : GrantMaterial) : Prop :=
  ∃ a ∈ databases, material.epoch = UInt64.ofNat a.grantState.epoch ∧ ∃ row ∈ listedKeys a,
    row.keyId = rowKeyId material.active.keyId ∧ row.publicKey = material.active.verifyingKey.1.1

omit [DecidableEq ι] in
theorem Named.issuesUnder (h : Named createdAt x) : ∀ material ∈ x.produced,
    material.IssuesUnder (x.access :: x.past) := by
  intro material hmaterial
  obtain ⟨a, ha, hload⟩ := h.produced material hmaterial
  obtain ⟨-, hmatched, hepoch, -⟩ := load_eq_ok.1 hload
  obtain ⟨row, hrow, hunseal, -⟩ := Matched.mem_right hmatched _ (List.head_mem material.signers_ne_nil)
  have hopens := opens_of_unsealKey hunseal
  exact ⟨a, ha, hepoch, row, signingKeys_perm.mem_iff.1 hrow, hopens.keyId.symm, hopens.publicKey.symm⟩

/-- In a run whose loads read the keys unchanged since they read the counters, sets of one version have
one epoch and one list of keys, grants are issued under an epoch that lists their key, and a set is
refused as not newer only by an agent that holds it. -/
theorem version_names_key_set (h : Loads.Run createdAt (Act.Undisturbed createdAt) x) :
    (∀ material ∈ x.produced, ∀ other ∈ x.produced, material.version = other.version →
      material.epoch = other.epoch ∧ material.keySet.keys = other.keySet.keys) ∧
    (∀ material ∈ x.produced, material.IssuesUnder (x.access :: x.past)) ∧
    (∀ held ∈ x.produced, ∀ right, GrantMaterial.load createdAt x.access = .ok right →
      ∀ node offered current, update (some ⟨held.signedKeySet, node⟩) right.signedKeySet =
        .error (.notNewer offered current) → held.signedKeySet = right.signedKeySet) := by
  have hnamed := Named.run h
  have hone {material other : GrantMaterial} {a b : Access} (ha : a ∈ x.access :: x.past)
      (hb : b ∈ x.access :: x.past) (hload : GrantMaterial.load createdAt a = .ok material)
      (hload' : GrantMaterial.load createdAt b = .ok other) (hversion : material.version = other.version) :
      material = other :=
    hnamed.history.one_set ha hb hload hload' hversion
  refine ⟨fun material hmaterial other hother hversion => ?_, hnamed.issuesUnder,
    fun held hheld right hright node offered current hrefused => ?_⟩
  · obtain ⟨a, ha, hload⟩ := hnamed.produced material hmaterial
    obtain ⟨b, hb, hload'⟩ := hnamed.produced other hother
    rw [hone ha hb hload hload' hversion]
    exact ⟨rfl, rfl⟩
  · obtain ⟨a, ha, hload⟩ := hnamed.produced held hheld
    have hle := le_of_load (hnamed.history.reaches a ha) hload hright
    have hnotNewer := update_notNewer hrefused
    rw [hone ha List.mem_cons_self hload hright (UInt64.le_antisymm hle hnotNewer)]

end

/-! ## A rotation between the two reads -/

theorem assemble_of_load [Ed25519] [Digests] [MasterKey] {a : Access} {createdAt : Metadata.KeyId → Time}
    {material : GrantMaterial} (h : GrantMaterial.load createdAt a = .ok material)
    (state : UInt64 × UInt64) : GrantMaterial.assemble state (signingKeys createdAt a) =
      .ok ⟨material.signers, state.1, state.2, material.active_first⟩ := by
  obtain ⟨-, hmatched, -, -⟩ := load_eq_ok.1 h
  exact assemble_eq_ok.2
    ⟨(loadSigners_eq_ok fun row hrow => (mem_signingKeys.1 hrow).2).2 hmatched, rfl, rfl⟩

section

local instance fixedEd25519 : Ed25519 := plainScheme

local instance fixedDigests : Digests := firstBytes

local instance fixedMasterKey : MasterKey := plainMaster

/-- Each of two writes recorded its keys, of which the second's snapshot lists one more. -/
def rotates (first last : Except Metadata.MetadataError Access) : Bool :=
  match first, last with
  | .ok first, .ok last => decide (first.signingKeys ≠ [] ∧ last.signingKeys ≠ [] ∧
      (listedKeys first).length = 1 ∧ (listedKeys last).length = 2 ∧
      first.grantState = ⟨1, 1⟩ ∧ last.grantState = ⟨1, 2⟩)
  | _, _ => false

/-- The first key, and the first rotation. -/
theorem first_rotation : ∃ first last material rotated,
    Writes Metadata.Database.new.toAccess first ∧ Writes first last ∧
    readGrantState first.grantState = .ok (1, 1) ∧
    GrantMaterial.load (fun _ => 0) first = .ok material ∧
    GrantMaterial.load (fun _ => 0) last = .ok rotated ∧
    material.signers.length = 1 ∧ rotated.signers.length = 2 := by
  have h : rotates (rotations 0) (rotations 1) = true := by decide +kernel
  unfold rotates at h
  split at h
  · next first last hfirst hlast =>
    obtain ⟨hsome, hsome', hone, htwo, hstate, hstate'⟩ := of_decide_eq_true h
    have hwrite := writes_first hfirst
    obtain ⟨start, hstart, hrotate⟩ := bind_eq_ok.1 hlast
    have hsame : start = first := Except.ok.inj (hstart.symm.trans hfirst)
    rw [hsame] at hrotate
    have hwrite' : Writes first last := ⟨.rotateSigningKey (keyRow 1), ⟨_, _, _, rfl⟩, hrotate⟩
    obtain ⟨material, hload⟩ := (Stored.run unwraps_plainMaster (.single hwrite)).load
      hsome (by rw [hstate]; decide)
    obtain ⟨rotated, hload'⟩ := (Stored.run unwraps_plainMaster (.tail (.single hwrite) hwrite')).load
      hsome' (by rw [hstate']; decide)
    exact ⟨first, last, material, rotated, hwrite, hwrite', by rw [hstate]; rfl, hload, hload',
      (length_of_load hload).trans hone, (length_of_load hload').trans htwo⟩
  · cases h

/-- Two processes load the first key, one before and one after the rotation. -/
theorem version_names_key_set_rotated : ∃ (x : Portal Bool), x.produced.length = 2 ∧
    (∀ material ∈ x.produced, ∀ other ∈ x.produced, material.version = other.version →
      material.epoch = other.epoch ∧ material.keySet.keys = other.keySet.keys) := by
  obtain ⟨first, last, material, rotated, hfirst, hlast, hstate, hload, hload', hone, htwo⟩ := first_rotation
  have hread := assemble_of_load hload (1, 1)
  obtain ⟨⟨hepoch, hversion⟩, -, -, -⟩ := load_eq_ok.1 hload'
  have hafter := readGrantState_eq_ok.2 ⟨⟨hepoch, hversion⟩, rfl⟩
  have hrun₁ : Loads.Run (fun _ => 0) (Act.Undisturbed fun _ => 0) _ :=
    ((Loads.Run.new (ι := Bool)).step (.write hfirst) trivial).step
      (.readState false hstate) trivial
  have hrun₂ := hrun₁.step (.readKeys false rfl hread)
    fun state before hbegan => by
      cases hbegan
      rfl
  have hrun₃ := (hrun₂.step (.write hlast) trivial).step (.readState true hafter) trivial
  have hrun₄ := hrun₃.step (.readKeys true rfl
    (assemble_of_load hload' _)) fun state before hbegan => by
      cases hbegan
      rfl
  exact ⟨_, rfl, (version_names_key_set hrun₄).1⟩

end

/-- A rotation between the two reads of a load gives the new keys the old version. -/
theorem torn_load_reuses_version : ¬ ∀ (_ : Ed25519) (_ : Digests) (_ : MasterKey)
    (createdAt : Metadata.KeyId → Time) (x : Portal Bool), Loads.Run createdAt (fun _ _ => True) x →
      ∀ material ∈ x.produced, ∀ other ∈ x.produced, material.version = other.version →
        material.epoch = other.epoch ∧ material.keySet.keys = other.keySet.keys := by
  intro h
  let scheme := plainScheme
  let digests := firstBytes
  let master := plainMaster
  obtain ⟨first, last, material, rotated, hfirst, hlast, hstate, hload, hload', hone, htwo⟩ := first_rotation
  have hrun₁ : Loads.Run (fun _ => 0) (fun _ _ => True) _ :=
    ((Loads.Run.new (ι := Bool)).step (.write hfirst) trivial).step
      (.readState false hstate) trivial
  have hrun₂ := hrun₁.step (.readKeys false rfl
    (assemble_of_load hload _)) trivial
  have hrun₃ := ((hrun₂.step (.readState true hstate) trivial).step (.write hlast) trivial).step
    (.readKeys true rfl (assemble_of_load hload' _)) trivial
  obtain ⟨-, hkeys⟩ := h scheme digests master (fun _ => 0) _ hrun₃ _ List.mem_cons_self _
    (List.mem_cons_of_mem _ List.mem_cons_self) rfl
  have hlen := congrArg List.length hkeys
  rw [GrantMaterial.length_keys, GrantMaterial.length_keys] at hlen
  dsimp only at hlen
  omega

end Trust

end DistrHnsw
