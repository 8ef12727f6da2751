import DistrHnsw.Lib.Matched
import DistrHnsw.Metadata.KeyChange
import DistrHnsw.Trust.Forward
import DistrHnsw.Trust.Material
import DistrHnsw.Trust.Verify
import Mathlib.Logic.Relation

/-!
# Agents follow the portal's key set

After any writes the portal's key set is signed by every key in it, so an agent that holds an earlier
set with a key in common accepts it, as long as the set is not too long to be read.
-/

namespace DistrHnsw

namespace Trust

open Reader
open Metadata (Access AccessWrite GrantState KeyChange SigningKeyRow Time)

section

variable [Ed25519] [Digests]

/-! ## Grant material -/

/-- The signers are made from their seeds; each has its own identifier, and one is active. -/
structure GrantMaterial.Sound (material : GrantMaterial) : Prop where
  own : ∀ loaded ∈ material.signers, loaded.1 = .fromSeed loaded.1.seed
  nodup : (material.keySet.keys.map (·.keyId)).Nodup
  active : material.keySet.activeKeys.length = 1

variable {material held current : GrantMaterial}

theorem GrantMaterial.Sound.matches (h : material.Sound) : ∀ key ∈ material.keySet.keys, key.Matches := by
  intro key hkey
  obtain ⟨loaded, hloaded, rfl⟩ := List.mem_map.1 hkey
  show KeyId.of (Ed25519.verifyingKey loaded.1.seed) = loaded.1.keyId
  rw [h.own loaded hloaded]
  rfl

omit [Digests] in
theorem GrantMaterial.length_keys (material : GrantMaterial) :
    material.keySet.keys.length = material.signers.length := List.length_map _

omit [Digests] in
theorem GrantMaterial.length_signatures (material : GrantMaterial) :
    material.signedKeySet.signatures.length = material.signers.length :=
  (List.length_map _).trans (List.length_map _)

/-- A set of at most sixteen keys is read back. -/
theorem GrantMaterial.Sound.fromBytes (h : material.Sound) (hbounded : material.signers.length ≤ maxKeys) :
    SignedKeySet.fromBytes material.signedKeySet.toBytes = .ok material.signedKeySet := by
  have hpos := List.length_pos_of_ne_nil material.signers_ne_nil
  have hkeys : material.signedKeySet.keySet.keys.length = _ := material.length_keys
  have hsignatures := material.length_signatures
  exact SignedKeySet.fromBytes_eq_ok.2 ⟨⟨⟨by omega, by omega, h.matches, h.active⟩, rfl, by omega,
    by omega⟩, rfl⟩

/-- A set of more keys is not read as any set: the lengths do not fit. -/
theorem GrantMaterial.bounded_of_fromBytes {set : SignedKeySet}
    (h : SignedKeySet.fromBytes material.signedKeySet.toBytes = .ok set) :
    material.signers.length ≤ maxKeys := by
  obtain ⟨⟨hset, hbody, -, hsigned⟩, hbytes⟩ := SignedKeySet.fromBytes_eq_ok.1 h
  have hlen := congrArg List.length hbytes
  have hown : material.signedKeySet.body.length = 17 + 41 * material.keySet.keys.length :=
    material.keySet.length_encodeBody
  have hkeys := hset.bounded
  rw [SignedKeySet.length_toBytes, SignedKeySet.length_toBytes, hbody, hown,
    KeySet.length_encodeBody, material.length_keys, material.length_signatures] at hlen
  omega

/-! ## Accepting a set -/

/-- Signatures verify under their own key and under no other. -/
structure Unforgeable [Ed25519] : Prop where
  correct : ∀ seed message,
    Ed25519.verifies (Ed25519.verifyingKey seed) message (Ed25519.sign seed message) = true
  own : ∀ key seed message, Ed25519.verifies key message (Ed25519.sign seed message) = true →
    key = Ed25519.verifyingKey seed

/-- The sets have a key in common. -/
def GrantMaterial.Shares (held current : GrantMaterial) : Prop :=
  ∃ old ∈ held.signers, ∃ new ∈ current.signers, old.1.verifyingKey = new.1.verifyingKey

/-- The current set is signed by the common key. -/
theorem GrantMaterial.Sound.signedBy (hscheme : Unforgeable) (hheld : held.Sound)
    (hcurrent : current.Sound) (hshared : held.Shares current) :
    current.signedKeySet.signedBy held.keySet = true := by
  obtain ⟨old, hold, new, hnew, hsame⟩ := hshared
  have hnewId : new.1.keyId = KeyId.of new.1.verifyingKey := by
    rw [hcurrent.own new hnew]
    rfl
  have holdId : old.1.keyId = KeyId.of old.1.verifyingKey := by
    rw [hheld.own old hold]
    rfl
  have hfound : held.keySet.key new.1.keyId = some ⟨old.1.keyId, old.1.verifyingKey, old.2⟩ :=
    (KeySet.key_eq_some hheld.nodup).2 ⟨List.mem_map_of_mem hold, by rw [hnewId, ← hsame, ← holdId]⟩
  refine List.any_eq_true.2 ⟨(new.1.keyId, new.1.signRaw keySetDomain current.keySet.encodeBody),
    List.mem_map_of_mem (List.mem_map_of_mem hnew), ?_⟩
  dsimp only
  rw [hfound, Option.any_some, hsame]
  exact hscheme.correct new.1.seed _

/-- A newer set with a common key and no older epoch replaces the one held. -/
theorem GrantMaterial.Sound.update (hscheme : Unforgeable) (hheld : held.Sound)
    (hcurrent : current.Sound) (hshared : held.Shares current) (hepoch : held.epoch ≤ current.epoch)
    (hnewer : held.version < current.version) (node : Option (List Char)) :
    update (some ⟨held.signedKeySet, node⟩) current.signedKeySet =
      .ok ⟨[.replaceKeySet current.signedKeySet.toBytes], some ⟨current.signedKeySet, node⟩⟩ := by
  have hsigned : current.signedKeySet.signedBy held.signedKeySet.keySet = true :=
    hheld.signedBy hscheme hcurrent hshared
  unfold Trust.update
  refine guard_eq_ok.2 ⟨by rw [hsigned]; decide, ?_⟩
  exact guard_eq_ok.2 ⟨UInt64.not_le.2 hnewer, guard_eq_ok.2 ⟨UInt64.not_lt.2 hepoch, rfl⟩⟩

/-! ## Grants under the set -/

/-- The grant that is issued. -/
def PortalSigner.grant (signer : PortalSigner) (epoch : UInt64) (expect : Expectation)
    (gcProof : Option Uuid) (now : Int64) (nonce : Fixed 16) : Grant :=
  ⟨signer.keyId, epoch, expect.agentId, expect.operation, expect.scope, gcProof, now,
    now + grantLifetimeSeconds, nonce⟩

omit [Digests] in
theorem PortalSigner.issue_eq_ok {signer : PortalSigner} {epoch : UInt64} {expect : Expectation}
    {gcProof : Option Uuid} {now : Int64} {nonce : Fixed 16} {token : List Char} :
    signer.issue epoch expect.agentId expect.operation expect.scope gcProof now nonce = .ok token ↔
      (signer.grant epoch expect gcProof now nonce).Fits ∧
        token = signer.signGrant (signer.grant epoch expect gcProof now nonce) := by
  unfold PortalSigner.issue
  rw [guard_eq_ok, Except.ok.injEq]
  exact and_congr Nat.not_lt eq_comm

omit [Digests] in
/-- A token that is accepted is that of a grant signed with a listed key. -/
theorem KeySet.verify_signGrant {set : KeySet} {signer : PortalSigner} {grant accepted : Grant}
    {expect : Expectation} {later : Int64}
    (h : set.verify (signer.signGrant grant) expect later = .ok accepted) :
    accepted.encodeBody = grant.encodeBody ∧ accepted.Fits ∧ accepted.epoch = set.epoch ∧
      ∃ key ∈ set.keys, Ed25519.verifies key.publicKey
        (signedMessage grantDomain grant.encodeBody) (signer.signRaw grantDomain grant.encodeBody) := by
  obtain ⟨⟨hfits, key, signature, hkey, htoken, hverifies⟩, hgrants⟩ := KeySet.verify_eq_ok.1 h
  unfold PortalSigner.signGrant at htoken
  rw [trim_base64] at htoken
  have hbytes := congrArg Base64.decode htoken
  rw [Base64.decode_encode, Base64.decode_encode, Option.some.injEq] at hbytes
  obtain ⟨hbody, hsignature⟩ := List.append_inj' hbytes 
    (by rw [signature.2, (signer.signRaw grantDomain grant.encodeBody).2])
  rw [← hbody, ← Subtype.ext hsignature] at hverifies
  exact ⟨hbody.symm, hfits, hgrants.epoch, key, List.mem_of_find?_eq_some hkey, hverifies⟩

/-- The request comes between the issue of a grant and its expiry, up to the tolerated difference, and
the expiry is a time. -/
structure InTime (now later : Int64) : Prop where
  range : now.toInt + grantLifetimeSeconds.toInt < 2 ^ 63
  started : now.toInt - later.toInt ≤ clockSkewSeconds.toInt
  unexpired : later.toInt - now.toInt ≤ grantLifetimeSeconds.toInt + clockSkewSeconds.toInt

omit [Ed25519] [Digests] in
theorem toInt_expiry {now : Int64} (h : now.toInt + grantLifetimeSeconds.toInt < 2 ^ 63) :
    (now + grantLifetimeSeconds).toInt = now.toInt + grantLifetimeSeconds.toInt := by
  have hrange : now.toInt + 120 < 2 ^ 63 := h
  have hnow := now.le_toInt
  rw [Int64.toInt_add]
  show (now.toInt + 120).bmod (2 ^ 64) = now.toInt + 120
  exact Int.bmod_eq_of_le_mul_two (by omega) (by omega)

omit [Digests] in
/-- A grant that is issued says what is expected, as long as it is in time. -/
theorem InTime.grants {set : KeySet} {signer : PortalSigner} {epoch : UInt64} {expect : Expectation}
    {gcProof : Option Uuid} {now later : Int64} {nonce : Fixed 16} (h : InTime now later)
    (hepoch : epoch = set.epoch) (hproof : expect.operation = .delete → gcProof ≠ none) :
    set.Grants expect later (signer.grant epoch expect gcProof now nonce) := by
  have hexpires := toInt_expiry h.range
  have hstarted := h.started
  have hunexpired := h.unexpired
  have hlifetime : grantLifetimeSeconds.toInt = 120 := by decide
  have hmax : maxGrantLifetimeSeconds.toInt = 300 := by decide
  refine ⟨hepoch, rfl, rfl, rfl, hproof, ?_, ?_, ?_, hstarted⟩
  · show 0 ≤ (now + grantLifetimeSeconds).toInt - now.toInt
    omega
  · show (now + grantLifetimeSeconds).toInt - now.toInt ≤ _
    omega
  · show later.toInt - (now + grantLifetimeSeconds).toInt ≤ _
    omega

/-- A grant of the active key in the set's epoch is accepted. -/
theorem GrantMaterial.Sound.verify_issued (hscheme : Unforgeable) (h : material.Sound)
    {expect : Expectation} {gcProof : Option Uuid} {now later : Int64} {nonce : Fixed 16}
    (hfits : (material.active.grant material.epoch expect gcProof now nonce).Fits)
    (hproof : expect.operation = .delete → gcProof ≠ none) (htime : InTime now later) :
    material.keySet.verify (material.active.signGrant
      (material.active.grant material.epoch expect gcProof now nonce)) expect later =
      .ok (material.active.grant material.epoch expect gcProof now nonce) := by
  have hhead : material.signers.head material.signers_ne_nil ∈ material.signers := List.head_mem _
  have hkey : material.keySet.key material.active.keyId = some
      ⟨material.active.keyId, material.active.verifyingKey,
        (material.signers.head material.signers_ne_nil).2⟩ :=
    (KeySet.key_eq_some h.nodup).2 ⟨List.mem_map_of_mem hhead, rfl⟩
  exact KeySet.verify_eq_ok.2 ⟨⟨hfits, _, material.active.signRaw grantDomain _, hkey,
    trim_base64 _, hscheme.correct material.active.seed _⟩, htime.grants rfl hproof⟩

/-! ## Following -/

/-- What the agent does with the portal's set. -/
structure Accepts (held current : GrantMaterial) (node : Option (List Char)) (set : SignedKeySet) :
    Prop where
  newer : held.version < current.version → Trust.update (some ⟨held.signedKeySet, node⟩) set =
    .ok ⟨[.replaceKeySet set.toBytes], some ⟨set, node⟩⟩
  issued : ∀ expect gcProof now nonce token later,
    current.active.issue current.epoch expect.agentId expect.operation expect.scope gcProof now nonce =
      .ok token → (expect.operation = .delete → gcProof ≠ none) → InTime now later →
    set.keySet.verify token expect later =
      .ok (current.active.grant current.epoch expect gcProof now nonce)
  unlisted : ∀ seed grant expect later accepted,
    (∀ listed ∈ current.signers, listed.1.verifyingKey ≠ Ed25519.verifyingKey seed) →
    set.keySet.verify ((PortalSigner.fromSeed seed).signGrant grant) expect later ≠ .ok accepted
  older : ∀ (signer : PortalSigner) epoch (expect : Expectation) gcProof now nonce token asked later
    accepted, signer.issue epoch expect.agentId expect.operation expect.scope gcProof now nonce =
      .ok token → epoch < current.epoch → set.keySet.verify token asked later ≠ .ok accepted

/-- The portal's set is read by the agent, which does with it what the portal expects. -/
def GrantMaterial.Follows (held current : GrantMaterial) (node : Option (List Char)) : Prop :=
  ∃ set, SignedKeySet.fromBytes current.signedKeySet.toBytes = .ok set ∧ Accepts held current node set

theorem Accepts.of_sound (hscheme : Unforgeable) (hheld : held.Sound) (hcurrent : current.Sound)
    (hshared : held.Shares current) (hepoch : held.epoch ≤ current.epoch) (node : Option (List Char)) :
    Accepts held current node current.signedKeySet where
  newer hnewer := hheld.update hscheme hcurrent hshared hepoch hnewer node
  issued expect gcProof now nonce token later hissue hproof htime := by
    obtain ⟨hfits, rfl⟩ := PortalSigner.issue_eq_ok.1 hissue
    exact hcurrent.verify_issued hscheme hfits hproof htime
  unlisted seed grant expect later accepted hunlisted h := by
    obtain ⟨-, -, -, key, hkey, hverifies⟩ := KeySet.verify_signGrant h
    obtain ⟨listed, hlisted, rfl⟩ := List.mem_map.1 hkey
    exact hunlisted listed hlisted (hscheme.own _ _ _ hverifies)
  older signer epoch expect gcProof now nonce token asked later accepted hissue holder h := by
    obtain ⟨hfits, rfl⟩ := PortalSigner.issue_eq_ok.1 hissue
    obtain ⟨hbody, haccepted, hepoch, -⟩ := KeySet.verify_signGrant h
    have hread := Grant.decodeBody_eq_ok.2 ⟨haccepted, hbody.symm⟩
    rw [Grant.decodeBody_eq_ok.2 ⟨hfits, rfl⟩] at hread
    have hsame := congrArg Grant.epoch (Except.ok.inj hread)
    have hstale : epoch = current.epoch := hsame.trans hepoch
    rw [hstale] at holder
    exact UInt64.lt_irrefl _ holder

/-- The agent follows exactly when the set has at most sixteen keys. -/
theorem GrantMaterial.Sound.follows_iff (hscheme : Unforgeable) (hheld : held.Sound)
    (hcurrent : current.Sound) (hshared : held.Shares current) (hepoch : held.epoch ≤ current.epoch)
    (node : Option (List Char)) : held.Follows current node ↔ current.signers.length ≤ maxKeys := by
  constructor
  · rintro ⟨set, hread, -⟩
    exact bounded_of_fromBytes hread
  · intro hbounded
    exact ⟨_, hcurrent.fromBytes hbounded, .of_sound hscheme hheld hcurrent hshared hepoch node⟩

/-! ## The portal's database -/

variable [MasterKey] {a b before now : Access} {createdAt : Metadata.KeyId → Time} {row : SigningKeyRow}

/-- Keys that are written were generated, and are active. -/
def Generated : AccessWrite → Prop
  | .insertFirstSigningKey row | .rotateSigningKey row =>
    ∃ seed wrapId nonce, row = sealKey (.fromSeed seed) wrapId nonce .active
  | _ => True

/-- One write to the portal's database. -/
def Writes (a b : Access) : Prop := ∃ w, Generated w ∧ w.perform a = .ok b

/-- Keys that are still part of the key set. -/
def listedKeys (access : Access) : List SigningKeyRow := access.signingKeys.filter (·.status ≠ .revoked)

/-- What holds of the keys of every database reached. -/
structure Stored (access : Access) : Prop where
  keyed : access.Keyed
  opens : ∀ row ∈ access.signingKeys, ∃ signer, unsealKey row = .ok signer
  range : access.grantState.epoch ≤ access.grantState.keySetVersion

theorem unsealKey_retire (row : SigningKeyRow) : unsealKey row.retire = unsealKey row := by
  unfold SigningKeyRow.retire
  split <;> rfl

theorem unsealKey_revoke (id : Metadata.KeyId) (row : SigningKeyRow) :
    unsealKey (row.revoke id) = unsealKey row := by
  unfold SigningKeyRow.revoke
  split <;> rfl

/-- The master key unwraps what it wrapped. -/
def Unwraps : Prop :=
  ∀ wrapId nonce seed, MasterKey.unwrapKey wrapId (MasterKey.wrapKey wrapId nonce seed) = some seed

theorem Generated.storesActive {w : AccessWrite} (h : Generated w) : w.StoresActive := by
  cases w with
  | insertFirstSigningKey row =>
    obtain ⟨seed, wrapId, nonce, rfl⟩ := h
    rfl
  | rotateSigningKey row =>
    obtain ⟨seed, wrapId, nonce, rfl⟩ := h
    rfl
  | _ => trivial

theorem keyed_write (h : a.Keyed) (hwrite : Writes a b) : b.Keyed := by
  obtain ⟨w, hgenerated, hok⟩ := hwrite
  exact h.change (Metadata.perform_change hok) hgenerated.storesActive

theorem Stored.write (hunwrap : Unwraps) (h : Stored a) (hwrite : Writes a b) : Stored b := by
  obtain ⟨w, hgenerated, hok⟩ := hwrite
  have hchange := Metadata.perform_change hok
  obtain ⟨hkeyed, hopens, hrange⟩ := h
  refine ⟨hkeyed.change hchange hgenerated.storesActive, ?_, ?_⟩
  · intro row hrow
    cases hchange with
    | kept keys state => exact hopens row (keys ▸ hrow)
    | rejoined keys state => exact hopens row (keys ▸ hrow)
    | first none fresh keys state =>
      obtain ⟨seed, wrapId, nonce, rfl⟩ := hgenerated
      rw [keys, List.mem_append, List.mem_singleton] at hrow
      rcases hrow with hrow | rfl
      · exact hopens row hrow
      · exact ⟨_, unsealKey_sealKey hunwrap seed wrapId nonce _⟩
    | rotated fresh keys state =>
      obtain ⟨seed, wrapId, nonce, rfl⟩ := hgenerated
      rw [keys, List.mem_append, List.mem_singleton] at hrow
      rcases hrow with hrow | rfl
      · obtain ⟨old, hold, rfl⟩ := List.mem_map.1 hrow
        rw [unsealKey_retire]
        exact hopens old hold
      · exact ⟨_, unsealKey_sealKey hunwrap seed wrapId nonce _⟩
    | ended found own retiring keys state =>
      rw [keys] at hrow
      obtain ⟨old, hold, rfl⟩ := List.mem_map.1 hrow
      rw [unsealKey_revoke]
      exact hopens old hold
  · have hle := hchange.le
    have htogether := hle.together
    have hepoch := hle.epoch
    have hversion := hle.version
    omega

theorem Stored.run (hunwrap : Unwraps) (hrun : Relation.ReflTransGen Writes Metadata.Database.new.toAccess a) :
    Stored a := by
  induction hrun with
  | refl => exact ⟨Metadata.keyed_new, fun row hrow => absurd hrow List.not_mem_nil, Nat.le_refl 1⟩
  | tail _ hstep ih => exact ih.write hunwrap hstep

theorem le_of_run (hrun : Relation.ReflTransGen Writes a b) : a.grantState.Le b.grantState := by
  induction hrun with
  | refl => exact .refl _
  | tail _ hstep ih =>
    obtain ⟨w, -, hok⟩ := hstep
    exact ih.trans (Metadata.perform_change hok).le

theorem nonempty_of_run (hrun : Relation.ReflTransGen Writes a b) (h : a.signingKeys ≠ []) :
    b.signingKeys ≠ [] := by
  induction hrun with
  | refl => exact h
  | tail _ hstep ih =>
    obtain ⟨w, -, hok⟩ := hstep
    cases Metadata.perform_change hok with
    | kept keys state => exact keys ▸ ih
    | rejoined keys state => exact keys ▸ ih
    | first none fresh keys state => exact keys ▸ List.append_ne_nil_of_right_ne_nil _ (by simp)
    | rotated fresh keys state => exact keys ▸ List.append_ne_nil_of_right_ne_nil _ (by simp)
    | ended found own retiring keys state =>
      rw [keys]
      exact fun hnil => ih (List.map_eq_nil_iff.1 hnil)

/-! ## Loading a database that was reached -/

omit [Ed25519] [Digests] [MasterKey] in
theorem keyStatus_active {status : Metadata.SigningKeyStatus} {own : KeyStatus}
    (h : keyStatus status = some own) : own = .active ↔ status = .active := by
  cases status <;> cases h <;> simp

omit [Ed25519] [Digests] [MasterKey] in
theorem readGrantState_eq_ok {state : GrantState} {read : UInt64 × UInt64} :
    readGrantState state = .ok read ↔ (state.epoch < 2 ^ 63 ∧ state.keySetVersion < 2 ^ 63) ∧
      read = (UInt64.ofNat state.epoch, UInt64.ofNat state.keySetVersion) := by
  unfold readGrantState
  split
  · next h => exact ⟨fun hread => ⟨h, (Except.ok.inj hread).symm⟩, fun hread => by rw [hread.2]⟩
  · next h => exact ⟨fun hread => (nomatch hread), fun hread => absurd hread.1 h⟩

omit [Ed25519] [Digests] [MasterKey] in
theorem toNat_counter {n : ℕ} (h : n < 2 ^ 63) : (UInt64.ofNat n).toNat = n :=
  UInt64.toNat_ofNat_of_lt' (show n < 2 ^ 64 by omega)

theorem load_eq_ok : GrantMaterial.load createdAt a = .ok material ↔
    (a.grantState.epoch < 2 ^ 63 ∧ a.grantState.keySetVersion < 2 ^ 63) ∧
    List.Forall₂ Loads (signingKeys createdAt a) material.signers ∧
    material.epoch = UInt64.ofNat a.grantState.epoch ∧
    material.version = UInt64.ofNat a.grantState.keySetVersion := by
  have hrows : ∀ row ∈ signingKeys createdAt a, row.status ≠ .revoked :=
    fun row hrow => (mem_signingKeys.1 hrow).2
  unfold GrantMaterial.load
  constructor
  · intro h
    split at h
    · cases h
    · next read hread =>
      obtain ⟨hrange, rfl⟩ := readGrantState_eq_ok.1 hread
      obtain ⟨hsigners, hepoch, hversion⟩ := assemble_eq_ok.1 h
      exact ⟨hrange, (loadSigners_eq_ok hrows).1 hsigners, hepoch, hversion⟩
  · rintro ⟨hrange, hsigners, hepoch, hversion⟩
    rw [readGrantState_eq_ok.2 ⟨hrange, rfl⟩]
    exact assemble_eq_ok.2 ⟨(loadSigners_eq_ok hrows).2 hsigners, hepoch, hversion⟩

omit [Ed25519] [Digests] [MasterKey] in
theorem nodup_signingKeys (h : a.Keyed) :
    ((signingKeys createdAt a).map (·.keyId)).Nodup := by
  have hlisted : (listedKeys a).Sublist a.signingKeys := List.filter_sublist
  exact (signingKeys_perm.map _).nodup_iff.2 ((hlisted.map _).nodup h.nodup)

omit [Ed25519] [Digests] [MasterKey] in
theorem one_active (h : a.Keyed) (hsome : a.signingKeys ≠ []) :
    ((signingKeys createdAt a).filter (·.status = .active)).length = 1 := by
  rw [(signingKeys_perm.filter _).length_eq, List.filter_filter, ← h.active hsome]
  congr 1
  refine List.filter_congr fun row _ => ?_
  cases row.status <;> rfl

omit [Ed25519] [Digests] [MasterKey] in
theorem active_first (h : a.Keyed) (hsome : a.signingKeys ≠ []) :
    ∃ row rest, signingKeys createdAt a = row :: rest ∧ row.status = .active := by
  have hone := h.active hsome
  have hperm := (List.mergeSort_perm a.signingKeys (storedBefore createdAt)).filter
    fun row => decide (row.status = .active)
  rw [← hperm.length_eq] at hone
  unfold signingKeys
  dsimp only
  cases hactive : (a.signingKeys.mergeSort (storedBefore createdAt)).filter (·.status = .active) with
  | nil =>
    rw [hactive] at hone
    cases hone
  | cons row rest =>
    have hrow : row ∈ (a.signingKeys.mergeSort (storedBefore createdAt)).filter (·.status = .active) :=
      hactive ▸ List.mem_cons_self
    exact ⟨row, _, List.cons_append, of_decide_eq_true (List.mem_filter.1 hrow).2⟩

/-- Material with the signers of a database is sound. -/
theorem GrantMaterial.Sound.of_signers (h : a.Keyed)
    (hmatched : List.Forall₂ Loads (signingKeys createdAt a) material.signers) : material.Sound := by
  have hsome : a.signingKeys ≠ [] := by
    intro hnil
    obtain ⟨row, hrow, -⟩ := Matched.mem_right hmatched _ (List.head_mem material.signers_ne_nil)
    rw [mem_signingKeys, hnil] at hrow
    exact List.not_mem_nil hrow.1
  refine ⟨fun loaded hloaded => ?_, ?_, ?_⟩
  · obtain ⟨row, -, hunseal, -⟩ := Matched.mem_right hmatched loaded hloaded
    exact (opens_of_unsealKey hunseal).own
  · have hids : (signingKeys createdAt a).map (·.keyId) =
        material.signers.map fun loaded => rowKeyId loaded.1.keyId :=
      Matched.map_eq hmatched fun row loaded hrow => (opens_of_unsealKey hrow.1).keyId.symm
    have hnodup : ((signingKeys createdAt a).map (·.keyId)).Nodup := nodup_signingKeys h
    rw [hids] at hnodup
    refine List.Nodup.of_map rowKeyId ?_
    rwa [keySet, List.map_map, List.map_map]
  · have hone : ((signingKeys createdAt a).filter (·.status = .active)).length = 1 :=
      one_active h hsome
    rw [Matched.length_filter_eq hmatched (q := fun loaded => loaded.2 = .active)
      fun row loaded hrow => decide_eq_decide.2 (keyStatus_active hrow.2).symm] at hone
    unfold KeySet.activeKeys keySet
    rw [List.filter_map, List.length_map]
    exact hone

/-- What is loaded is sound. -/
theorem GrantMaterial.Sound.load (h : a.Keyed) (hload : GrantMaterial.load createdAt a = .ok material) :
    material.Sound :=
  .of_signers h (load_eq_ok.1 hload).2.1

theorem length_of_load (hload : GrantMaterial.load createdAt a = .ok material) :
    material.signers.length = (listedKeys a).length := by
  obtain ⟨-, hmatched, -, -⟩ := load_eq_ok.1 hload
  rw [← hmatched.length_eq, signingKeys_perm.length_eq]
  rfl

/-- A database that was reached is loaded as long as its counters are numbers of the database. -/
theorem Stored.load (h : Stored a) (hsome : a.signingKeys ≠ []) (hrange : a.grantState.keySetVersion < 2 ^ 63) :
    ∃ material, GrantMaterial.load createdAt a = .ok material := by
  have htotal : ∀ row ∈ signingKeys createdAt a, ∃ loaded, Loads row loaded := by
    intro row hrow
    obtain ⟨hmem, hstatus⟩ := mem_signingKeys.1 hrow
    obtain ⟨signer, hsigner⟩ := h.opens row hmem
    cases hown : row.status with
    | active => exact ⟨(signer, .active), hsigner, by rw [hown]; rfl⟩
    | retiring => exact ⟨(signer, .retiring), hsigner, by rw [hown]; rfl⟩
    | revoked => exact absurd hown hstatus
  obtain ⟨signers, hsigners⟩ := Matched.exists_of_total htotal
  have hfirst : signers.head?.map (·.2) = some .active := by
    obtain ⟨row, rest, hkeys, hactive⟩ := active_first h.keyed hsome
    rw [hkeys] at hsigners
    cases hsigners with
    | cons hloads _ =>
      have hstatus := hloads.2
      rw [hactive] at hstatus
      exact hstatus.symm
  exact ⟨⟨signers, _, _, hfirst⟩, load_eq_ok.2
    ⟨⟨Nat.lt_of_le_of_lt h.range hrange, hrange⟩, hsigners, rfl, rfl⟩⟩

/-- Some key of the one database is still in the key set of the other. -/
def KeepsKey (before now : Access) : Prop :=
  ∃ old ∈ listedKeys before, ∃ new ∈ listedKeys now, old.publicKey = new.publicKey

theorem shares_of_load (hheld : GrantMaterial.load createdAt before = .ok held)
    (hcurrent : GrantMaterial.load createdAt now = .ok current) (hkeeps : KeepsKey before now) :
    held.Shares current := by
  obtain ⟨old, hold, new, hnew, hsame⟩ := hkeeps
  obtain ⟨-, hmatched, -, -⟩ := load_eq_ok.1 hheld
  obtain ⟨-, hmatched', -, -⟩ := load_eq_ok.1 hcurrent
  obtain ⟨opened, hopened, hunseal, -⟩ := Matched.mem_left hmatched old (signingKeys_perm.mem_iff.2 hold)
  obtain ⟨opened', hopened', hunseal', -⟩ :=
    Matched.mem_left hmatched' new (signingKeys_perm.mem_iff.2 hnew)
  refine ⟨opened, hopened, opened', hopened', Subtype.ext (Subtype.ext ?_)⟩
  rw [(opens_of_unsealKey hunseal).publicKey, (opens_of_unsealKey hunseal').publicKey, hsame]

/-- An agent with an earlier set that still shares a key follows the portal exactly when the portal's set
has at most sixteen keys, while the version is a number of the database. -/
theorem agents_follow_key_sets (hscheme : Unforgeable) (hunwrap : Unwraps)
    (hbefore : Relation.ReflTransGen Writes Metadata.Database.new.toAccess before)
    (hnow : Relation.ReflTransGen Writes before now)
    (hheld : GrantMaterial.load createdAt before = .ok held) (hkeeps : KeepsKey before now)
    (node : Option (List Char)) :
    (∃ current, GrantMaterial.load createdAt now = .ok current ∧ held.Follows current node) ↔
      (listedKeys now).length ≤ maxKeys ∧ now.grantState.keySetVersion < 2 ^ 63 := by
  have hstored := Stored.run hunwrap hbefore
  have hstored' := Stored.run hunwrap (hbefore.trans hnow)
  have hsound := GrantMaterial.Sound.load hstored.keyed hheld
  obtain ⟨-, -, hepoch, -⟩ := load_eq_ok.1 hheld
  have hle := (le_of_run hnow).epoch
  have hfollows {current : GrantMaterial} (hcurrent : GrantMaterial.load createdAt now = .ok current) :
      held.Follows current node ↔ (listedKeys now).length ≤ maxKeys := by
    obtain ⟨⟨hrange, -⟩, -, hepoch', -⟩ := load_eq_ok.1 hcurrent
    rw [← length_of_load hcurrent]
    refine hsound.follows_iff hscheme (.load hstored'.keyed hcurrent)
      (shares_of_load hheld hcurrent hkeeps) ?_ node
    rw [hepoch, hepoch', UInt64.le_iff_toNat_le, toNat_counter hrange, toNat_counter (by omega)]
    exact hle
  constructor
  · rintro ⟨current, hcurrent, hown⟩
    exact ⟨(hfollows hcurrent).1 hown, (load_eq_ok.1 hcurrent).1.2⟩
  · rintro ⟨hbounded, hrange⟩
    have hsome : now.signingKeys ≠ [] := by
      obtain ⟨-, -, new, hnew, -⟩ := hkeeps
      exact List.ne_nil_of_mem (List.mem_filter.1 hnew).1
    obtain ⟨current, hcurrent⟩ := hstored'.load hsome hrange
    exact ⟨current, hcurrent, (hfollows hcurrent).2 hbounded⟩

end

/-! ## Seventeen keys -/

/-- Seeds are wrapped as they are. -/
abbrev plainMaster : MasterKey where
  wrapKey _ _ seed := seed.1
  unwrapKey _ bytes := if h : bytes.length = 32 then some ⟨bytes, h⟩ else none

theorem unforgeable_plainScheme : @Unforgeable plainScheme := by
  have htake (seed : Fixed 32) : (seed.1 ++ List.replicate 32 0).take 32 = seed.1 :=
    List.take_left' seed.2
  refine @Unforgeable.mk plainScheme (fun seed message => ?_) fun key seed message h => ?_
  · show ((seed.1 ++ List.replicate 32 0).take 32 == seed.1) = true
    rw [htake]
    exact beq_self_eq_true _
  · have hsame : ((seed.1 ++ List.replicate 32 0).take 32 == key.1.1) = true := h
    rw [htake, beq_iff_eq] at hsame
    exact Subtype.ext (Subtype.ext hsame.symm)

theorem unwraps_plainMaster : @Unwraps plainMaster := fun _ _ seed => dif_pos seed.2

section

local instance plainEd25519 : Ed25519 := plainScheme

local instance plainDigests : Digests := firstBytes

local instance plainMasterKey : MasterKey := plainMaster

def keyRow (n : ℕ) : SigningKeyRow :=
  sealKey (signerOf (UInt8.ofNat n)) n ⟨List.replicate 24 0, rfl⟩ .active

/-- The database after the first key and a number of rotations. -/
def rotations : ℕ → Except Metadata.MetadataError Access
  | 0 => Metadata.Database.new.toAccess.insertFirstSigningKey (keyRow 0)
  | n + 1 => do (← rotations n).rotateSigningKey (keyRow (n + 1))

theorem writes_first {a : Access} (h : rotations 0 = .ok a) : Writes Metadata.Database.new.toAccess a :=
  ⟨.insertFirstSigningKey (keyRow 0), ⟨_, _, _, rfl⟩, h⟩

theorem run_rotations {a b : Access} (ha : rotations 0 = .ok a) {n : ℕ} (hb : rotations n = .ok b) :
    Relation.ReflTransGen Writes a b := by
  induction n generalizing b with
  | zero =>
    rw [ha] at hb
    cases hb
    exact .refl
  | succ n ih =>
    obtain ⟨c, hc, hrotate⟩ := bind_eq_ok.1 hb
    exact (ih hc).tail ⟨.rotateSigningKey (keyRow (n + 1)), ⟨_, _, _, rfl⟩, hrotate⟩

instance (before now : Access) : Decidable (KeepsKey before now) :=
  inferInstanceAs (Decidable (∃ _ ∈ _, _))

/-- An agent holds the set of the first key, and the portal rotated its keys. -/
theorem held_rotations {n : ℕ} (h : (match rotations 0, rotations n with
    | .ok first, .ok last => decide (KeepsKey first last ∧ (listedKeys last).length = n + 1 ∧
        first.signingKeys ≠ [] ∧ last.grantState.keySetVersion < 2 ^ 63)
    | _, _ => false) = true) :
    ∃ first last held, Writes Metadata.Database.new.toAccess first ∧
      Relation.ReflTransGen Writes first last ∧ GrantMaterial.load (fun _ => 0) first = .ok held ∧
      KeepsKey first last ∧ (listedKeys last).length = n + 1 ∧
      last.grantState.keySetVersion < 2 ^ 63 := by
  split at h
  · next first last hfirst hlast =>
    obtain ⟨hkeeps, hlen, hsome, hrange⟩ := of_decide_eq_true h
    have hrun := run_rotations hfirst hlast
    have hstored := Stored.run unwraps_plainMaster (.single (writes_first hfirst))
    obtain ⟨held, hheld⟩ := hstored.load hsome
      (Nat.lt_of_le_of_lt (le_of_run hrun).version hrange)
    exact ⟨first, last, held, writes_first hfirst, hrun, hheld, hkeeps, hlen, hrange⟩
  · cases h

/-- An agent that joined before the first rotation follows it. -/
theorem agents_follow_key_sets_rotated : ∃ first last held current,
    Relation.ReflTransGen Writes first last ∧ (listedKeys last).length = 2 ∧
    GrantMaterial.load (fun _ => 0) first = .ok held ∧ GrantMaterial.load (fun _ => 0) last = .ok current ∧
    held.Follows current none := by
  obtain ⟨first, last, held, hfirst, hrun, hheld, hkeeps, hlen, hrange⟩ :=
    held_rotations (n := 1) (by decide +kernel)
  obtain ⟨current, hcurrent, hfollows⟩ := (agents_follow_key_sets unforgeable_plainScheme
    unwraps_plainMaster (.single hfirst) hrun hheld hkeeps none).2 ⟨by rw [hlen]; decide, hrange⟩
  exact ⟨first, last, held, current, hrun, hlen, hheld, hcurrent, hfollows⟩

end

/-- After sixteen rotations with no key retired the set is not read any more. -/
theorem sixteen_rotations_lose_agents : ¬ ∀ (_ : Ed25519) (_ : Digests) (_ : MasterKey),
    Unforgeable → Unwraps → ∀ (createdAt : Metadata.KeyId → Time) (before now : Access)
      (held : GrantMaterial) (node : Option (List Char)),
      Relation.ReflTransGen Writes Metadata.Database.new.toAccess before →
      Relation.ReflTransGen Writes before now → GrantMaterial.load createdAt before = .ok held →
      KeepsKey before now → now.grantState.keySetVersion < 2 ^ 63 →
      ∃ current, GrantMaterial.load createdAt now = .ok current ∧ held.Follows current node := by
  intro h
  let scheme := plainScheme
  let digests := firstBytes
  let master := plainMaster
  obtain ⟨first, last, held, hfirst, hrun, hheld, hkeeps, hlen, hrange⟩ :=
    held_rotations (n := 16) (by decide +kernel)
  obtain ⟨current, hcurrent, set, hread, -⟩ := h scheme digests master unforgeable_plainScheme
    unwraps_plainMaster (fun _ => 0) first last held none (.single hfirst) hrun hheld hkeeps hrange
  have hbounded : current.signers.length ≤ 16 := GrantMaterial.bounded_of_fromBytes hread
  have hlisted := length_of_load hcurrent
  omega

end Trust

end DistrHnsw
