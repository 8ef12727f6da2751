import DistrHnsw.Metadata.Access
import DistrHnsw.Trust.KeySet

/-!
# The portal's grant material

The signing keys, epoch and key-set version in force, as the portal loads them from its database.
Seeds are stored sealed under the master key, whose cipher is a parameter.  The database clock at which
a key was stored is a parameter too.
-/

namespace DistrHnsw

namespace Trust

open Metadata (Access AccessWrite AgentJoin GrantState MetadataError SigningKeyRow SigningKeyStatus Time)

/-- The master key: it wraps a seed under an identifier and a nonce, and unwraps it. -/
class MasterKey where
  wrapKey : ℕ → Fixed 24 → Fixed 32 → Bytes
  unwrapKey : ℕ → Bytes → Option (Fixed 32)

inductive AccessError where
  | metadata (error : MetadataError)
  | crypto
  | keyMismatch (keyId : Metadata.KeyId)
  | noActiveKey
  deriving DecidableEq

/-- An identifier as the database has it, in the order of its text form. -/
def rowKeyId (keyId : KeyId) : Metadata.KeyId := fromLeBytes keyId.1.reverse

theorem rowKeyId_inj {a b : KeyId} (h : rowKeyId a = rowKeyId b) : a = b := by
  have hlen : a.1.reverse.length = b.1.reverse.length := by
    rw [List.length_reverse, List.length_reverse, a.2, b.2]
  have hbytes := congrArg (toLeBytes a.1.reverse.length) h
  unfold rowKeyId at hbytes
  rw [toLeBytes_fromLeBytes, hlen, toLeBytes_fromLeBytes] at hbytes
  exact Subtype.ext (List.reverse_inj.1 hbytes)

def keyStatus : SigningKeyStatus → Option KeyStatus
  | .active => some .active
  | .retiring => some .retiring
  | .revoked => none

/-- The counters are integers of the database; past the end of their range they are read as none. -/
def readGrantState (state : GrantState) : Except MetadataError (UInt64 × UInt64) :=
  if state.epoch < 2 ^ 63 ∧ state.keySetVersion < 2 ^ 63 then
    .ok (UInt64.ofNat state.epoch, UInt64.ofNat state.keySetVersion)
  else .error .sqlite

/-- The order of `created_at, key_id`. -/
def storedBefore (createdAt : Metadata.KeyId → Time) (a b : SigningKeyRow) : Bool :=
  createdAt a.keyId < createdAt b.keyId ∨ createdAt a.keyId = createdAt b.keyId ∧ a.keyId ≤ b.keyId

/-- Signing keys that are still part of the key set, active first. -/
def signingKeys (createdAt : Metadata.KeyId → Time) (access : Access) : List SigningKeyRow :=
  let rows := access.signingKeys.mergeSort (storedBefore createdAt)
  rows.filter (·.status = .active) ++ rows.filter (·.status = .retiring)

section

variable {createdAt : Metadata.KeyId → Time} {access : Access} {row : SigningKeyRow}

/-- The keys of a database still in the set, in any order. -/
theorem mem_signingKeys : row ∈ signingKeys createdAt access ↔
    row ∈ access.signingKeys ∧ row.status ≠ .revoked := by
  unfold signingKeys
  simp only [List.mem_append, List.mem_filter, List.mem_mergeSort, decide_eq_true_eq]
  cases row.status <;> simp

theorem signingKeys_perm :
    (signingKeys createdAt access).Perm (access.signingKeys.filter (·.status ≠ .revoked)) := by
  have hsort := List.mergeSort_perm access.signingKeys (storedBefore createdAt)
  refine List.Perm.trans ?_ (hsort.filter _)
  unfold signingKeys
  refine (List.Perm.of_eq ?_).trans (List.filter_append_perm (fun row => row.status = .active) _)
  rw [List.filter_filter, List.filter_filter]
  show _ ++ _ = _ ++ _
  congr 1
  · refine List.filter_congr fun row _ => ?_
    cases row.status <;> rfl
  · refine List.filter_congr fun row _ => ?_
    cases row.status <;> rfl

end

/-- The signing keys, epoch, and key-set version in force; active key first, then retiring keys. -/
structure GrantMaterial where
  signers : List (PortalSigner × KeyStatus)
  epoch : UInt64
  version : UInt64
  active_first : signers.head?.map (·.2) = some .active

namespace GrantMaterial

variable (material : GrantMaterial)

theorem signers_ne_nil : material.signers ≠ [] := by
  intro h
  have hfirst := material.active_first
  rw [h] at hfirst
  cases hfirst

/-- The key that signs new grants. -/
def active : PortalSigner := (material.signers.head material.signers_ne_nil).1

variable [Ed25519]

def keySet : KeySet :=
  ⟨material.version, material.epoch, material.signers.map fun (signer, status) =>
    ⟨signer.keyId, signer.verifyingKey, status⟩⟩

/-- The key set agents should hold, signed by every key in it. -/
def signedKeySet : SignedKeySet := material.keySet.sign (material.signers.map (·.1))

end GrantMaterial

section

variable [Ed25519] [Digests] [MasterKey]

/-! ## Loading -/

/-- The row of a new key. -/
def sealKey (signer : PortalSigner) (wrapId : ℕ) (nonce : Fixed 24) (status : SigningKeyStatus) :
    SigningKeyRow :=
  ⟨rowKeyId signer.keyId, wrapId, signer.verifyingKey.1.1,
    MasterKey.wrapKey wrapId nonce signer.seed, status⟩

def unsealKey (row : SigningKeyRow) : Except AccessError PortalSigner :=
  match MasterKey.unwrapKey row.wrapId row.wrappedSeed with
  | none => .error .crypto
  | some seed =>
    let signer := PortalSigner.fromSeed seed
    if signer.verifyingKey.1.1 ≠ row.publicKey ∨ rowKeyId signer.keyId ≠ row.keyId then
      .error (.keyMismatch row.keyId)
    else .ok signer

/-- The signers of the rows that are not revoked. -/
def loadSigners : List SigningKeyRow → Except AccessError (List (PortalSigner × KeyStatus))
  | [] => .ok []
  | row :: rows =>
    match keyStatus row.status with
    | none => loadSigners rows
    | some status => do
      let signer ← unsealKey row
      let signers ← loadSigners rows
      return (signer, status) :: signers

/-- What was read of the database, put together. -/
def GrantMaterial.assemble (state : UInt64 × UInt64) (rows : List SigningKeyRow) :
    Except AccessError GrantMaterial := do
  let signers ← loadSigners rows
  if h : signers.head?.map (·.2) = some .active then .ok ⟨signers, state.1, state.2, h⟩
  else .error .noActiveKey

def GrantMaterial.load (createdAt : Metadata.KeyId → Time) (access : Access) :
    Except AccessError GrantMaterial :=
  match readGrantState access.grantState with
  | .error error => .error (.metadata error)
  | .ok state => assemble state (signingKeys createdAt access)

/-! ## What a load says -/

variable {row : SigningKeyRow} {rows : List SigningKeyRow} {signer : PortalSigner}
  {signers : List (PortalSigner × KeyStatus)} {material : GrantMaterial} {state : UInt64 × UInt64}

/-- The signer of a row. -/
structure Opens (row : SigningKeyRow) (signer : PortalSigner) : Prop where
  own : signer = .fromSeed signer.seed
  publicKey : signer.verifyingKey.1.1 = row.publicKey
  keyId : rowKeyId signer.keyId = row.keyId

theorem opens_of_unsealKey (h : unsealKey row = .ok signer) : Opens row signer := by
  unfold unsealKey at h
  split at h
  · cases h
  · next seed _ =>
    obtain ⟨hmatch, h₁⟩ := guard_eq_ok.1 h
    cases h₁
    rw [not_or, not_not, not_not] at hmatch
    exact ⟨rfl, hmatch.1, hmatch.2⟩

/-- What is sealed can be unsealed. -/
theorem unsealKey_sealKey
    (hunwrap : ∀ wrapId nonce seed,
      MasterKey.unwrapKey wrapId (MasterKey.wrapKey wrapId nonce seed) = some seed)
    (seed : Fixed 32) (wrapId : ℕ) (nonce : Fixed 24) (status : SigningKeyStatus) :
    unsealKey (sealKey (.fromSeed seed) wrapId nonce status) = .ok (.fromSeed seed) := by
  have hseed : MasterKey.unwrapKey wrapId (MasterKey.wrapKey wrapId nonce
      (PortalSigner.fromSeed seed).seed) = some seed := hunwrap wrapId nonce seed
  unfold unsealKey sealKey
  rw [hseed]
  exact guard_eq_ok.2 ⟨fun h => h.elim (fun h => h rfl) fun h => h rfl, rfl⟩

/-- A row and what is loaded of it. -/
def Loads (row : SigningKeyRow) (loaded : PortalSigner × KeyStatus) : Prop :=
  unsealKey row = .ok loaded.1 ∧ keyStatus row.status = some loaded.2

theorem loadSigners_eq_ok (hrows : ∀ row ∈ rows, row.status ≠ .revoked) :
    loadSigners rows = .ok signers ↔ List.Forall₂ Loads rows signers := by
  induction rows generalizing signers with
  | nil =>
    rw [List.forall₂_nil_left_iff]
    constructor
    · intro h
      cases h
      rfl
    · rintro rfl
      rfl
  | cons row rows ih =>
    have hrest : ∀ row ∈ rows, row.status ≠ .revoked := fun row h => hrows row (by simp [h])
    obtain ⟨status, hstatus⟩ : ∃ status, keyStatus row.status = some status := by
      have hrow := hrows row (by simp)
      cases hst : row.status with
      | active => exact ⟨_, rfl⟩
      | retiring => exact ⟨_, rfl⟩
      | revoked => exact absurd hst hrow
    unfold loadSigners
    rw [hstatus]
    dsimp only
    constructor
    · intro h
      obtain ⟨signer, hsigner, h₁⟩ := bind_eq_ok.1 h
      obtain ⟨others, hothers, h₂⟩ := bind_eq_ok.1 h₁
      cases h₂
      exact .cons ⟨hsigner, hstatus⟩ ((ih hrest).1 hothers)
    · intro h
      cases h with
      | cons hfirst hothers =>
        obtain ⟨hsigner, hown⟩ := hfirst
        rw [hstatus, Option.some.injEq] at hown
        refine bind_eq_ok.2 ⟨_, hsigner, bind_eq_ok.2 ⟨_, (ih hrest).2 hothers, ?_⟩⟩
        rw [hown]
        rfl

theorem assemble_eq_ok : GrantMaterial.assemble state rows = .ok material ↔
    loadSigners rows = .ok material.signers ∧ material.epoch = state.1 ∧ material.version = state.2 := by
  unfold GrantMaterial.assemble
  rw [bind_eq_ok]
  constructor
  · rintro ⟨signers, hsigners, h⟩
    split at h
    · cases h
      exact ⟨hsigners, rfl, rfl⟩
    · cases h
  · rintro ⟨hsigners, hepoch, hversion⟩
    refine ⟨_, hsigners, ?_⟩
    rw [dif_pos material.active_first, ← hepoch, ← hversion]

end

end Trust

end DistrHnsw
