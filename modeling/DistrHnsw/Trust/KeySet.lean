import DistrHnsw.Trust.Grant

/-!
# Key sets

The verification keys and the grant epoch an agent trusts, the same set with signatures of portal
keys, and the check of a grant against it.  The signature scheme is a parameter.
-/

namespace DistrHnsw

namespace Trust

open Reader

/-- The signature scheme: what bytes are verification keys, and what a signing key's seed does. -/
class Ed25519 where
  onCurve : Fixed 32 → Bool
  verifyingKey : Fixed 32 → { key : Fixed 32 // onCurve key = true }
  sign : Fixed 32 → Bytes → Fixed 64
  verifies : { key : Fixed 32 // onCurve key = true } → Bytes → Fixed 64 → Bool

/-- A verification key. -/
abbrev VerifyingKey [Ed25519] := { key : Fixed 32 // Ed25519.onCurve key = true }

abbrev Signature := Fixed 64

/-- First eight bytes of a digest. -/
def KeyId.of [Digests] [Ed25519] (key : VerifyingKey) : KeyId :=
  ⟨(blake3 key.1.1).1.take 8, by rw [List.length_take, (blake3 key.1.1).2]; rfl⟩

inductive KeyStatus where
  | active
  | retiring
  deriving DecidableEq, Repr

def KeyStatus.code : KeyStatus → UInt8
  | .active => 1
  | .retiring => 2

def KeyStatus.fromCode : UInt8 → Option KeyStatus
  | 1 => some .active
  | 2 => some .retiring
  | _ => none

section

variable [Ed25519]

structure TrustedKey where
  keyId : KeyId
  publicKey : VerifyingKey
  status : KeyStatus
  deriving DecidableEq

/-- The verification keys and grant epoch an agent trusts. -/
structure KeySet where
  version : UInt64
  epoch : UInt64
  keys : List TrustedKey
  deriving DecidableEq

/-- A key set with signatures of portal keys. -/
structure SignedKeySet where
  keySet : KeySet
  body : Bytes
  signatures : List (KeyId × Signature)
  deriving DecidableEq

/-! ## Encoding -/

def TrustedKey.encode (key : TrustedKey) : Bytes :=
  key.keyId.1 ++ key.publicKey.1.1 ++ [key.status.code]

def KeySet.encodeBody (set : KeySet) : Bytes :=
  u64ToLe set.version ++ u64ToLe set.epoch ++ [UInt8.ofNat set.keys.length] ++
    set.keys.flatMap TrustedKey.encode

def encodeSignature (signature : KeyId × Signature) : Bytes := signature.1.1 ++ signature.2.1

def SignedKeySet.toBytes (set : SignedKeySet) : Bytes :=
  u32ToLe (UInt32.ofNat set.body.length) ++ set.body ++ [UInt8.ofNat set.signatures.length] ++
    set.signatures.flatMap encodeSignature

/-! ## Decoding -/

def readVerifyingKey : Reader GrantError VerifyingKey :=
  convert (array truncated 32) fun key => orMalformed "verification key" <|
    if h : Ed25519.onCurve key = true then some ⟨key, h⟩ else none

def readStatus : Reader GrantError KeyStatus :=
  convert (u8 truncated) fun code => orMalformed "key status" (KeyStatus.fromCode code)

def readSignature : Reader GrantError (KeyId × Signature) := fun bytes => do
  let (keyId, r) ← array truncated 8 bytes
  let (signature, r) ← array truncated 64 r
  return ((keyId, signature), r)

section

variable [Digests]

def readTrustedKey : Reader GrantError TrustedKey := fun bytes => do
  let (keyId, r) ← array truncated 8 bytes
  let (publicKey, r) ← readVerifyingKey r
  if KeyId.of publicKey ≠ keyId then .error (.malformed "key id") else
  let (status, r) ← readStatus r
  return (⟨keyId, publicKey, status⟩, r)

def KeySet.activeKeys (set : KeySet) : List TrustedKey := set.keys.filter (·.status = .active)

def KeySet.decodeBody (bytes : Bytes) : Except GrantError KeySet := do
  let (version, r) ← u64 truncated bytes
  let (epoch, r) ← u64 truncated r
  let (count, r) ← u8 truncated r
  if count.toNat = 0 ∨ count.toNat > maxKeys then .error (.malformed "key count") else
  let (keys, r) ← many readTrustedKey count.toNat r
  if r ≠ [] then .error (.malformed "trailing bytes") else
  let set : KeySet := ⟨version, epoch, keys⟩
  if set.activeKeys.length ≠ 1 then .error (.malformed "exactly one active key") else
  return set

/-- Parse without trusting. -/
def SignedKeySet.fromBytes (bytes : Bytes) : Except GrantError SignedKeySet := do
  let (len, r) ← u32 truncated bytes
  let (body, r) ← take truncated len.toNat r
  let keySet ← KeySet.decodeBody body
  let (count, r) ← u8 truncated r
  if count.toNat = 0 ∨ count.toNat > maxKeys then .error (.malformed "signature count") else
  let (signatures, r) ← many readSignature count.toNat r
  if r ≠ [] then .error (.malformed "trailing bytes") else
  return ⟨keySet, body, signatures⟩

end

/-! ## Signing and verifying -/

def grantDomain : Bytes := utf8Bytes "distr-hnsw grant v1\x00"

def keySetDomain : Bytes := utf8Bytes "distr-hnsw key set v1\x00"

def signedMessage (domain body : Bytes) : Bytes := domain ++ body

/-- The key listed under an identifier. -/
def KeySet.key (set : KeySet) (keyId : KeyId) : Option TrustedKey := set.keys.find? (·.keyId = keyId)

/-- Some signature verifies under a key of the trusted set. -/
def SignedKeySet.signedBy (set : SignedKeySet) (trusted : KeySet) : Bool :=
  set.signatures.any fun (keyId, signature) => (trusted.key keyId).any fun key =>
    Ed25519.verifies key.publicKey (signedMessage keySetDomain set.body) signature

/-- Some signature verifies under a key of the set itself. -/
def SignedKeySet.selfSigned (set : SignedKeySet) : Bool := set.signedBy set.keySet

/-- The portal's grant-signing key. -/
structure PortalSigner where
  seed : Fixed 32
  keyId : KeyId
  deriving DecidableEq

def PortalSigner.fromSeed [Digests] (seed : Fixed 32) : PortalSigner :=
  ⟨seed, KeyId.of (Ed25519.verifyingKey seed)⟩

def PortalSigner.verifyingKey (signer : PortalSigner) : VerifyingKey := Ed25519.verifyingKey signer.seed

def PortalSigner.signRaw (signer : PortalSigner) (domain body : Bytes) : Signature :=
  Ed25519.sign signer.seed (signedMessage domain body)

/-- Sign the set with every given signer. -/
def KeySet.sign (set : KeySet) (signers : List PortalSigner) : SignedKeySet :=
  ⟨set, set.encodeBody, signers.map fun signer =>
    (signer.keyId, signer.signRaw keySetDomain set.encodeBody)⟩

/-- The token of a grant. -/
def PortalSigner.signGrant (signer : PortalSigner) (grant : Grant) : List Char :=
  Base64.encode (grant.encodeBody ++ (signer.signRaw grantDomain grant.encodeBody).1)

/-- Addition of the machine; it wraps around. -/
def PortalSigner.issue (signer : PortalSigner) (epoch : UInt64) (agentId : String)
    (operation : Operation) (scope : Scope) (gcProof : Option Uuid) (now : Int64) (nonce : Fixed 16) :
    Except GrantError (List Char) :=
  if (utf8Bytes agentId).length > maxAgentIdBytes then .error (.malformed "agent id") else
  .ok (signer.signGrant ⟨signer.keyId, epoch, agentId, operation, scope, gcProof, now,
    now + grantLifetimeSeconds, nonce⟩)

/-- What an agent expects a request's grant to say. -/
structure Expectation where
  agentId : String
  operation : Operation
  scope : Scope
  deriving DecidableEq

/-- Addition and subtraction that stop at the ends of the range. -/
def saturatingAdd (a b : Int64) : Int64 := Int64.ofIntClamp (a.toInt + b.toInt)

def saturatingSub (a b : Int64) : Int64 := Int64.ofIntClamp (a.toInt - b.toInt)

/-- The bytes of a token are a body and a signature. -/
def splitToken (raw : Bytes) : Except GrantError (Bytes × Signature) :=
  if h : raw.length < 64 then .error (.malformed "truncated")
  else .ok (raw.take (raw.length - 64), ⟨raw.drop (raw.length - 64), by rw [List.length_drop]; omega⟩)

/-- Verify a grant token for a request. -/
def KeySet.verify (set : KeySet) (token : List Char) (expect : Expectation) (now : Int64) :
    Except GrantError Grant := do
  let raw ← orMalformed "base64" (Base64.decode (trim token))
  let (body, signature) ← splitToken raw
  let grant ← Grant.decodeBody body
  match set.key grant.keyId with
  | none => .error (.unknownKey grant.keyId)
  | some key =>
    if !Ed25519.verifies key.publicKey (signedMessage grantDomain body) signature then
      .error .badSignature
    else if grant.epoch < set.epoch then .error (.staleEpoch grant.epoch set.epoch)
    else if grant.epoch > set.epoch then .error (.newerEpoch grant.epoch set.epoch)
    else if grant.agentId ≠ expect.agentId then .error (.wrongAgent grant.agentId)
    else if grant.operation ≠ expect.operation then .error .wrongOperation
    else if grant.scope ≠ expect.scope then .error .wrongObject
    else if grant.operation = .delete ∧ grant.gcProof = none then .error .deleteWithoutProof
    else if saturatingSub grant.expiresAt grant.issuedAt > maxGrantLifetimeSeconds ∨
        grant.expiresAt < grant.issuedAt then .error .lifetimeTooLong
    else if now > saturatingAdd grant.expiresAt clockSkewSeconds then .error .expired
    else if grant.issuedAt > saturatingAdd now clockSkewSeconds then .error .notYetValid
    else return grant

/-! ## Encodings are canonical -/

omit [Ed25519] in
theorem keyStatus_fromCode {code : UInt8} {status : KeyStatus} :
    KeyStatus.fromCode code = some status ↔ code = status.code := by
  constructor
  · intro h
    unfold KeyStatus.fromCode at h
    split at h <;> cases h <;> rfl
  · rintro rfl
    cases status <;> rfl

theorem inverts_readVerifyingKey :
    Inverts readVerifyingKey (fun _ => True) fun key => key.1.1 := by
  refine (inverts_array truncated 32).convert (fun bytes key _ => ?_) fun _ _ => trivial
  rw [orMalformed_eq_ok, true_and]
  constructor
  · intro h
    split at h
    · cases h
      rfl
    · cases h
  · rintro rfl
    exact dif_pos key.2

omit [Ed25519] in
theorem inverts_readStatus : Inverts readStatus (fun _ => True) fun status => [status.code] := by
  refine (inverts_u8 truncated).convert (fun code status _ => ?_) fun _ _ => trivial
  rw [orMalformed_eq_ok, keyStatus_fromCode, true_and]

omit [Ed25519] in
theorem inverts_readSignature : Inverts readSignature (fun _ => True) encodeSignature := by
  intro bytes signature rest
  unfold readSignature
  constructor
  · intro h
    obtain ⟨keyId, r, ⟨-, rfl⟩, h₁⟩ := (inverts_array _ 8).bind_eq_ok.1 h
    obtain ⟨own, r, ⟨-, rfl⟩, h₂⟩ := (inverts_array _ 64).bind_eq_ok.1 h₁
    cases h₂
    exact ⟨trivial, (List.append_assoc _ _ _).symm⟩
  · rintro ⟨-, rfl⟩
    unfold encodeSignature
    rw [List.append_assoc]
    exact (inverts_array _ 8).bind_eq_ok.2 ⟨_, _, ⟨trivial, rfl⟩,
      (inverts_array _ 64).bind_eq_ok.2 ⟨_, _, ⟨trivial, rfl⟩, rfl⟩⟩

variable [Digests]

/-- The identifier is that of the key. -/
def TrustedKey.Matches (key : TrustedKey) : Prop := KeyId.of key.publicKey = key.keyId

theorem inverts_readTrustedKey : Inverts readTrustedKey TrustedKey.Matches TrustedKey.encode := by
  intro bytes key rest
  unfold readTrustedKey
  constructor
  · intro h
    obtain ⟨keyId, r, ⟨-, rfl⟩, h₁⟩ := (inverts_array _ 8).bind_eq_ok.1 h
    obtain ⟨publicKey, r, ⟨-, rfl⟩, h₂⟩ := inverts_readVerifyingKey.bind_eq_ok.1 h₁
    obtain ⟨hmatch, h₃⟩ := guard_eq_ok.1 h₂
    obtain ⟨status, r, ⟨-, rfl⟩, h₄⟩ := inverts_readStatus.bind_eq_ok.1 h₃
    cases h₄
    refine ⟨not_not.1 hmatch, ?_⟩
    unfold TrustedKey.encode
    simp only [List.append_assoc]
  · rintro ⟨hmatch, rfl⟩
    unfold TrustedKey.encode
    simp only [List.append_assoc]
    refine (inverts_array _ 8).bind_eq_ok.2 ⟨_, _, ⟨trivial, rfl⟩, ?_⟩
    refine inverts_readVerifyingKey.bind_eq_ok.2 ⟨_, _, ⟨trivial, rfl⟩, ?_⟩
    refine guard_eq_ok.2 ⟨not_not.2 hmatch, ?_⟩
    exact inverts_readStatus.bind_eq_ok.2 ⟨_, _, ⟨trivial, rfl⟩, rfl⟩

/-- One to sixteen keys under their own identifiers, exactly one of them active. -/
structure KeySet.Valid (set : KeySet) : Prop where
  nonempty : 1 ≤ set.keys.length
  bounded : set.keys.length ≤ maxKeys
  own : ∀ key ∈ set.keys, key.Matches
  active : set.activeKeys.length = 1

/-- A body is accepted exactly when it is the encoding of the set it decodes to. -/
theorem KeySet.decodeBody_eq_ok {bytes : Bytes} {set : KeySet} :
    KeySet.decodeBody bytes = .ok set ↔ set.Valid ∧ bytes = set.encodeBody := by
  unfold KeySet.decodeBody
  constructor
  · intro h
    obtain ⟨version, r, ⟨-, rfl⟩, h₁⟩ := (inverts_u64 _).bind_eq_ok.1 h
    obtain ⟨epoch, r, ⟨-, rfl⟩, h₂⟩ := (inverts_u64 _).bind_eq_ok.1 h₁
    obtain ⟨count, r, ⟨-, rfl⟩, h₃⟩ := (inverts_u8 _).bind_eq_ok.1 h₂
    obtain ⟨hcount, h₄⟩ := guard_eq_ok.1 h₃
    obtain ⟨keys, r, ⟨⟨hlen, hkeys⟩, rfl⟩, h₅⟩ :=
      (inverts_readTrustedKey.many count.toNat).bind_eq_ok.1 h₄
    obtain ⟨hrest, h₆⟩ := guard_eq_ok.1 h₅
    obtain ⟨hactive, h₇⟩ := guard_eq_ok.1 h₆
    cases h₇
    refine ⟨⟨?_, ?_, hkeys, not_not.1 hactive⟩, ?_⟩
    · show 1 ≤ keys.length
      omega
    · show keys.length ≤ maxKeys
      omega
    · unfold KeySet.encodeBody
      rw [not_not.1 hrest, hlen, UInt8.ofNat_toNat]
      simp only [List.append_assoc, List.append_nil]
  · rintro ⟨⟨hone, hbounded, hown, hactive⟩, rfl⟩
    have hcount : (UInt8.ofNat set.keys.length).toNat = set.keys.length :=
      UInt8.toNat_ofNat_of_lt' (Nat.lt_of_le_of_lt hbounded (by decide))
    unfold KeySet.encodeBody
    simp only [List.append_assoc]
    refine (inverts_u64 _).bind_eq_ok.2 ⟨_, _, ⟨trivial, rfl⟩, ?_⟩
    refine (inverts_u64 _).bind_eq_ok.2 ⟨_, _, ⟨trivial, rfl⟩, ?_⟩
    refine (inverts_u8 _).bind_eq_ok.2 ⟨_, _, ⟨trivial, rfl⟩, ?_⟩
    refine guard_eq_ok.2 ⟨fun h => ?_, ?_⟩
    · dsimp only at h
      omega
    refine (inverts_readTrustedKey.many _).bind_eq_ok.2
      ⟨set.keys, [], ⟨⟨hcount.symm, hown⟩, (List.append_nil _).symm⟩, ?_⟩
    exact guard_eq_ok.2 ⟨fun h => h rfl, guard_eq_ok.2 ⟨not_not.2 hactive, rfl⟩⟩

omit [Digests] in
theorem KeySet.length_encodeBody (set : KeySet) :
    set.encodeBody.length = 17 + 41 * set.keys.length := by
  have hkeys : (set.keys.flatMap TrustedKey.encode).length = 41 * set.keys.length := by
    induction set.keys with
    | nil => rfl
    | cons key keys ih =>
      have hkey : key.encode.length = 41 := by
        unfold TrustedKey.encode
        rw [List.length_append, List.length_append, key.keyId.2, key.publicKey.1.2]
        rfl
      rw [List.flatMap_cons, List.length_append, ih, hkey, List.length_cons]
      omega
  unfold KeySet.encodeBody u64ToLe
  rw [List.length_append, List.length_append, List.length_append, hkeys, length_toLeBytes,
    length_toLeBytes]
  rfl

omit [Digests] in
theorem SignedKeySet.length_toBytes (set : SignedKeySet) :
    set.toBytes.length = 5 + set.body.length + 72 * set.signatures.length := by
  have hsignatures : (set.signatures.flatMap encodeSignature).length = 72 * set.signatures.length := by
    induction set.signatures with
    | nil => rfl
    | cons signature signatures ih =>
      have hone : (encodeSignature signature).length = 72 := by
        unfold encodeSignature
        rw [List.length_append, signature.1.2, signature.2.2]
      rw [List.flatMap_cons, List.length_append, ih, hone, List.length_cons]
      omega
  unfold toBytes u32ToLe
  rw [List.length_append, List.length_append, List.length_append, hsignatures, length_toLeBytes]
  show 4 + set.body.length + 1 + _ = _
  omega

/-- A valid set with one to sixteen signatures. -/
structure SignedKeySet.Valid (set : SignedKeySet) : Prop where
  keySet : set.keySet.Valid
  body : set.body = set.keySet.encodeBody
  signed : 1 ≤ set.signatures.length
  bounded : set.signatures.length ≤ maxKeys

/-- Bytes parse exactly when they are those of a valid signed set. -/
theorem SignedKeySet.fromBytes_eq_ok {bytes : Bytes} {set : SignedKeySet} :
    SignedKeySet.fromBytes bytes = .ok set ↔ set.Valid ∧ bytes = set.toBytes := by
  unfold SignedKeySet.fromBytes
  constructor
  · intro h
    obtain ⟨len, r, ⟨-, rfl⟩, h₁⟩ := (inverts_u32 _).bind_eq_ok.1 h
    obtain ⟨body, r, ⟨hlen, rfl⟩, h₂⟩ := (inverts_take _ _).bind_eq_ok.1 h₁
    obtain ⟨keySet, hbody, h₃⟩ := bind_eq_ok.1 h₂
    obtain ⟨count, r, ⟨-, rfl⟩, h₄⟩ := (inverts_u8 _).bind_eq_ok.1 h₃
    obtain ⟨hcount, h₅⟩ := guard_eq_ok.1 h₄
    obtain ⟨signatures, r, ⟨⟨hsigned, -⟩, rfl⟩, h₆⟩ :=
      (inverts_readSignature.many count.toNat).bind_eq_ok.1 h₅
    obtain ⟨hrest, h₇⟩ := guard_eq_ok.1 h₆
    cases h₇
    obtain ⟨hvalid, hencoded⟩ := KeySet.decodeBody_eq_ok.1 hbody
    refine ⟨⟨hvalid, hencoded, ?_, ?_⟩, ?_⟩
    · show 1 ≤ signatures.length
      omega
    · show signatures.length ≤ maxKeys
      omega
    · unfold SignedKeySet.toBytes
      rw [not_not.1 hrest, hlen, hsigned, UInt8.ofNat_toNat, UInt32.ofNat_toNat]
      simp only [List.append_assoc, List.append_nil, id]
  · rintro ⟨⟨hvalid, hbody, hone, hbounded⟩, rfl⟩
    have hcount : (UInt8.ofNat set.signatures.length).toNat = set.signatures.length :=
      UInt8.toNat_ofNat_of_lt' (Nat.lt_of_le_of_lt hbounded (by decide))
    have hlen : (UInt32.ofNat set.body.length).toNat = set.body.length := by
      have hkeys : set.keySet.keys.length ≤ 16 := hvalid.bounded
      have hbytes := set.keySet.length_encodeBody
      rw [← hbody] at hbytes
      exact UInt32.toNat_ofNat_of_lt' (show set.body.length < 2 ^ 32 by omega)
    unfold SignedKeySet.toBytes
    simp only [List.append_assoc]
    refine (inverts_u32 _).bind_eq_ok.2 ⟨_, _, ⟨trivial, rfl⟩, ?_⟩
    refine (inverts_take _ _).bind_eq_ok.2 ⟨set.body, _, ⟨hlen.symm, rfl⟩, ?_⟩
    refine bind_eq_ok.2 ⟨set.keySet, KeySet.decodeBody_eq_ok.2 ⟨hvalid, hbody⟩, ?_⟩
    refine (inverts_u8 _).bind_eq_ok.2 ⟨_, _, ⟨trivial, rfl⟩, ?_⟩
    refine guard_eq_ok.2 ⟨fun h => ?_, ?_⟩
    · dsimp only at h
      omega
    refine (inverts_readSignature.many _).bind_eq_ok.2
      ⟨set.signatures, [], ⟨⟨hcount.symm, fun _ _ => trivial⟩, (List.append_nil _).symm⟩, ?_⟩
    exact guard_eq_ok.2 ⟨fun h => h rfl, rfl⟩

/-- Grants and key sets have one encoding each, which decodes to them. -/
theorem encodings_are_canonical :
    (∀ grant : Grant, grant.Fits → Grant.decodeBody grant.encodeBody = .ok grant) ∧
    (∀ bytes grant, Grant.decodeBody bytes = .ok grant → grant.encodeBody = bytes) ∧
    (∀ set : KeySet, set.Valid → KeySet.decodeBody set.encodeBody = .ok set) ∧
    (∀ bytes set, KeySet.decodeBody bytes = .ok set → set.encodeBody = bytes) ∧
    (∀ a b : Grant, a.Fits → b.Fits → a.encodeBody = b.encodeBody → a = b) := by
  have hgrant {grant : Grant} (h : grant.Fits) : Grant.decodeBody grant.encodeBody = .ok grant :=
    Grant.decodeBody_eq_ok.2 ⟨h, rfl⟩
  refine ⟨fun _ => hgrant, fun bytes grant h => (Grant.decodeBody_eq_ok.1 h).2.symm,
    fun set h => KeySet.decodeBody_eq_ok.2 ⟨h, rfl⟩,
    fun bytes set h => (KeySet.decodeBody_eq_ok.1 h).2.symm, fun a b ha hb h => ?_⟩
  have hsame := hgrant ha
  rw [h, hgrant hb] at hsame
  exact (Except.ok.inj hsame).symm

end

end Trust

end DistrHnsw
