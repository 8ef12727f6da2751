import DistrHnsw.Lib.Digest
import DistrHnsw.Lib.Reader
import DistrHnsw.Lib.Text
import DistrHnsw.Metadata.Tables

/-!
# Capability grants

A grant names the agent, the operation, the object and the times it is good for.  The signed bytes
are its body: `Grant.encodeBody` writes it, `Grant.decodeBody` reads it back, and each accepts
exactly what the other produces.
-/

namespace DistrHnsw

namespace Trust

open Metadata (ObjectKind)

def grantVersion : UInt8 := 1

/-- Tolerated clock difference between portal and agent. -/
def clockSkewSeconds : Int64 := 60

/-- Longest lifetime an agent accepts. -/
def maxGrantLifetimeSeconds : Int64 := 300

/-- Lifetime the portal issues. -/
def grantLifetimeSeconds : Int64 := 120

def maxAgentIdBytes : ℕ := 255

def maxKeys : ℕ := 16

/-- First eight bytes of BLAKE3 over a verification key. -/
abbrev KeyId := Fixed 8

inductive Operation where
  | health
  | inventory
  | get
  | put
  | delete
  deriving DecidableEq, Repr

def Operation.code : Operation → UInt8
  | .health => 1
  | .inventory => 2
  | .get => 3
  | .put => 4
  | .delete => 5

def Operation.fromCode : UInt8 → Option Operation
  | 1 => some .health
  | 2 => some .inventory
  | 3 => some .get
  | 4 => some .put
  | 5 => some .delete
  | _ => none

def kindCode : ObjectKind → UInt8
  | .chunk => 1
  | .manifest => 2
  | .deletionMarker => 3

def kindFrom : UInt8 → Option ObjectKind
  | 1 => some .chunk
  | 2 => some .manifest
  | 3 => some .deletionMarker
  | _ => none

/-- 64 hexadecimal digits in lower case. -/
def IsHash (text : List Char) : Prop := text.length = 64 ∧ ∀ c ∈ text, c ∈ Hex.lower.digits

instance (text : List Char) : Decidable (IsHash text) := inferInstanceAs (Decidable (_ ∧ _))

/-- A hash as text. -/
structure ObjectHash where
  text : List Char
  valid : IsHash text
  deriving DecidableEq

def ObjectHash.parse (text : List Char) : Option ObjectHash :=
  if h : IsHash text then some ⟨text, h⟩ else none

/-- What a grant covers. -/
inductive Scope where
  | agent
  | kind (kind : ObjectKind)
  | object (kind : ObjectKind) (hash : ObjectHash)
  deriving DecidableEq

structure Grant where
  keyId : KeyId
  epoch : UInt64
  agentId : String
  operation : Operation
  scope : Scope
  gcProof : Option Uuid
  issuedAt : Int64
  expiresAt : Int64
  nonce : Fixed 16
  deriving DecidableEq

inductive GrantError where
  | missing
  | malformed (what : String)
  | unknownKey (key : KeyId)
  | badSignature
  | staleEpoch (grant current : UInt64)
  | newerEpoch (grant current : UInt64)
  | wrongAgent (agent : String)
  | wrongOperation
  | wrongObject
  | deleteWithoutProof
  | expired
  | notYetValid
  | lifetimeTooLong
  deriving DecidableEq

/-! ## Encoding -/

def ObjectHash.bytes (hash : ObjectHash) : Bytes := (Hex.decode hash.text).getD []

def Scope.encode : Scope → Bytes
  | .agent => [0]
  | .kind own => [1] ++ [kindCode own]
  | .object own hash => [2] ++ [kindCode own] ++ hash.bytes

def encodeProof : Option Uuid → Bytes
  | some proof => [1] ++ proof.1
  | none => [0]

def Grant.encodeBody (grant : Grant) : Bytes :=
  [grantVersion] ++ grant.keyId.1 ++ Reader.u64ToLe grant.epoch ++
    [UInt8.ofNat (Reader.utf8Bytes grant.agentId).length] ++ Reader.utf8Bytes grant.agentId ++
    [grant.operation.code] ++ grant.scope.encode ++ encodeProof grant.gcProof ++
    Reader.i64ToLe grant.issuedAt ++ Reader.i64ToLe grant.expiresAt ++ grant.nonce.1

/-! ## Decoding -/

def truncated : GrantError := .malformed "truncated"

/-- A value, or what is malformed about it. -/
def orMalformed {α : Type} (what : String) : Option α → Except GrantError α
  | some a => .ok a
  | none => .error (.malformed what)

def readAgentId (len : ℕ) : Reader GrantError String :=
  Reader.convert (Reader.take truncated len) fun bytes => orMalformed "agent id" (Reader.fromUtf8 bytes)

def readOperation : Reader GrantError Operation :=
  Reader.convert (Reader.u8 truncated) fun code => orMalformed "operation" (Operation.fromCode code)

def readKind : Reader GrantError ObjectKind :=
  Reader.convert (Reader.u8 truncated) fun code => orMalformed "kind" (kindFrom code)

def readHash : Reader GrantError ObjectHash :=
  Reader.convert (Reader.take truncated 32) fun bytes =>
    orMalformed "hash" (ObjectHash.parse (Hex.encode bytes))

def readScope : Reader GrantError Scope := fun bytes => do
  let (tag, r) ← Reader.u8 truncated bytes
  match tag with
  | 0 => return (.agent, r)
  | 1 => do
    let (kind, r) ← readKind r
    return (.kind kind, r)
  | 2 => do
    let (kind, r) ← readKind r
    let (hash, r) ← readHash r
    return (.object kind hash, r)
  | _ => .error (.malformed "scope")

def readProof : Reader GrantError (Option Uuid) := fun bytes => do
  let (tag, r) ← Reader.u8 truncated bytes
  match tag with
  | 0 => return (none, r)
  | 1 => do
    let (proof, r) ← Reader.array truncated 16 r
    return (some proof, r)
  | _ => .error (.malformed "gc proof")

def Grant.decodeBody (bytes : Bytes) : Except GrantError Grant := do
  let (version, r) ← Reader.u8 truncated bytes
  if version ≠ grantVersion then .error (.malformed "version") else
  let (keyId, r) ← Reader.array truncated 8 r
  let (epoch, r) ← Reader.u64 truncated r
  let (len, r) ← Reader.u8 truncated r
  let (agentId, r) ← readAgentId len.toNat r
  let (operation, r) ← readOperation r
  let (scope, r) ← readScope r
  let (gcProof, r) ← readProof r
  let (issuedAt, r) ← Reader.i64 truncated r
  let (expiresAt, r) ← Reader.i64 truncated r
  let (nonce, r) ← Reader.array truncated 16 r
  if r ≠ [] then .error (.malformed "trailing bytes") else
  return { keyId, epoch, agentId, operation, scope, gcProof, issuedAt, expiresAt, nonce }

/-! ## The readers invert the writers -/

open Reader

theorem orMalformed_eq_ok {α : Type} {what : String} {o : Option α} {a : α} :
    orMalformed what o = .ok a ↔ o = some a := by
  cases o <;> simp [orMalformed]

theorem operation_fromCode {code : UInt8} {operation : Operation} :
    Operation.fromCode code = some operation ↔ code = operation.code := by
  constructor
  · intro h
    unfold Operation.fromCode at h
    split at h <;> cases h <;> rfl
  · rintro rfl
    cases operation <;> rfl

theorem kindFrom_eq_some {code : UInt8} {kind : ObjectKind} :
    kindFrom code = some kind ↔ code = kindCode kind := by
  constructor
  · intro h
    unfold kindFrom at h
    split at h <;> cases h <;> rfl
  · rintro rfl
    cases kind <;> rfl

theorem ObjectHash.parse_eq_some {text : List Char} {hash : ObjectHash} :
    ObjectHash.parse text = some hash ↔ text = hash.text := by
  unfold ObjectHash.parse
  constructor
  · intro h
    split at h
    · cases h
      rfl
    · cases h
  · rintro rfl
    exact dif_pos hash.valid

theorem ObjectHash.encode_bytes (hash : ObjectHash) : Hex.encode hash.bytes = hash.text := by
  obtain ⟨bytes, hdecode, hencode⟩ := Hex.encode_decode hash.valid.2 (by rw [hash.valid.1])
  unfold ObjectHash.bytes
  rw [hdecode]
  exact hencode

theorem ObjectHash.length_bytes (hash : ObjectHash) : hash.bytes.length = 32 := by
  have hlen := Hex.length_encode hash.bytes
  rw [hash.encode_bytes, hash.valid.1] at hlen
  omega

theorem inverts_readAgentId (len : ℕ) :
    Inverts (readAgentId len) (fun text => (utf8Bytes text).length = len) utf8Bytes := by
  refine (inverts_take truncated len).convert (fun bytes text hlen => ?_) fun _ h => h
  rw [orMalformed_eq_ok, fromUtf8_eq_some]
  exact ⟨fun h => ⟨h ▸ hlen, h⟩, fun h => h.2⟩

theorem inverts_readOperation :
    Inverts readOperation (fun _ => True) fun operation => [operation.code] := by
  refine (inverts_u8 truncated).convert (fun code operation _ => ?_) fun _ _ => trivial
  rw [orMalformed_eq_ok, operation_fromCode, true_and]

theorem inverts_readKind : Inverts readKind (fun _ => True) fun kind => [kindCode kind] := by
  refine (inverts_u8 truncated).convert (fun code kind _ => ?_) fun _ _ => trivial
  rw [orMalformed_eq_ok, kindFrom_eq_some, true_and]

/-- 32 bytes name the hash they are the bytes of. -/
theorem ObjectHash.parse_encode {bytes : Bytes} {hash : ObjectHash} :
    ObjectHash.parse (Hex.encode bytes) = some hash ↔ bytes = hash.bytes := by
  rw [ObjectHash.parse_eq_some]
  constructor
  · intro h
    have hdecode := Hex.decode_encode bytes
    rw [h] at hdecode
    show bytes = (Hex.decode hash.text).getD []
    rw [hdecode]
    rfl
  · rintro rfl
    exact hash.encode_bytes

theorem inverts_readHash : Inverts readHash (fun _ => True) ObjectHash.bytes := by
  refine (inverts_take truncated 32).convert (fun bytes hash _ => ?_) fun hash _ => hash.length_bytes
  rw [orMalformed_eq_ok, ObjectHash.parse_encode, true_and]
  rfl

theorem inverts_readScope : Inverts readScope (fun _ => True) Scope.encode := by
  intro bytes scope rest
  unfold readScope
  rw [(inverts_u8 truncated).bind_eq_ok, true_and]
  constructor
  · rintro ⟨tag, r, ⟨-, rfl⟩, h⟩
    dsimp only at h
    split at h
    · cases h
      rfl
    · obtain ⟨own, r, ⟨-, rfl⟩, h₁⟩ := inverts_readKind.bind_eq_ok.1 h
      cases h₁
      rfl
    · obtain ⟨own, r, ⟨-, rfl⟩, h₁⟩ := inverts_readKind.bind_eq_ok.1 h
      obtain ⟨hash, r, ⟨-, rfl⟩, h₂⟩ := inverts_readHash.bind_eq_ok.1 h₁
      cases h₂
      rfl
    · cases h
  · rintro rfl
    cases scope with
    | agent => exact ⟨0, rest, ⟨trivial, rfl⟩, rfl⟩
    | kind own =>
      exact ⟨1, [kindCode own] ++ rest, ⟨trivial, rfl⟩,
        inverts_readKind.bind_eq_ok.2 ⟨own, rest, ⟨trivial, rfl⟩, rfl⟩⟩
    | object own hash =>
      exact ⟨2, [kindCode own] ++ (hash.bytes ++ rest), ⟨trivial, rfl⟩,
        inverts_readKind.bind_eq_ok.2 ⟨own, hash.bytes ++ rest, ⟨trivial, rfl⟩,
          inverts_readHash.bind_eq_ok.2 ⟨hash, rest, ⟨trivial, rfl⟩, rfl⟩⟩⟩

theorem inverts_readProof : Inverts readProof (fun _ => True) encodeProof := by
  intro bytes proof rest
  unfold readProof
  rw [(inverts_u8 truncated).bind_eq_ok, true_and]
  constructor
  · rintro ⟨tag, r, ⟨-, rfl⟩, h⟩
    dsimp only at h
    split at h
    · cases h
      rfl
    · obtain ⟨own, r, ⟨-, rfl⟩, h₁⟩ := (inverts_array truncated 16).bind_eq_ok.1 h
      cases h₁
      rfl
    · cases h
  · rintro rfl
    cases proof with
    | none => exact ⟨0, rest, ⟨trivial, rfl⟩, rfl⟩
    | some proof =>
      exact ⟨1, proof.1 ++ rest, ⟨trivial, rfl⟩, (inverts_array truncated 16).bind_eq_ok.2
        ⟨proof, rest, ⟨trivial, rfl⟩, rfl⟩⟩

/-- The length of the agent's identifier is one byte. -/
def Grant.Fits (grant : Grant) : Prop := (utf8Bytes grant.agentId).length ≤ maxAgentIdBytes

/-- A body is accepted exactly when it is the encoding of the grant it decodes to. -/
theorem Grant.decodeBody_eq_ok {bytes : Bytes} {grant : Grant} :
    Grant.decodeBody bytes = .ok grant ↔ grant.Fits ∧ bytes = grant.encodeBody := by
  unfold Grant.decodeBody
  constructor
  · intro h
    obtain ⟨version, r, ⟨-, rfl⟩, h₁⟩ := (inverts_u8 _).bind_eq_ok.1 h
    obtain ⟨hversion, h₂⟩ := guard_eq_ok.1 h₁
    obtain ⟨keyId, r, ⟨-, rfl⟩, h₃⟩ := (inverts_array _ 8).bind_eq_ok.1 h₂
    obtain ⟨epoch, r, ⟨-, rfl⟩, h₄⟩ := (inverts_u64 _).bind_eq_ok.1 h₃
    obtain ⟨len, r, ⟨-, rfl⟩, h₅⟩ := (inverts_u8 _).bind_eq_ok.1 h₄
    obtain ⟨agentId, r, ⟨hlen, rfl⟩, h₆⟩ := (inverts_readAgentId _).bind_eq_ok.1 h₅
    obtain ⟨operation, r, ⟨-, rfl⟩, h₇⟩ := inverts_readOperation.bind_eq_ok.1 h₆
    obtain ⟨scope, r, ⟨-, rfl⟩, h₈⟩ := inverts_readScope.bind_eq_ok.1 h₇
    obtain ⟨gcProof, r, ⟨-, rfl⟩, h₉⟩ := inverts_readProof.bind_eq_ok.1 h₈
    obtain ⟨issuedAt, r, ⟨-, rfl⟩, h₁₀⟩ := (inverts_i64 _).bind_eq_ok.1 h₉
    obtain ⟨expiresAt, r, ⟨-, rfl⟩, h₁₁⟩ := (inverts_i64 _).bind_eq_ok.1 h₁₀
    obtain ⟨nonce, r, ⟨-, rfl⟩, h₁₂⟩ := (inverts_array _ 16).bind_eq_ok.1 h₁₁
    obtain ⟨hrest, h₁₃⟩ := guard_eq_ok.1 h₁₂
    cases h₁₃
    refine ⟨?_, ?_⟩
    · have hlt := len.toNat_lt
      show (utf8Bytes agentId).length ≤ 255
      omega
    · unfold Grant.encodeBody
      rw [not_not.1 hversion, not_not.1 hrest, hlen, UInt8.ofNat_toNat]
      simp only [List.append_assoc, List.append_nil]
  · rintro ⟨hfits, rfl⟩
    have hlen : (UInt8.ofNat (utf8Bytes grant.agentId).length).toNat =
        (utf8Bytes grant.agentId).length :=
      UInt8.toNat_ofNat_of_lt' (Nat.lt_succ_of_le hfits)
    unfold Grant.encodeBody
    simp only [List.append_assoc]
    refine (inverts_u8 _).bind_eq_ok.2 ⟨_, _, ⟨trivial, rfl⟩, guard_eq_ok.2 ⟨fun h => h rfl, ?_⟩⟩
    refine (inverts_array _ 8).bind_eq_ok.2 ⟨_, _, ⟨trivial, rfl⟩, ?_⟩
    refine (inverts_u64 _).bind_eq_ok.2 ⟨_, _, ⟨trivial, rfl⟩, ?_⟩
    refine (inverts_u8 _).bind_eq_ok.2 ⟨_, _, ⟨trivial, rfl⟩, ?_⟩
    refine (inverts_readAgentId _).bind_eq_ok.2 ⟨_, _, ⟨hlen.symm, rfl⟩, ?_⟩
    refine inverts_readOperation.bind_eq_ok.2 ⟨_, _, ⟨trivial, rfl⟩, ?_⟩
    refine inverts_readScope.bind_eq_ok.2 ⟨_, _, ⟨trivial, rfl⟩, ?_⟩
    refine inverts_readProof.bind_eq_ok.2 ⟨_, _, ⟨trivial, rfl⟩, ?_⟩
    refine (inverts_i64 _).bind_eq_ok.2 ⟨_, _, ⟨trivial, rfl⟩, ?_⟩
    refine (inverts_i64 _).bind_eq_ok.2 ⟨_, _, ⟨trivial, rfl⟩, ?_⟩
    exact (inverts_array _ 16).bind_eq_ok.2 ⟨_, [], ⟨trivial, (List.append_nil _).symm⟩, rfl⟩

end Trust

end DistrHnsw
