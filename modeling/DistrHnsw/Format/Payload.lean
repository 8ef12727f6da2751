import DistrHnsw.Trust.Grant

/-!
# Manifest payloads

A file's name, length, digest, wrapped content key and chunks.  `encodePayload` refuses what does not
fit its fields; `decodePayload` accepts exactly what it writes of chunks in their order, as long as
there are no more of them than a field of the largest size has room for.
-/

namespace DistrHnsw

namespace Format

open Trust (ObjectHash)

def maxFieldLen : ℕ := 16 * 1024 * 1024

inductive CryptoError where
  | invalidKeyLength
  | plaintextLengthMismatch
  | unsupportedEnvelopeVersion (version : UInt16)
  | aead
  deriving DecidableEq

inductive FormatError where
  | badMagic
  | unsupportedVersion (version : UInt16)
  | truncated
  | trailingBytes
  | fieldTooLarge
  | invalidUtf8
  | nonCanonicalOrdinal
  | invalidDeletionPayload
  | crypto (error : CryptoError)
  | aead
  | hex
  | object
  deriving DecidableEq

/-- A key sealed under the master key. -/
structure WrappedKey where
  nonce : Fixed 24
  ciphertext : Bytes
  deriving DecidableEq

structure ChunkRecord where
  ordinal : UInt32
  plaintextLen : UInt32
  nonce : Fixed 24
  ciphertextHash : ObjectHash
  ciphertextLen : UInt32
  deriving DecidableEq

structure ManifestPayload where
  name : String
  plaintextLen : UInt64
  plaintextHash : Fixed 32
  contentKey : WrappedKey
  chunks : List ChunkRecord
  deriving DecidableEq

/-- A length as a number of 32 bits. -/
def tryU32 (n : ℕ) : Except FormatError UInt32 :=
  if n < 2 ^ 32 then .ok (UInt32.ofNat n) else .error .fieldTooLarge

def pushBytes (output bytes : Bytes) : Except FormatError Bytes :=
  if maxFieldLen < bytes.length then .error .fieldTooLarge else do
  let length ← tryU32 bytes.length
  return output ++ Reader.u32ToLe length ++ bytes

def encodeChunk (output : Bytes) (chunk : ChunkRecord) : Except FormatError Bytes := do
  let output := output ++ Reader.u32ToLe chunk.ordinal ++ Reader.u32ToLe chunk.plaintextLen ++
    chunk.nonce.1
  match Hex.decode chunk.ciphertextHash.text with
  | none => .error .hex
  | some hash => return output ++ hash ++ Reader.u32ToLe chunk.ciphertextLen

def encodePayload (payload : ManifestPayload) : Except FormatError Bytes := do
  let output ← pushBytes [] (Reader.utf8Bytes payload.name)
  let output := output ++ Reader.u64ToLe payload.plaintextLen ++ payload.plaintextHash.1 ++
    payload.contentKey.nonce.1
  let output ← pushBytes output payload.contentKey.ciphertext
  let count ← tryU32 payload.chunks.length
  payload.chunks.foldlM encodeChunk (output ++ Reader.u32ToLe count)

/-! ## Decoding -/

/-- A field behind its length. -/
def readBytes : Reader FormatError Bytes := fun bytes => do
  let (count, r) ← Reader.u32 .truncated bytes
  if maxFieldLen < count.toNat then .error .fieldTooLarge else
  Reader.take .truncated count.toNat r

def readName : Reader FormatError String :=
  Reader.convert readBytes fun bytes => match Reader.fromUtf8 bytes with
    | some name => .ok name
    | none => .error .invalidUtf8

def readHash : Reader FormatError ObjectHash :=
  Reader.convert (Reader.array .truncated 32) fun bytes =>
    match ObjectHash.parse (Hex.encode bytes.1) with
    | some hash => .ok hash
    | none => .error .object

def readChunk (expectedOrdinal : ℕ) : Reader FormatError ChunkRecord := fun bytes => do
  let (ordinal, r) ← Reader.u32 .truncated bytes
  if ordinal.toNat ≠ expectedOrdinal then .error .nonCanonicalOrdinal else
  let (plaintextLen, r) ← Reader.u32 .truncated r
  let (nonce, r) ← Reader.array .truncated 24 r
  let (ciphertextHash, r) ← readHash r
  let (ciphertextLen, r) ← Reader.u32 .truncated r
  return ({ ordinal, plaintextLen, nonce, ciphertextHash, ciphertextLen }, r)

/-- A number of chunks, the first of them with the ordinal given. -/
def readChunks : ℕ → ℕ → Reader FormatError (List ChunkRecord)
  | _, 0, bytes => .ok ([], bytes)
  | expectedOrdinal, count + 1, bytes => do
    let (chunk, r) ← readChunk expectedOrdinal bytes
    let (chunks, r) ← readChunks (expectedOrdinal + 1) count r
    return (chunk :: chunks, r)

def decodePayload (bytes : Bytes) : Except FormatError ManifestPayload := do
  let (name, r) ← readName bytes
  let (plaintextLen, r) ← Reader.u64 .truncated r
  let (plaintextHash, r) ← Reader.array .truncated 32 r
  let (nonce, r) ← Reader.array .truncated 24 r
  let (ciphertext, r) ← readBytes r
  let (count, r) ← Reader.u32 .truncated r
  if maxFieldLen / 64 < count.toNat then .error .fieldTooLarge else
  let (chunks, r) ← readChunks 0 count.toNat r
  if r ≠ [] then .error .trailingBytes else
  return { name, plaintextLen, plaintextHash, contentKey := ⟨nonce, ciphertext⟩, chunks }

/-! ## What is written -/

open Reader

/-- A field behind its length. -/
def fieldBytes (bytes : Bytes) : Bytes := u32ToLe (UInt32.ofNat bytes.length) ++ bytes

def ChunkRecord.bytes (chunk : ChunkRecord) : Bytes :=
  u32ToLe chunk.ordinal ++ u32ToLe chunk.plaintextLen ++ chunk.nonce.1 ++
    chunk.ciphertextHash.bytes ++ u32ToLe chunk.ciphertextLen

def ManifestPayload.bytes (payload : ManifestPayload) : Bytes :=
  fieldBytes (utf8Bytes payload.name) ++ u64ToLe payload.plaintextLen ++ payload.plaintextHash.1 ++
    payload.contentKey.nonce.1 ++ fieldBytes payload.contentKey.ciphertext ++
    u32ToLe (UInt32.ofNat payload.chunks.length) ++ payload.chunks.flatMap ChunkRecord.bytes

/-- The fields have room for their values. -/
structure ManifestPayload.Fits (payload : ManifestPayload) : Prop where
  name : (utf8Bytes payload.name).length ≤ maxFieldLen
  contentKey : payload.contentKey.ciphertext.length ≤ maxFieldLen
  chunks : payload.chunks.length < 2 ^ 32

theorem tryU32_eq_ok {n : ℕ} {m : UInt32} : tryU32 n = .ok m ↔ n < 2 ^ 32 ∧ UInt32.ofNat n = m := by
  unfold tryU32
  split
  · rename_i hlt
    exact ⟨fun h => ⟨hlt, Except.ok.inj h⟩, fun h => congrArg _ h.2⟩
  · rename_i hlt
    exact ⟨nofun, fun h => absurd h.1 hlt⟩

theorem pushBytes_eq_ok {output bytes output' : Bytes} : pushBytes output bytes = .ok output' ↔
    bytes.length ≤ maxFieldLen ∧ output ++ fieldBytes bytes = output' := by
  unfold pushBytes fieldBytes
  rw [guard_eq_ok, not_lt]
  refine and_congr_right fun hle => ?_
  have hlt : bytes.length < 2 ^ 32 := by
    unfold maxFieldLen at hle
    omega
  rw [tryU32, if_pos hlt, ok_bind, pure_eq_ok, List.append_assoc, Except.ok.injEq]

theorem decode_text (hash : ObjectHash) : Hex.decode hash.text = some hash.bytes := by
  obtain ⟨bytes, hdecode, -⟩ := Hex.encode_decode hash.valid.2 (by rw [hash.valid.1])
  unfold ObjectHash.bytes
  rw [hdecode]
  rfl

theorem encodeChunk_eq (output : Bytes) (chunk : ChunkRecord) :
    encodeChunk output chunk = .ok (output ++ chunk.bytes) := by
  unfold encodeChunk ChunkRecord.bytes
  rw [decode_text]
  simp only [List.append_assoc]
  rfl

theorem encodeChunks_eq (output : Bytes) (chunks : List ChunkRecord) :
    chunks.foldlM encodeChunk output = .ok (output ++ chunks.flatMap ChunkRecord.bytes) := by
  induction chunks generalizing output with
  | nil => simp
  | cons chunk chunks ih =>
    rw [List.foldlM_cons, encodeChunk_eq, ok_bind, ih, List.flatMap_cons, List.append_assoc]

/-- A payload is encoded exactly when it fits. -/
theorem encodePayload_eq_ok {payload : ManifestPayload} {bytes : Bytes} :
    encodePayload payload = .ok bytes ↔ payload.Fits ∧ payload.bytes = bytes := by
  unfold encodePayload ManifestPayload.bytes
  constructor
  · intro h
    obtain ⟨output, hname, h₁⟩ := bind_eq_ok.1 h
    obtain ⟨output', hkey, h₂⟩ := bind_eq_ok.1 h₁
    obtain ⟨count, hcount, h₃⟩ := bind_eq_ok.1 h₂
    rw [encodeChunks_eq] at h₃
    obtain ⟨hfitsName, rfl⟩ := pushBytes_eq_ok.1 hname
    obtain ⟨hfitsKey, rfl⟩ := pushBytes_eq_ok.1 hkey
    obtain ⟨hfitsCount, rfl⟩ := tryU32_eq_ok.1 hcount
    exact ⟨⟨hfitsName, hfitsKey, hfitsCount⟩, Except.ok.inj h₃⟩
  · rintro ⟨hfits, rfl⟩
    refine bind_eq_ok.2 ⟨_, pushBytes_eq_ok.2 ⟨hfits.name, rfl⟩, ?_⟩
    refine bind_eq_ok.2 ⟨_, pushBytes_eq_ok.2 ⟨hfits.contentKey, rfl⟩, ?_⟩
    exact bind_eq_ok.2 ⟨_, tryU32_eq_ok.2 ⟨hfits.chunks, rfl⟩, encodeChunks_eq _ _⟩

/-! ## The readers invert the writers -/

theorem inverts_readBytes : Inverts readBytes (fun bytes => bytes.length ≤ maxFieldLen) fieldBytes := by
  intro bytes field rest
  unfold readBytes fieldBytes
  rw [(inverts_u32 _).bind_eq_ok]
  constructor
  · rintro ⟨count, r, ⟨-, rfl⟩, h⟩
    obtain ⟨hcount, h₁⟩ := guard_eq_ok.1 h
    obtain ⟨hlen, rfl⟩ := (inverts_take _ _ _ _ _).1 h₁
    refine ⟨?_, ?_⟩
    · show field.length ≤ _
      omega
    · rw [hlen, UInt32.ofNat_toNat, List.append_assoc]
      rfl
  · rintro ⟨hlen, rfl⟩
    have hcount : (UInt32.ofNat field.length).toNat = field.length := by
      unfold maxFieldLen at hlen
      exact UInt32.toNat_ofNat_of_lt' (show field.length < 2 ^ 32 by omega)
    refine ⟨_, field ++ rest, ⟨trivial, List.append_assoc _ _ _⟩, ?_⟩
    exact guard_eq_ok.2 ⟨by omega, (inverts_take _ _ _ _ _).2 ⟨hcount.symm, rfl⟩⟩

theorem inverts_readName :
    Inverts readName (fun name => (utf8Bytes name).length ≤ maxFieldLen)
      fun name => fieldBytes (utf8Bytes name) := by
  refine inverts_readBytes.convert (fun bytes name hlen => ?_) fun _ h => h
  rw [← fromUtf8_eq_some]
  constructor
  · intro h
    split at h
    · next name' hname =>
      cases h
      rw [fromUtf8_eq_some.1 hname] at hlen
      exact ⟨hlen, hname⟩
    · cases h
  · rintro ⟨-, hname⟩
    rw [hname]

theorem inverts_readHash : Inverts readHash (fun _ => True) ObjectHash.bytes := by
  refine (inverts_array _ 32).convert (g := fun hash : ObjectHash => ⟨hash.bytes, hash.length_bytes⟩)
    (fun bytes hash _ => ?_) fun _ _ => trivial
  rw [true_and, Subtype.ext_iff, ← ObjectHash.parse_encode]
  cases ObjectHash.parse (Hex.encode bytes.1) <;> simp

theorem inverts_readChunk (expectedOrdinal : ℕ) : Inverts (readChunk expectedOrdinal)
    (fun chunk => chunk.ordinal.toNat = expectedOrdinal) ChunkRecord.bytes := by
  intro bytes chunk rest
  unfold readChunk ChunkRecord.bytes
  constructor
  · intro h
    obtain ⟨ordinal, r, ⟨-, rfl⟩, h₁⟩ := (inverts_u32 _).bind_eq_ok.1 h
    obtain ⟨hordinal, h₂⟩ := guard_eq_ok.1 h₁
    obtain ⟨plaintextLen, r, ⟨-, rfl⟩, h₃⟩ := (inverts_u32 _).bind_eq_ok.1 h₂
    obtain ⟨nonce, r, ⟨-, rfl⟩, h₄⟩ := (inverts_array _ 24).bind_eq_ok.1 h₃
    obtain ⟨hash, r, ⟨-, rfl⟩, h₅⟩ := inverts_readHash.bind_eq_ok.1 h₄
    obtain ⟨ciphertextLen, r, ⟨-, rfl⟩, h₆⟩ := (inverts_u32 _).bind_eq_ok.1 h₅
    cases h₆
    refine ⟨not_not.1 hordinal, ?_⟩
    simp only [List.append_assoc]
  · rintro ⟨hordinal, rfl⟩
    simp only [List.append_assoc]
    refine (inverts_u32 _).bind_eq_ok.2 ⟨_, _, ⟨trivial, rfl⟩, ?_⟩
    refine guard_eq_ok.2 ⟨fun h => h hordinal, ?_⟩
    refine (inverts_u32 _).bind_eq_ok.2 ⟨_, _, ⟨trivial, rfl⟩, ?_⟩
    refine (inverts_array _ 24).bind_eq_ok.2 ⟨_, _, ⟨trivial, rfl⟩, ?_⟩
    refine inverts_readHash.bind_eq_ok.2 ⟨_, _, ⟨trivial, rfl⟩, ?_⟩
    exact (inverts_u32 _).bind_eq_ok.2 ⟨_, _, ⟨trivial, rfl⟩, rfl⟩

/-- The chunks count up from an ordinal. -/
def CountsFrom (start : ℕ) (chunks : List ChunkRecord) : Prop :=
  chunks.map (·.ordinal.toNat) = List.range' start chunks.length

theorem countsFrom_cons {start : ℕ} {chunk : ChunkRecord} {chunks : List ChunkRecord} :
    CountsFrom start (chunk :: chunks) ↔
      chunk.ordinal.toNat = start ∧ CountsFrom (start + 1) chunks := by
  unfold CountsFrom
  rw [List.map_cons, List.length_cons, List.range'_succ, List.cons.injEq]

theorem inverts_readChunks (expectedOrdinal count : ℕ) :
    Inverts (readChunks expectedOrdinal count)
      (fun chunks => chunks.length = count ∧ CountsFrom expectedOrdinal chunks)
      (·.flatMap ChunkRecord.bytes) := by
  induction count generalizing expectedOrdinal with
  | zero =>
    intro bytes chunks rest
    constructor
    · intro h
      cases h
      exact ⟨⟨rfl, rfl⟩, rfl⟩
    · rintro ⟨⟨hlen, -⟩, rfl⟩
      rw [List.length_eq_zero_iff.1 hlen]
      rfl
  | succ count ih =>
    intro bytes chunks rest
    unfold readChunks
    rw [(inverts_readChunk _).bind_eq_ok]
    constructor
    · rintro ⟨chunk, r, ⟨hordinal, rfl⟩, h⟩
      obtain ⟨more, r, ⟨⟨hlen, hcounts⟩, rfl⟩, h₁⟩ := (ih _).bind_eq_ok.1 h
      cases h₁
      refine ⟨⟨congrArg (· + 1) hlen, countsFrom_cons.2 ⟨hordinal, hcounts⟩⟩, ?_⟩
      exact (List.append_assoc _ _ _).symm
    · rintro ⟨⟨hlen, hcounts⟩, rfl⟩
      cases chunks with
      | nil => cases hlen
      | cons chunk chunks =>
        obtain ⟨hordinal, hmore⟩ := countsFrom_cons.1 hcounts
        refine ⟨chunk, _, ⟨hordinal, List.append_assoc _ _ _⟩, ?_⟩
        exact (ih _).bind_eq_ok.2 ⟨chunks, rest, ⟨⟨Nat.succ.inj hlen, hmore⟩, rfl⟩, rfl⟩

/-- The chunks of a payload are numbered from zero. -/
def ManifestPayload.Ordered (payload : ManifestPayload) : Prop :=
  payload.chunks.map (·.ordinal.toNat) = List.range payload.chunks.length

theorem ManifestPayload.ordered_iff {payload : ManifestPayload} :
    payload.Ordered ↔ CountsFrom 0 payload.chunks := by
  unfold Ordered CountsFrom
  rw [List.range_eq_range']

/-- Bytes are accepted exactly when they are the encoding of the payload they decode to, whose chunks
are in order and not too many. -/
theorem decodePayload_eq_ok {bytes : Bytes} {payload : ManifestPayload} :
    decodePayload bytes = .ok payload ↔ payload.Ordered ∧
      payload.chunks.length ≤ maxFieldLen / 64 ∧ encodePayload payload = .ok bytes := by
  rw [encodePayload_eq_ok, ManifestPayload.ordered_iff]
  unfold decodePayload ManifestPayload.bytes
  constructor
  · intro h
    obtain ⟨name, r, ⟨hname, rfl⟩, h₁⟩ := inverts_readName.bind_eq_ok.1 h
    obtain ⟨plaintextLen, r, ⟨-, rfl⟩, h₂⟩ := (inverts_u64 _).bind_eq_ok.1 h₁
    obtain ⟨plaintextHash, r, ⟨-, rfl⟩, h₃⟩ := (inverts_array _ 32).bind_eq_ok.1 h₂
    obtain ⟨nonce, r, ⟨-, rfl⟩, h₄⟩ := (inverts_array _ 24).bind_eq_ok.1 h₃
    obtain ⟨ciphertext, r, ⟨hkey, rfl⟩, h₅⟩ := inverts_readBytes.bind_eq_ok.1 h₄
    obtain ⟨count, r, ⟨-, rfl⟩, h₆⟩ := (inverts_u32 _).bind_eq_ok.1 h₅
    obtain ⟨hcount, h₇⟩ := guard_eq_ok.1 h₆
    obtain ⟨chunks, r, ⟨⟨hlen, hcounts⟩, rfl⟩, h₈⟩ := (inverts_readChunks _ _).bind_eq_ok.1 h₇
    obtain ⟨hrest, h₉⟩ := guard_eq_ok.1 h₈
    cases h₉
    refine ⟨hcounts, ?_, ⟨hname, hkey, ?_⟩, ?_⟩
    · show chunks.length ≤ _
      omega
    · show chunks.length < _
      have := count.toNat_lt
      omega
    · rw [hlen, UInt32.ofNat_toNat, not_not.1 hrest]
      simp only [List.append_assoc, List.append_nil]
  · rintro ⟨hcounts, hmany, hfits, rfl⟩
    have hcount : (UInt32.ofNat payload.chunks.length).toNat = payload.chunks.length :=
      UInt32.toNat_ofNat_of_lt' hfits.chunks
    simp only [List.append_assoc]
    refine inverts_readName.bind_eq_ok.2 ⟨_, _, ⟨hfits.name, rfl⟩, ?_⟩
    refine (inverts_u64 _).bind_eq_ok.2 ⟨_, _, ⟨trivial, rfl⟩, ?_⟩
    refine (inverts_array _ 32).bind_eq_ok.2 ⟨_, _, ⟨trivial, rfl⟩, ?_⟩
    refine (inverts_array _ 24).bind_eq_ok.2 ⟨_, _, ⟨trivial, rfl⟩, ?_⟩
    refine inverts_readBytes.bind_eq_ok.2 ⟨_, _, ⟨hfits.contentKey, rfl⟩, ?_⟩
    refine (inverts_u32 _).bind_eq_ok.2 ⟨_, _, ⟨trivial, rfl⟩, guard_eq_ok.2 ⟨?_, ?_⟩⟩
    · rw [hcount, not_lt]
      exact hmany
    · exact (inverts_readChunks _ _).bind_eq_ok.2
        ⟨payload.chunks, [], ⟨⟨hcount.symm, hcounts⟩, (List.append_nil _).symm⟩, rfl⟩

/-! ## Lengths -/

@[simp] theorem length_u32ToLe (n : UInt32) : (u32ToLe n).length = 4 := length_toLeBytes _ _

@[simp] theorem length_u64ToLe (n : UInt64) : (u64ToLe n).length = 8 := length_toLeBytes _ _

@[simp] theorem length_fieldBytes (bytes : Bytes) : (fieldBytes bytes).length = bytes.length + 4 := by
  simp [fieldBytes, Nat.add_comm]

theorem ChunkRecord.length_bytes (chunk : ChunkRecord) : chunk.bytes.length = 68 := by
  simp [ChunkRecord.bytes, chunk.nonce.2, chunk.ciphertextHash.length_bytes]

theorem length_chunks (chunks : List ChunkRecord) :
    (chunks.flatMap ChunkRecord.bytes).length = 68 * chunks.length := by
  induction chunks with
  | nil => rfl
  | cons chunk chunks ih =>
    rw [List.flatMap_cons, List.length_append, ih, chunk.length_bytes, List.length_cons]
    omega

/-- The length of a payload is that of its name, its wrapped key and the number of its chunks. -/
theorem ManifestPayload.length_bytes (payload : ManifestPayload) : payload.bytes.length =
    (utf8Bytes payload.name).length + payload.contentKey.ciphertext.length +
      68 * payload.chunks.length + 76 := by
  unfold ManifestPayload.bytes
  simp only [List.length_append, length_fieldBytes, length_u64ToLe, length_u32ToLe, length_chunks,
    payload.plaintextHash.2, payload.contentKey.nonce.2]
  omega

end Format

end DistrHnsw
