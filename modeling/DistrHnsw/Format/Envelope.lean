import DistrHnsw.Format.Payload
import DistrHnsw.Lib.Cipher

/-!
# Sealed manifests and deletion markers

A clear header, a key wrapped under the master key for the file and its generation, and the payload
sealed under that key with the header as associated data.  Both kinds of object are this envelope
with a magic number and a purpose of their own.  Keys and nonces that are drawn at random are
parameters.
-/

namespace DistrHnsw

namespace Format

open Reader

def manifestMagic : Bytes := [0x44, 0x48, 0x4D, 0x46]

def deletionMarkerMagic : Bytes := [0x44, 0x48, 0x44, 0x4D]

def envelopeVersion : UInt16 := 1

def manifestKeyPurpose : Bytes := utf8Bytes "manifest"

def deletionMarkerKeyPurpose : Bytes := utf8Bytes "deletion-marker"

abbrev Key := Fixed 32

abbrev Nonce := Fixed 24

/-- What is drawn for an envelope. -/
structure Draw where
  key : Key
  keyNonce : Nonce
  payloadNonce : Nonce
  deriving DecidableEq

structure DecodedManifest where
  fileId : Uuid
  generation : UInt64
  payload : ManifestPayload
  deriving DecidableEq

structure DeletionMarker where
  fileId : Uuid
  generation : UInt64
  deletedAt : Int64
  deriving DecidableEq

def orFails {ε α : Type} (error : ε) : Option α → Except ε α
  | some a => .ok a
  | none => .error error

theorem orFails_eq_ok {ε α : Type} {error : ε} {o : Option α} {a : α} :
    orFails error o = .ok a ↔ o = some a := by
  cases o <;> simp [orFails]

section

variable [Aead]

/-! ## Keys -/

def keyAad (purpose : Bytes) (fileId : Uuid) (generation : UInt64) : Bytes :=
  utf8Bytes "distr-hnsw:key:v1:" ++ purpose ++ fileId.1 ++ u64ToLe generation

def wrapKey (master : Key) (purpose : Bytes) (fileId : Uuid) (generation : UInt64) (nonce : Nonce)
    (key : Key) : Except CryptoError WrappedKey := do
  let ciphertext ← orFails .aead (Aead.encrypt master nonce (keyAad purpose fileId generation) key.1)
  return { nonce, ciphertext }

def unwrapKey (master : Key) (purpose : Bytes) (fileId : Uuid) (generation : UInt64)
    (wrapped : WrappedKey) : Except CryptoError Key := do
  let plaintext ← orFails .aead
    (Aead.decrypt master wrapped.nonce (keyAad purpose fileId generation) wrapped.ciphertext)
  if h : plaintext.length = 32 then .ok ⟨plaintext, h⟩ else .error .invalidKeyLength

section

variable {master key : Key} {purpose : Bytes} {fileId : Uuid} {generation : UInt64} {nonce : Nonce}
  {wrapped : WrappedKey}

theorem unwrapKey_of_wrapKey (h : wrapKey master purpose fileId generation nonce key = .ok wrapped) :
    unwrapKey master purpose fileId generation wrapped = .ok key := by
  obtain ⟨ciphertext, hciphertext, hwrapped⟩ := bind_eq_ok.1 h
  cases hwrapped
  unfold unwrapKey
  refine bind_eq_ok.2 ⟨key.1, ?_, dif_pos key.2⟩
  exact orFails_eq_ok.2 (Aead.decrypt_of_encrypt (orFails_eq_ok.1 hciphertext))

theorem length_of_wrapKey (h : wrapKey master purpose fileId generation nonce key = .ok wrapped) :
    wrapped.ciphertext.length = 48 := by
  obtain ⟨ciphertext, hciphertext, hwrapped⟩ := bind_eq_ok.1 h
  cases hwrapped
  rw [Aead.length_of_encrypt (orFails_eq_ok.1 hciphertext), key.2]

end

/-! ## Envelopes -/

def clearHeader (magic : Bytes) (fileId : Uuid) (generation : UInt64) : Bytes :=
  magic ++ u16ToLe envelopeVersion ++ fileId.1 ++ u64ToLe generation

/-- An envelope around a payload, unless that fails to be encoded. -/
def encodeEnvelope (magic purpose : Bytes) (master : Key) (draw : Draw) (fileId : Uuid)
    (generation : UInt64) (payload : Except FormatError Bytes) : Except FormatError Bytes := do
  let wrapped ←
    (wrapKey master purpose fileId generation draw.keyNonce draw.key).mapError FormatError.crypto
  let header := clearHeader magic fileId generation
  let payload ← payload
  let encrypted ← orFails .aead (Aead.encrypt draw.key draw.payloadNonce header payload)
  let output ← pushBytes (header ++ wrapped.nonce.1) wrapped.ciphertext
  pushBytes (output ++ draw.payloadNonce.1) encrypted

/-- File, generation and payload of an envelope. -/
def decodeEnvelope (magic purpose : Bytes) (master : Key) (bytes : Bytes) :
    Except FormatError (Uuid × UInt64 × Bytes) := do
  let (front, r) ← take .truncated 4 bytes
  if front ≠ magic then .error .badMagic else
  let (version, r) ← u16 .truncated r
  if version ≠ envelopeVersion then .error (.unsupportedVersion version) else
  let (fileId, r) ← array .truncated 16 r
  let (generation, r) ← u64 .truncated r
  let header := bytes.take (bytes.length - r.length)
  let (nonce, r) ← array .truncated 24 r
  let (ciphertext, r) ← readBytes r
  let (payloadNonce, r) ← array .truncated 24 r
  let (encrypted, r) ← readBytes r
  if r ≠ [] then .error .trailingBytes else
  let key ← (unwrapKey master purpose fileId generation ⟨nonce, ciphertext⟩).mapError
    FormatError.crypto
  let plaintext ← orFails .aead (Aead.decrypt key payloadNonce header encrypted)
  return (fileId, generation, plaintext)

def encodeManifest (master : Key) (draw : Draw) (fileId : Uuid) (generation : UInt64)
    (payload : ManifestPayload) : Except FormatError Bytes :=
  encodeEnvelope manifestMagic manifestKeyPurpose master draw fileId generation
    (encodePayload payload)

def decodeManifest (master : Key) (bytes : Bytes) : Except FormatError DecodedManifest := do
  let (fileId, generation, plaintext) ←
    decodeEnvelope manifestMagic manifestKeyPurpose master bytes
  let payload ← decodePayload plaintext
  return { fileId, generation, payload }

def encodeDeletionMarker (master : Key) (draw : Draw) (fileId : Uuid) (generation : UInt64)
    (deletedAt : Int64) : Except FormatError Bytes :=
  encodeEnvelope deletionMarkerMagic deletionMarkerKeyPurpose master draw fileId generation
    (.ok (i64ToLe deletedAt))

/-- Eight bytes, no more and no fewer. -/
def decodeDeletedAt (plaintext : Bytes) : Except FormatError Int64 :=
  if plaintext.length = 8 then .ok (UInt64.ofNat (fromLeBytes plaintext)).toInt64
  else .error .invalidDeletionPayload

def decodeDeletionMarker (master : Key) (bytes : Bytes) : Except FormatError DeletionMarker := do
  let (fileId, generation, plaintext) ←
    decodeEnvelope deletionMarkerMagic deletionMarkerKeyPurpose master bytes
  let deletedAt ← decodeDeletedAt plaintext
  return { fileId, generation, deletedAt }

/-! ## What was sealed is opened -/

section

variable {master : Key} {draw : Draw} {fileId : Uuid} {generation : UInt64}

/-- The parts of an envelope. -/
structure Sealed (magic purpose : Bytes) (master : Key) (draw : Draw) (fileId : Uuid)
    (generation : UInt64) (payload bytes : Bytes) where
  wrapped : WrappedKey
  encrypted : Bytes
  wraps : wrapKey master purpose fileId generation draw.keyNonce draw.key = .ok wrapped
  encrypts : Aead.encrypt draw.key draw.payloadNonce (clearHeader magic fileId generation) payload =
    some encrypted
  fits : encrypted.length ≤ maxFieldLen
  layout : bytes = clearHeader magic fileId generation ++ wrapped.nonce.1 ++
    fieldBytes wrapped.ciphertext ++ draw.payloadNonce.1 ++ fieldBytes encrypted

variable {magic purpose bytes : Bytes}

theorem encodeEnvelope_eq_ok {payload : Except FormatError Bytes} :
    encodeEnvelope magic purpose master draw fileId generation payload = .ok bytes ↔
      ∃ plain, payload = .ok plain ∧
        Nonempty (Sealed magic purpose master draw fileId generation plain bytes) := by
  unfold encodeEnvelope
  constructor
  · intro h
    obtain ⟨wrapped, hwraps, h₁⟩ := bind_eq_ok.1 h
    obtain ⟨plain, hplain, h₂⟩ := bind_eq_ok.1 h₁
    obtain ⟨encrypted, hencrypts, h₃⟩ := bind_eq_ok.1 h₂
    obtain ⟨output, hpush, h₄⟩ := bind_eq_ok.1 h₃
    obtain ⟨-, rfl⟩ := pushBytes_eq_ok.1 hpush
    obtain ⟨hfits, hlayout⟩ := pushBytes_eq_ok.1 h₄
    exact ⟨plain, hplain, ⟨⟨wrapped, encrypted, mapError_eq_ok.1 hwraps, orFails_eq_ok.1 hencrypts,
      hfits, hlayout.symm⟩⟩⟩
  · rintro ⟨plain, hplain, ⟨parts⟩⟩
    have hkey : parts.wrapped.ciphertext.length ≤ maxFieldLen := by
      rw [length_of_wrapKey parts.wraps]
      decide
    refine bind_eq_ok.2 ⟨parts.wrapped, mapError_eq_ok.2 parts.wraps, ?_⟩
    refine bind_eq_ok.2 ⟨plain, hplain, ?_⟩
    refine bind_eq_ok.2 ⟨parts.encrypted, orFails_eq_ok.2 parts.encrypts, ?_⟩
    refine bind_eq_ok.2 ⟨_, pushBytes_eq_ok.2 ⟨hkey, rfl⟩, ?_⟩
    exact pushBytes_eq_ok.2 ⟨parts.fits, parts.layout.symm⟩

/-- An envelope opens under the master key it was sealed with. -/
theorem decodeEnvelope_of_sealed {plain : Bytes} (hmagic : magic.length = 4)
    (parts : Sealed magic purpose master draw fileId generation plain bytes) :
    decodeEnvelope magic purpose master bytes = .ok (fileId, generation, plain) := by
  have hkey : parts.wrapped.ciphertext.length ≤ maxFieldLen := by
    rw [length_of_wrapKey parts.wraps]
    decide
  have hheader (rest : Bytes) : (clearHeader magic fileId generation ++ rest).take
      ((clearHeader magic fileId generation ++ rest).length - rest.length) =
      clearHeader magic fileId generation := by
    rw [List.length_append, Nat.add_sub_cancel, List.take_left]
  unfold decodeEnvelope
  rw [parts.layout]
  simp only [List.append_assoc]
  generalize hrest : parts.wrapped.nonce.1 ++ _ = rest
  have hopen := hheader rest
  unfold clearHeader at hopen ⊢
  simp only [List.append_assoc] at hopen ⊢
  refine (inverts_take _ 4).bind_eq_ok.2 ⟨_, _, ⟨hmagic, rfl⟩, guard_eq_ok.2 ⟨fun h => h rfl, ?_⟩⟩
  refine (inverts_u16 _).bind_eq_ok.2 ⟨_, _, ⟨trivial, rfl⟩, guard_eq_ok.2 ⟨fun h => h rfl, ?_⟩⟩
  refine (inverts_array _ 16).bind_eq_ok.2 ⟨_, _, ⟨trivial, rfl⟩, ?_⟩
  refine (inverts_u64 _).bind_eq_ok.2 ⟨_, rest, ⟨trivial, rfl⟩, ?_⟩
  dsimp only [id]
  rw [hopen]
  rw [← hrest]
  refine (inverts_array _ 24).bind_eq_ok.2 ⟨_, _, ⟨trivial, rfl⟩, ?_⟩
  refine inverts_readBytes.bind_eq_ok.2 ⟨_, _, ⟨hkey, rfl⟩, ?_⟩
  refine (inverts_array _ 24).bind_eq_ok.2 ⟨_, _, ⟨trivial, rfl⟩, ?_⟩
  refine inverts_readBytes.bind_eq_ok.2 ⟨_, [], ⟨parts.fits, (List.append_nil _).symm⟩, ?_⟩
  refine guard_eq_ok.2 ⟨fun h => h rfl, ?_⟩
  refine bind_eq_ok.2 ⟨draw.key, mapError_eq_ok.2 (unwrapKey_of_wrapKey parts.wraps), ?_⟩
  refine bind_eq_ok.2 ⟨plain, orFails_eq_ok.2 ?_, rfl⟩
  simpa [clearHeader] using Aead.decrypt_of_encrypt parts.encrypts

/-- The envelope adds 150 bytes to its payload. -/
theorem Sealed.length_eq {plain : Bytes} (hmagic : magic.length = 4)
    (parts : Sealed magic purpose master draw fileId generation plain bytes) :
    bytes.length = plain.length + 150 ∧ plain.length + 16 ≤ maxFieldLen := by
  have hencrypted := Aead.length_of_encrypt parts.encrypts
  have hwrapped := length_of_wrapKey parts.wraps
  have hfits := parts.fits
  refine ⟨?_, hencrypted ▸ hfits⟩
  rw [parts.layout]
  unfold clearHeader u16ToLe
  simp only [List.length_append, length_fieldBytes, length_u64ToLe, length_toLeBytes, hmagic, fileId.2,
    parts.wrapped.nonce.2, draw.payloadNonce.2, hwrapped, hencrypted]
  omega

/-- Every manifest that is encoded of chunks in order is decoded to what it was made of. -/
theorem decodeManifest_of_encodeManifest {payload : ManifestPayload} (hordered : payload.Ordered)
    (h : encodeManifest master draw fileId generation payload = .ok bytes) :
    decodeManifest master bytes = .ok { fileId, generation, payload } := by
  obtain ⟨plain, hplain, ⟨parts⟩⟩ := encodeEnvelope_eq_ok.1 h
  -- A chunk takes 68 bytes of a payload that fits one field.
  have hmany : payload.chunks.length ≤ maxFieldLen / 64 := by
    obtain ⟨-, hfits⟩ := parts.length_eq rfl
    obtain ⟨-, rfl⟩ := encodePayload_eq_ok.1 hplain
    rw [payload.length_bytes] at hfits
    unfold maxFieldLen at hfits ⊢
    omega
  refine bind_eq_ok.2 ⟨_, decodeEnvelope_of_sealed rfl parts, ?_⟩
  exact bind_eq_ok.2 ⟨payload, decodePayload_eq_ok.2 ⟨hordered, hmany, hplain⟩, rfl⟩

omit [Aead] in
theorem decodeDeletedAt_eq_ok {plain : Bytes} {deletedAt : Int64} :
    decodeDeletedAt plain = .ok deletedAt ↔ plain = i64ToLe deletedAt := by
  have hread := inverts_i64 FormatError.truncated plain deletedAt []
  rw [List.append_nil, true_and] at hread
  rw [← hread]
  unfold decodeDeletedAt i64 u64 convert take takeBytes
  by_cases hlen : plain.length = 8
  · simp [hlen, List.take_of_length_le, List.drop_of_length_le]
  · rw [if_neg hlen]
    by_cases hshort : plain.length < 8
    · simp [hshort]
    · simp [hshort]
      omega

theorem decodeDeletionMarker_of_encodeDeletionMarker {deletedAt : Int64}
    (h : encodeDeletionMarker master draw fileId generation deletedAt = .ok bytes) :
    decodeDeletionMarker master bytes = .ok { fileId, generation, deletedAt } := by
  obtain ⟨plain, hplain, ⟨parts⟩⟩ := encodeEnvelope_eq_ok.1 h
  refine bind_eq_ok.2 ⟨_, decodeEnvelope_of_sealed rfl parts, ?_⟩
  exact bind_eq_ok.2 ⟨deletedAt, decodeDeletedAt_eq_ok.2 (Except.ok.inj hplain).symm, rfl⟩

/-- The length of a manifest is that of its name, its wrapped key and the number of its chunks. -/
theorem length_of_encodeManifest {payload : ManifestPayload}
    (h : encodeManifest master draw fileId generation payload = .ok bytes) : bytes.length =
      (utf8Bytes payload.name).length + payload.contentKey.ciphertext.length +
        68 * payload.chunks.length + 226 := by
  obtain ⟨plain, hplain, ⟨parts⟩⟩ := encodeEnvelope_eq_ok.1 h
  obtain ⟨-, rfl⟩ := encodePayload_eq_ok.1 hplain
  rw [(parts.length_eq rfl).1, payload.length_bytes]

end

end

end Format

end DistrHnsw
