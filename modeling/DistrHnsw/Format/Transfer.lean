import DistrHnsw.Format.Envelope
import DistrHnsw.Lib.Program

/-!
# Sealing an upload and reading it back

A new upload plans the pieces of its source; attempts to transfer it seal them one by one, plan the
manifest, store every object and commit.  An attempt may stop anywhere, and a later one may read
another source: what it seals has to be what was planned.  `download` fetches the objects of a
committed file, and `evidence` is what recovery reads of an object.
-/

namespace DistrHnsw

namespace Format

open Metadata (ObjectKind)
open Trust (ObjectHash)
open Reader (utf8Bytes u32ToLe u64ToLe)

def chunkSize : ℕ := 4 * 1024 * 1024

def maxObjectBytes : ℕ := chunkSize + 1024 * 1024

def storageClass : String := "regular-rf2"

def contentKeyPurpose : Bytes := utf8Bytes "content"

inductive PortalError where
  | sourceChanged
  | idempotencyConflict
  | planConflict
  | missingManifest
  | manifestMismatch (what : String)
  | plaintextHashMismatch
  | tooManyChunks
  | numericOverflow
  | noValidReplica (kind : ObjectKind) (hash : ObjectHash)
  | crypto (error : CryptoError)
  | format (error : FormatError)
  deriving DecidableEq

/-- The hash of an object. -/
def digest [Digests] (bytes : Bytes) : ObjectHash :=
  ⟨Hex.encode (blake3 bytes).1, by rw [Hex.length_encode, (blake3 bytes).2], Hex.encode_digits _⟩

/-! ## Chunks -/

section

variable [Aead]

def chunkAad (fileId : Uuid) (ordinal plaintextLen : UInt32) : Bytes :=
  utf8Bytes "distr-hnsw:chunk:v1" ++ fileId.1 ++ u32ToLe ordinal ++ u32ToLe plaintextLen

def encryptChunk (key : Key) (version : UInt16) (fileId : Uuid) (ordinal plaintextLen : UInt32)
    (nonce : Nonce) (plaintext : Bytes) : Except CryptoError Bytes :=
  if plaintext.length ≠ plaintextLen.toNat then .error .plaintextLengthMismatch else
  if version ≠ envelopeVersion then .error (.unsupportedEnvelopeVersion version) else
  orFails .aead (Aead.encrypt key nonce (chunkAad fileId ordinal plaintextLen) plaintext)

def decryptChunk (key : Key) (version : UInt16) (fileId : Uuid) (ordinal plaintextLen : UInt32)
    (nonce : Nonce) (ciphertext : Bytes) : Except CryptoError Bytes :=
  if version ≠ envelopeVersion then .error (.unsupportedEnvelopeVersion version) else do
  let plaintext ←
    orFails .aead (Aead.decrypt key nonce (chunkAad fileId ordinal plaintextLen) ciphertext)
  if plaintext.length ≠ plaintextLen.toNat then .error .plaintextLengthMismatch else
  return plaintext

theorem decryptChunk_of_encryptChunk {key : Key} {version : UInt16} {fileId : Uuid}
    {ordinal plaintextLen : UInt32} {nonce : Nonce} {plaintext ciphertext : Bytes}
    (h : encryptChunk key version fileId ordinal plaintextLen nonce plaintext = .ok ciphertext) :
    decryptChunk key envelopeVersion fileId ordinal plaintextLen nonce ciphertext = .ok plaintext ∧
      plaintext.length = plaintextLen.toNat := by
  obtain ⟨hlen, h₁⟩ := guard_eq_ok.1 h
  obtain ⟨-, h₂⟩ := guard_eq_ok.1 h₁
  have hplain := Aead.decrypt_of_encrypt (orFails_eq_ok.1 h₂)
  refine ⟨guard_eq_ok.2 ⟨fun h => h rfl, ?_⟩, not_not.1 hlen⟩
  exact bind_eq_ok.2 ⟨plaintext, orFails_eq_ok.2 hplain, guard_eq_ok.2 ⟨hlen, rfl⟩⟩

end

/-! ## The source -/

structure Source where
  name : String
  content : Bytes
  deriving DecidableEq

/-- The pieces of a source; at most as many as it has bytes. -/
def piecesOf : ℕ → Bytes → List Bytes
  | 0, _ => []
  | _ + 1, [] => []
  | fuel + 1, content => content.take chunkSize :: piecesOf fuel (content.drop chunkSize)

def Source.pieces (source : Source) : List Bytes := piecesOf source.content.length source.content

theorem flatten_piecesOf {fuel : ℕ} {content : Bytes} (h : content.length ≤ fuel) :
    (piecesOf fuel content).flatten = content := by
  induction fuel generalizing content with
  | zero =>
    rw [List.length_eq_zero_iff.1 (Nat.le_zero.1 h)]
    rfl
  | succ fuel ih =>
    cases content with
    | nil => rfl
    | cons byte content =>
      have hrest : ((byte :: content).drop chunkSize).length ≤ fuel := by
        rw [List.length_drop, List.length_cons]
        rw [List.length_cons] at h
        unfold chunkSize
        omega
      unfold piecesOf
      rw [List.flatten_cons, ih hrest, List.take_append_drop]

theorem length_le_of_mem_piecesOf {fuel : ℕ} {content piece : Bytes}
    (h : piece ∈ piecesOf fuel content) : piece.length ≤ chunkSize := by
  fun_induction piecesOf fuel content with
  | case1 => cases h
  | case2 => cases h
  | case3 fuel content _ ih =>
    rcases List.mem_cons.1 h with rfl | h
    · exact List.length_take_le _ _
    · exact ih h

theorem Source.flatten_pieces (source : Source) : source.pieces.flatten = source.content :=
  flatten_piecesOf le_rfl

structure InspectedChunk where
  plaintextLen : UInt32
  plaintextHash : Fixed 32
  deriving DecidableEq

structure SourceInspection where
  name : String
  plaintextSize : UInt64
  plaintextHash : Fixed 32
  chunks : List InspectedChunk
  deriving DecidableEq

section

variable [Digests]

def inspectPiece (piece : Bytes) : InspectedChunk := ⟨UInt32.ofNat piece.length, blake3 piece⟩

def inspectSource (source : Source) : Except PortalError SourceInspection :=
  if source.content.length < 2 ^ 64 then
    .ok {
      name := source.name
      plaintextSize := UInt64.ofNat source.content.length
      plaintextHash := blake3 source.content
      chunks := source.pieces.map inspectPiece }
  else .error .numericOverflow

def requestFingerprint (inspection : SourceInspection) : Fixed 32 :=
  blake3 (utf8Bytes "distr-hnsw:idempotency:v1" ++ inspection.plaintextHash.1 ++
    u64ToLe inspection.plaintextSize ++
    u64ToLe (UInt64.ofNat (utf8Bytes inspection.name).length) ++ utf8Bytes inspection.name ++
    u64ToLe (UInt64.ofNat (utf8Bytes storageClass).length) ++ utf8Bytes storageClass)

end

/-! ## Plans -/

structure NewChunk where
  ordinal : UInt32
  envelopeVersion : UInt16
  plaintextLen : UInt32
  plaintextHash : Fixed 32
  nonce : Nonce
  deriving DecidableEq

structure NewUpload where
  requestFingerprint : Fixed 32
  fileId : Uuid
  generation : UInt64
  fileName : String
  plaintextHash : Fixed 32
  plaintextSize : UInt64
  contentKey : WrappedKey
  chunks : List NewChunk
  deriving DecidableEq

/-- What is drawn for an upload. -/
structure UploadDraw where
  fileId : Uuid
  contentKey : Key
  contentNonce : Nonce
  standIn : Draw
  nonce : ℕ → Nonce

def NewChunk.record (chunk : NewChunk) (object : ObjectHash × UInt32) : ChunkRecord :=
  ⟨chunk.ordinal, chunk.plaintextLen, chunk.nonce, object.1, object.2⟩

def NewUpload.payload (plan : NewUpload) (records : List ChunkRecord) : ManifestPayload where
  name := plan.fileName
  plaintextLen := plan.plaintextSize
  plaintextHash := plan.plaintextHash
  contentKey := plan.contentKey
  chunks := records

section

variable [Digests] [Aead]

/-- A chunk of the stand-in manifest. -/
def standInChunk (ordinal : ℕ) : ChunkRecord :=
  ⟨UInt32.ofNat ordinal, 0, default, digest [], 0⟩

/-- The plan of an upload, unless its finished manifest could not be stored. -/
def newUpload (master : Key) (draw : UploadDraw) (inspection : SourceInspection) :
    Except PortalError NewUpload := do
  let contentKey ← (wrapKey master contentKeyPurpose draw.fileId 1 draw.contentNonce
    draw.contentKey).mapError PortalError.crypto
  if 2 ^ 32 ≤ inspection.chunks.length then .error .tooManyChunks else do
  let plan : NewUpload := {
    requestFingerprint := requestFingerprint inspection
    fileId := draw.fileId
    generation := 1
    fileName := inspection.name
    plaintextHash := inspection.plaintextHash
    plaintextSize := inspection.plaintextSize
    contentKey
    chunks := inspection.chunks.zipIdx.map fun (chunk, ordinal) =>
      ⟨UInt32.ofNat ordinal, envelopeVersion, chunk.plaintextLen, chunk.plaintextHash,
        draw.nonce ordinal⟩ }
  let standIn ← (encodeManifest master draw.standIn draw.fileId 1
    (plan.payload ((List.range inspection.chunks.length).map standInChunk))).mapError
      PortalError.format
  if maxObjectBytes < standIn.length then .error .tooManyChunks else
  return plan

end

/-! ## Transfers -/

/-- An object under its name. -/
abbrev StoredObject := ObjectKind × ObjectHash × Bytes

/-- The row of an upload with those of its chunks, and every object that was stored for it. -/
structure Upload where
  plan : NewUpload
  chunkObject : UInt32 → Option (ObjectHash × UInt32)
  manifest : Option (ObjectHash × Bytes)
  committed : Bool
  objects : List StoredObject

def NewUpload.row (plan : NewUpload) : Upload := ⟨plan, fun _ => none, none, false, []⟩

inductive UploadWrite where
  | setChunkObject (ordinal : UInt32) (hash : ObjectHash) (ciphertextLen : UInt32)
  | setManifestPlan (hash : ObjectHash) (bytes : Bytes)
  | put (object : StoredObject)
  | commitFile
  deriving DecidableEq

def Upload.perform (upload : Upload) : UploadWrite → Except PortalError Upload
  | .setChunkObject ordinal hash ciphertextLen => match upload.chunkObject ordinal with
    | some existing =>
      if existing ≠ (hash, ciphertextLen) then .error .planConflict else .ok upload
    | none => .ok { upload with
        chunkObject := Function.update upload.chunkObject ordinal (some (hash, ciphertextLen)) }
  | .setManifestPlan hash bytes => match upload.manifest with
    | some existing => if existing ≠ (hash, bytes) then .error .planConflict else .ok upload
    | none => .ok { upload with manifest := some (hash, bytes) }
  | .put object => .ok { upload with objects := object :: upload.objects }
  | .commitFile => match upload.manifest with
    | some _ => .ok { upload with committed := true }
    | none => .error .missingManifest

/-- The manifest's key and nonces are drawn. -/
abbrev uploadWorld : World where
  Store := Upload
  Write := UploadWrite
  Error := PortalError
  Query := Unit
  Answer := fun _ => Draw
  perform := fun write upload => upload.perform write

section

variable [Digests] [Aead]

open Program

def write (w : UploadWrite) : Program uploadWorld Unit := perform (W := uploadWorld) w

/-- Seal and store the chunks from what is left of the source. -/
def sendChunks (key : Key) (fileId : Uuid) :
    List NewChunk → Bytes → Program uploadWorld (List ChunkRecord)
  | [], rest => if rest ≠ [] then stop else pure []
  | plan :: plans, content => do
    let (plaintext, rest) ← require (takeBytes plan.plaintextLen.toNat content)
    if blake3 plaintext ≠ plan.plaintextHash then stop else do
    let ciphertext ← require (encryptChunk key plan.envelopeVersion fileId plan.ordinal
      plan.plaintextLen plan.nonce plaintext).toOption
    let ciphertextLen ← require (tryU32 ciphertext.length).toOption
    write (.setChunkObject plan.ordinal (digest ciphertext) ciphertextLen)
    write (.put (.chunk, digest ciphertext, ciphertext))
    let records ← sendChunks key fileId plans rest
    return plan.record (digest ciphertext, ciphertextLen) :: records

/-- The manifest of the upload: the planned one, else a newly sealed one. -/
def planManifest (master : Key) (upload : Upload) (records : List ChunkRecord) :
    Program uploadWorld (ObjectHash × Bytes) :=
  match upload.manifest with
  | some planned => pure planned
  | none => do
    let draw : Draw ← query (W := uploadWorld) ()
    let bytes ← require (encodeManifest master draw upload.plan.fileId upload.plan.generation
      (upload.plan.payload records)).toOption
    write (.setManifestPlan (digest bytes) bytes)
    return (digest bytes, bytes)

/-- Everything an upload does once it is planned. -/
def transfer (master : Key) (upload : Upload) (content : Bytes) : Program uploadWorld Unit := do
  let key ← require (unwrapKey master contentKeyPurpose upload.plan.fileId upload.plan.generation
    upload.plan.contentKey).toOption
  let records ← sendChunks key upload.plan.fileId upload.plan.chunks content
  let (hash, bytes) ← planManifest master upload records
  write (.put (.manifest, hash, bytes))
  write .commitFile

/-- An attempt at a planned upload, by a process that inspects the source and then reads it again. -/
def attempt (master : Key) (source : Source) (content : Bytes) : Program uploadWorld Unit := do
  let upload ← get
  let inspection ← require (inspectSource source).toOption
  if upload.plan.requestFingerprint ≠ requestFingerprint inspection then stop else
  if upload.committed then pure () else transfer master upload content

end

/-! ## Reading back -/

structure FileRecord where
  fileId : Uuid
  generation : UInt64
  name : String
  plaintextHash : Fixed 32
  plaintextSize : UInt64
  manifestHash : ObjectHash
  deriving DecidableEq

/-- What recovery learns from an object. -/
inductive Evidence where
  | manifest (decoded : DecodedManifest)
  | deletion (decoded : DeletionMarker)
  deriving DecidableEq

/-- The bytes under a name, from an agent that has them. -/
abbrev Fetch := ObjectKind → ObjectHash → Option Bytes

/-- The file of a committed upload. -/
def Upload.file (upload : Upload) : Option FileRecord :=
  match upload.committed, upload.manifest with
  | true, some (manifestHash, _) => some {
      fileId := upload.plan.fileId
      generation := upload.plan.generation
      name := upload.plan.fileName
      plaintextHash := upload.plan.plaintextHash
      plaintextSize := upload.plan.plaintextSize
      manifestHash }
  | _, _ => none

def fetchValidObject (fetch : Fetch) (kind : ObjectKind) (hash : ObjectHash) :
    Except PortalError Bytes :=
  orFails (.noValidReplica kind hash) (fetch kind hash)

def validateManifestFile (manifest : DecodedManifest) (file : FileRecord) : Except PortalError Unit :=
  if manifest.fileId ≠ file.fileId ∨ manifest.generation ≠ file.generation ∨
      manifest.payload.name ≠ file.name ∨ manifest.payload.plaintextHash ≠ file.plaintextHash ∨
      manifest.payload.plaintextLen ≠ file.plaintextSize then
    .error (.manifestMismatch "file metadata")
  else .ok ()

section

variable [Digests] [Aead]

/-- One chunk onto what is written, and the count of bytes. -/
def downloadChunk (fetch : Fetch) (key : Key) (fileId : Uuid) (state : Bytes × UInt64)
    (chunk : ChunkRecord) : Except PortalError (Bytes × UInt64) := do
  let ciphertext ← fetchValidObject fetch .chunk chunk.ciphertextHash
  if ciphertext.length ≠ chunk.ciphertextLen.toNat then
    .error (.manifestMismatch "ciphertext length") else do
  let plaintext ← (decryptChunk key envelopeVersion fileId chunk.ordinal chunk.plaintextLen
    chunk.nonce ciphertext).mapError PortalError.crypto
  if 2 ^ 64 ≤ state.2.toNat + plaintext.length then .error .numericOverflow else
  return (state.1 ++ plaintext, state.2 + UInt64.ofNat plaintext.length)

/-- The content of a file. -/
def download (master : Key) (fetch : Fetch) (file : FileRecord) : Except PortalError Bytes := do
  let manifestBytes ← fetchValidObject fetch .manifest file.manifestHash
  let manifest ← (decodeManifest master manifestBytes).mapError PortalError.format
  validateManifestFile manifest file
  let key ← (unwrapKey master contentKeyPurpose manifest.fileId manifest.generation
    manifest.payload.contentKey).mapError PortalError.crypto
  let (output, total) ←
    manifest.payload.chunks.foldlM (downloadChunk fetch key manifest.fileId) ([], 0)
  if total ≠ manifest.payload.plaintextLen ∨ blake3 output ≠ manifest.payload.plaintextHash then
    .error .plaintextHashMismatch
  else return output

/-- What recovery makes of an object's bytes. -/
def evidence (master : Key) (kind : ObjectKind) (bytes : Bytes) :
    Except FormatError (Option Evidence) :=
  match kind with
  | .manifest => do
    let manifest ← decodeManifest master bytes
    return some (.manifest manifest)
  | .deletionMarker => do
    let marker ← decodeDeletionMarker master bytes
    return some (.deletion marker)
  | .chunk => .ok none

end

end Format

end DistrHnsw
