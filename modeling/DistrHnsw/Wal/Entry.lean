import DistrHnsw.Lib.Digest
import DistrHnsw.Lib.F32
import DistrHnsw.Lib.Result

/-!
# Write-ahead log entries

An entry is one operation with its sequence number and operation id.  `Entry.encode` checks the
field limits and produces the frame (length, CRC, body); `Entry.decode` reads a body back.  The
CRC is a parameter: every result below holds for any function of the bytes.
-/

namespace DistrHnsw

/-- A 16-byte operation id. -/
abbrev OpId := Fixed 16

namespace Wal

def maxKeyLen : ℕ := 512

def maxPayloadLen : ℕ := 64 * 1024

def maxDims : ℕ := 65536

/-- Smallest legal length field: crc, seq, op_id, op, key_len, and a 1-byte key. -/
def minFrameLen : ℕ := 4 + 8 + 16 + 1 + 2 + 1

/-- Largest legal length field: an upsert with the longest key, payload and vector. -/
def maxFrameLen : ℕ := 4 + 8 + 16 + 1 + 2 + maxKeyLen + 4 + maxPayloadLen + 4 + 4 * maxDims

inductive Operation where
  | upsert (key payload : Bytes) (vector : List F32)
  | delete (key : Bytes)
  deriving DecidableEq, Repr

structure Entry where
  seq : ℕ
  opId : OpId
  operation : Operation
  deriving DecidableEq, Repr

/-- Errors of the log.  A path is the number in the segment's name. -/
inductive WalError where
  | badHeader (path : ℕ) (what : String)
  | unsupportedVersion (version : ℕ)
  | wrongPartition (path : ℕ) (found expected : Uuid)
  | corrupt (path offset : ℕ) (reason : String)
  | sequenceGap (path expected found : ℕ)
  | malformed (what : String)
  | fieldTooLarge (what : String)
  | poisoned
  | io
  deriving DecidableEq, Repr

def checkKey (key : Bytes) : Except WalError Unit :=
  if key.length = 0 ∨ key.length > maxKeyLen then .error (.fieldTooLarge "key") else .ok ()

/-! ## Encoding -/

/-- The operation part of an entry body: code, key, and an upsert's payload and vector. -/
def Operation.body : Operation → Bytes
  | .upsert key payload vector =>
    [1] ++ toLeBytes 2 key.length ++ key ++ toLeBytes 4 payload.length ++ payload ++
      toLeBytes 4 vector.length ++ F32.manyToLe vector
  | .delete key => [2] ++ toLeBytes 2 key.length ++ key

/-- The bytes the CRC covers. -/
def Entry.body (e : Entry) : Bytes := toLeBytes 8 e.seq ++ e.opId.1 ++ e.operation.body

/-- The limits an entry has to meet before it touches the file. -/
def Operation.check : Operation → Except WalError Unit
  | .upsert key payload vector => do
    checkKey key
    if payload.length > maxPayloadLen then .error (.fieldTooLarge "payload")
    else if vector.length = 0 ∨ vector.length > maxDims then .error (.fieldTooLarge "vector")
    else .ok ()
  | .delete key => checkKey key

section Frame

variable [Digests]

/-- Length, CRC and body. -/
def frameOf (body : Bytes) : Bytes :=
  toLeBytes 4 (body.length + 4) ++ toLeBytes 4 (crc32c body).toNat ++ body

def Entry.encode (e : Entry) : Except WalError Bytes := do
  e.operation.check
  return frameOf e.body

end Frame

/-! ## Decoding -/

/-- Read `n` bytes of an entry body. -/
def take (n : ℕ) (reader : Bytes) : Except WalError (Bytes × Bytes) :=
  match takeBytes n reader with
  | some out => .ok out
  | none => .error (.malformed "truncated entry body")

/-- Read a little-endian word of `w` bytes. -/
def word (w : ℕ) (reader : Bytes) : Except WalError (ℕ × Bytes) := do
  let (bytes, reader) ← take w reader
  return (fromLeBytes bytes, reader)

/-- Read an identifier of 16 bytes. -/
def takeId (reader : Bytes) : Except WalError (OpId × Bytes) :=
  match h : takeBytes 16 reader with
  | some (id, rest) => .ok (⟨id, (takeBytes_eq_some h).2⟩, rest)
  | none => .error (.malformed "truncated entry body")

/-- The fields of an operation after its key, by operation code. -/
def decodeOperation (op : ℕ) (key : Bytes) (reader : Bytes) :
    Except WalError (Operation × Bytes) :=
  match op with
  | 1 => do
    let (payloadLen, reader) ← word 4 reader
    if payloadLen > maxPayloadLen then .error (.malformed "payload length") else do
    let (payload, reader) ← take payloadLen reader
    let (dims, reader) ← word 4 reader
    if dims = 0 ∨ dims > maxDims then .error (.malformed "vector length") else do
    let (raw, reader) ← take (dims * 4) reader
    return (.upsert key payload (F32.manyOfLe raw), reader)
  | 2 => .ok (.delete key, reader)
  | _ => .error (.malformed "operation code")

def Entry.decode (body : Bytes) : Except WalError Entry := do
  let (seq, reader) ← word 8 body
  let (opId, reader) ← takeId reader
  let (op, reader) ← word 1 reader
  let (keyLen, reader) ← word 2 reader
  let (key, reader) ← take keyLen reader
  checkKey key
  let (operation, reader) ← decodeOperation op key reader
  if reader.length ≠ 0 then .error (.malformed "trailing bytes in entry") else
  return ⟨seq, opId, operation⟩

/-! ## Well-formed entries -/

/-- The field limits of `Entry.encode`. -/
def Operation.Fits : Operation → Prop
  | .upsert key payload vector =>
    (0 < key.length ∧ key.length ≤ maxKeyLen) ∧ payload.length ≤ maxPayloadLen ∧
      0 < vector.length ∧ vector.length ≤ maxDims
  | .delete key => 0 < key.length ∧ key.length ≤ maxKeyLen

instance (o : Operation) : Decidable o.Fits := by
  cases o <;> unfold Operation.Fits <;> infer_instance

/-- An entry the writer accepts: a 64-bit sequence number and fields within the limits. -/
structure Entry.Valid (e : Entry) : Prop where
  seq_lt : e.seq < 2 ^ 64
  fits : e.operation.Fits

theorem checkKey_ok_iff (key : Bytes) :
    checkKey key = .ok () ↔ 0 < key.length ∧ key.length ≤ maxKeyLen := by
  simp only [checkKey, guard_eq_ok, and_true]
  omega

theorem Operation.check_ok_iff (o : Operation) : o.check = .ok () ↔ o.Fits := by
  cases o with
  | delete key => exact checkKey_ok_iff key
  | upsert key payload vector =>
    simp only [Operation.check, Operation.Fits, check_bind_eq_ok, checkKey_ok_iff, guard_eq_ok,
      and_true]
    omega

theorem Entry.encode_ok_iff [Digests] (e : Entry) (frame : Bytes) :
    e.encode = .ok frame ↔ e.operation.Fits ∧ frame = frameOf e.body := by
  rw [← Operation.check_ok_iff]
  unfold Entry.encode
  cases e.operation.check <;> simp [bind, Except.bind, pure, Except.pure, eq_comm]

/-! ## Decoding inverts encoding -/

theorem take_append {n : ℕ} {front : Bytes} (h : front.length = n) (rest : Bytes) :
    take n (front ++ rest) = .ok (front, rest) := by
  simp only [take, takeBytes_append_of_length h]

theorem word_append {w n : ℕ} (h : n < 256 ^ w) (rest : Bytes) :
    word w (toLeBytes w n ++ rest) = .ok (n, rest) := by
  simp only [word, take_append (length_toLeBytes w n), ok_bind, fromLeBytes_toLeBytes h,
    pure_eq_ok]

theorem takeId_append (id : OpId) (rest : Bytes) : takeId (id.1 ++ rest) = .ok (id, rest) := by
  have h := takeBytes_append_of_length id.2 rest
  unfold takeId
  split
  · rename_i id' rest' h'
    rw [h] at h'
    simp only [Option.some.injEq, Prod.mk.injEq] at h'
    exact congrArg Except.ok (Prod.ext (Subtype.ext h'.1.symm) h'.2.symm)
  · rename_i h'
    rw [h] at h'
    cases h'

/-- The operation code written in front of the key. -/
def Operation.code : Operation → ℕ
  | .upsert .. => 1
  | .delete _ => 2

def Operation.key : Operation → Bytes
  | .upsert key .. => key
  | .delete key => key

/-- What an operation writes behind its key. -/
def Operation.rest : Operation → Bytes
  | .upsert _ payload vector =>
    toLeBytes 4 payload.length ++ (payload ++ (toLeBytes 4 vector.length ++ F32.manyToLe vector))
  | .delete _ => []

theorem Operation.body_eq (o : Operation) :
    o.body = toLeBytes 1 o.code ++ (toLeBytes 2 o.key.length ++ (o.key ++ o.rest)) := by
  cases o <;> simp [Operation.body, Operation.code, Operation.key, Operation.rest, toLeBytes]

theorem Operation.Fits.key_fits {o : Operation} (h : o.Fits) :
    0 < o.key.length ∧ o.key.length ≤ maxKeyLen := by
  cases o with
  | upsert key payload vector => exact h.1
  | delete key => exact h

theorem decodeOperation_rest {o : Operation} (h : o.Fits) :
    decodeOperation o.code o.key o.rest = .ok (o, []) := by
  cases o with
  | delete key => rfl
  | upsert key payload vector =>
    obtain ⟨-, hp, hv, hv'⟩ := h
    have hp4 : payload.length < 256 ^ 4 := by unfold maxPayloadLen at hp; omega
    have hv4 : vector.length < 256 ^ 4 := by unfold maxDims at hv'; omega
    have hraw : (F32.manyToLe vector).length = vector.length * 4 := by simp; omega
    have hdims : ¬ (vector.length = 0 ∨ vector.length > maxDims) := by omega
    have htake : take (vector.length * 4) (F32.manyToLe vector) =
        .ok (F32.manyToLe vector, []) := by
      simpa using take_append hraw []
    simp only [Operation.code, Operation.rest, Operation.key, decodeOperation, word_append hp4,
      ok_bind, if_neg (Nat.not_lt.2 hp), take_append rfl, word_append hv4, if_neg hdims, htake,
      F32.manyOfLe_manyToLe, pure_eq_ok]

theorem Entry.decode_body {e : Entry} (h : e.Valid) : Entry.decode e.body = .ok e := by
  have hseq : e.seq < 256 ^ 8 := h.seq_lt
  have hcode : e.operation.code < 256 ^ 1 := by cases e.operation <;> simp [Operation.code]
  have hkey := h.fits.key_fits
  have hkey2 : e.operation.key.length < 256 ^ 2 := by
    have := hkey.2
    unfold maxKeyLen at this
    omega
  simp only [Entry.body, Operation.body_eq, Entry.decode, List.append_assoc, word_append hseq,
    takeId_append, word_append hcode, word_append hkey2, take_append rfl, ok_bind,
    (checkKey_ok_iff _).2 hkey, decodeOperation_rest h.fits, List.length_nil, ne_eq,
    not_true_eq_false, if_false, pure_eq_ok]

/-! ## Lengths -/

theorem Operation.length_body (o : Operation) :
    o.body.length = 3 + o.key.length + o.rest.length := by
  rw [Operation.body_eq]
  simp
  omega

theorem Operation.Fits.length_rest_le {o : Operation} (h : o.Fits) :
    o.rest.length ≤ 4 + maxPayloadLen + 4 + 4 * maxDims := by
  cases o with
  | delete key => simp [Operation.rest]
  | upsert key payload vector =>
    obtain ⟨-, hp, -, hv⟩ := h
    simp only [Operation.rest, List.length_append, length_toLeBytes, F32.length_manyToLe]
    omega

theorem Entry.length_body (e : Entry) :
    e.body.length = 27 + e.operation.key.length + e.operation.rest.length := by
  simp only [Entry.body, List.length_append, length_toLeBytes, e.opId.2, Operation.length_body]
  omega

/-- The length field of an accepted entry is legal. -/
theorem Operation.Fits.frame_len {e : Entry} (h : e.operation.Fits) :
    minFrameLen ≤ e.body.length + 4 ∧ e.body.length + 4 ≤ maxFrameLen := by
  have hk := h.key_fits
  have hr := h.length_rest_le
  rw [Entry.length_body]
  unfold minFrameLen maxFrameLen
  omega

end Wal

end DistrHnsw
