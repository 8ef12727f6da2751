import DistrHnsw.Lib.Bytes

/-!
# Authenticated encryption

A cipher with associated data: what it seals under a key, a nonce and the associated data it opens
under the same three, and the sealed text is 16 bytes longer.  `xChaCha20Poly1305` is such a cipher,
as its specification defines it.
-/

namespace DistrHnsw

/-- A cipher that opens what it sealed. -/
class Aead where
  encrypt : Fixed 32 → Fixed 24 → Bytes → Bytes → Option Bytes
  decrypt : Fixed 32 → Fixed 24 → Bytes → Bytes → Option Bytes
  decrypt_of_encrypt : ∀ {key nonce aad msg ciphertext},
    encrypt key nonce aad msg = some ciphertext → decrypt key nonce aad ciphertext = some msg
  length_of_encrypt : ∀ {key nonce aad msg ciphertext},
    encrypt key nonce aad msg = some ciphertext → ciphertext.length = msg.length + 16

/-! ## ChaCha20 -/

namespace ChaCha20

/-- Words are numbers below `2 ^ 32`. -/
def constants : List ℕ := [0x61707865, 0x3320646e, 0x79622d32, 0x6b206574]

def add (x y : ℕ) : ℕ := (x + y) % 2 ^ 32

def rotl (x n : ℕ) : ℕ := x * 2 ^ n % 2 ^ 32 + x / 2 ^ (32 - n)

/-- The quarter round on four words of the state. -/
def quarter (v : List ℕ) (a b c d : ℕ) : List ℕ :=
  let a0 := add (v.getD a 0) (v.getD b 0)
  let d0 := rotl (v.getD d 0 ^^^ a0) 16
  let c0 := add (v.getD c 0) d0
  let b0 := rotl (v.getD b 0 ^^^ c0) 12
  let a1 := add a0 b0
  let d1 := rotl (d0 ^^^ a1) 8
  let c1 := add c0 d1
  let b1 := rotl (b0 ^^^ c1) 7
  (((v.set a a1).set b b1).set c c1).set d d1

/-- A column round and a diagonal round. -/
def doubleRound (v : List ℕ) : List ℕ :=
  [(0, 4, 8, 12), (1, 5, 9, 13), (2, 6, 10, 14), (3, 7, 11, 15),
    (0, 5, 10, 15), (1, 6, 11, 12), (2, 7, 8, 13), (3, 4, 9, 14)].foldl
    (fun v (a, b, c, d) => quarter v a b c d) v

def rounds (v : List ℕ) : List ℕ :=
  (List.range 10).foldl (fun v _ => doubleRound v) v

/-- The first `n` words of a byte string. -/
def words (n : ℕ) (bytes : Bytes) : List ℕ :=
  (List.range n).map fun i => fromLeBytes ((bytes.drop (4 * i)).take 4)

def wordBytes (v : List ℕ) : Bytes := v.flatMap (toLeBytes 4)

/-- Key, block counter and nonce of 12 bytes. -/
def initial (key : Bytes) (counter : ℕ) (nonce : Bytes) : List ℕ :=
  constants ++ words 8 key ++ counter % 2 ^ 32 :: words 3 nonce

/-- The 64 bytes of a block. -/
def block (key : Bytes) (counter : ℕ) (nonce : Bytes) : Bytes :=
  let v := initial key counter nonce
  wordBytes (List.zipWith add (rounds v) v)

/-- The key that a key and the first 16 bytes of an extended nonce make. -/
def subkey (key nonce : Bytes) : Bytes :=
  let v := rounds (constants ++ words 8 key ++ words 4 nonce)
  wordBytes (v.take 4 ++ v.drop 12)

/-- At least `n` bytes of the stream, from block 1. -/
def stream (key nonce : Bytes) (n : ℕ) : Bytes :=
  (List.range ((n + 63) / 64)).flatMap fun i => block key (i + 1) nonce

def apply (key nonce msg : Bytes) : Bytes :=
  List.zipWith (· ^^^ ·) msg (stream key nonce msg.length)

/-- The subkey of the extended nonce's draft begins `82413b42`. -/
example : (subkey ((List.range 32).map UInt8.ofNat)
    [0, 0, 0, 9, 0, 0, 0, 0x4a, 0, 0, 0, 0, 0x31, 0x41, 0x59, 0x27]).take 4 =
    [0x82, 0x41, 0x3b, 0x42] := by decide +kernel

@[simp] theorem length_quarter (v : List ℕ) (a b c d : ℕ) :
    (quarter v a b c d).length = v.length := by simp [quarter]

theorem length_foldl {α : Type} {f : List ℕ → α → List ℕ}
    (hf : ∀ v a, (f v a).length = v.length) (l : List α) (v : List ℕ) :
    (l.foldl f v).length = v.length := by
  induction l generalizing v with
  | nil => rfl
  | cons a l ih => exact (ih (f v a)).trans (hf v a)

theorem length_rounds (v : List ℕ) : (rounds v).length = v.length := by
  refine length_foldl (fun v _ => ?_) _ v
  exact length_foldl (fun v _ => length_quarter v _ _ _ _) _ v

theorem length_wordBytes (v : List ℕ) : (wordBytes v).length = 4 * v.length := by
  induction v with
  | nil => rfl
  | cons w v ih =>
    unfold wordBytes at ih ⊢
    rw [List.flatMap_cons, List.length_append, length_toLeBytes, ih, List.length_cons]
    omega

theorem length_block (key : Bytes) (counter : ℕ) (nonce : Bytes) :
    (block key counter nonce).length = 64 := by
  have hinitial : (initial key counter nonce).length = 16 := by simp [initial, words, constants]
  unfold block
  simp only [length_wordBytes, List.length_zipWith, length_rounds, hinitial]
  omega

theorem le_length_stream (key nonce : Bytes) (n : ℕ) : n ≤ (stream key nonce n).length := by
  have hlen : (stream key nonce n).length = 64 * ((n + 63) / 64) := by
    unfold stream
    induction (n + 63) / 64 with
    | zero => rfl
    | succ k ih =>
      rw [List.range_succ, List.flatMap_append, List.length_append, ih, List.flatMap_singleton,
        length_block]
      omega
  omega

theorem zipWith_xor_twice : ∀ {msg stream : Bytes}, msg.length ≤ stream.length →
    List.zipWith (· ^^^ ·) (List.zipWith (· ^^^ ·) msg stream) stream = msg
  | [], _, _ => by simp
  | byte :: msg, [], h => by simp at h
  | byte :: msg, pad :: stream, h => by
    simp only [List.length_cons, Nat.add_le_add_iff_right] at h
    rw [List.zipWith_cons_cons, List.zipWith_cons_cons, zipWith_xor_twice h, UInt8.xor_assoc,
      UInt8.xor_self, UInt8.xor_zero]

@[simp] theorem length_apply (key nonce msg : Bytes) : (apply key nonce msg).length = msg.length := by
  have := le_length_stream key nonce msg.length
  unfold apply
  rw [List.length_zipWith]
  omega

/-- The stream takes itself off. -/
theorem apply_apply (key nonce msg : Bytes) : apply key nonce (apply key nonce msg) = msg := by
  show List.zipWith _ (apply key nonce msg) (stream key nonce (apply key nonce msg).length) = msg
  rw [length_apply]
  exact zipWith_xor_twice (le_length_stream key nonce msg.length)

end ChaCha20

/-! ## Poly1305 -/

namespace Poly1305

def prime : ℕ := 2 ^ 130 - 5

def clamp (r : ℕ) : ℕ := r &&& 0x0ffffffc0ffffffc0ffffffc0fffffff

def accumulate (r : ℕ) (msg : Bytes) : ℕ :=
  (List.range ((msg.length + 15) / 16)).foldl
    (fun acc i => (acc + fromLeBytes ((msg.drop (16 * i)).take 16 ++ [1])) * r % prime) 0

/-- The tag of a message under a key of 32 bytes. -/
def tag (key msg : Bytes) : Bytes :=
  toLeBytes 16 (accumulate (clamp (fromLeBytes (key.take 16))) msg + fromLeBytes (key.drop 16))

end Poly1305

/-! ## The cipher -/

namespace XChaCha20Poly1305

/-- Zeros up to a multiple of 16. -/
def padded (bytes : Bytes) : Bytes := bytes ++ List.replicate ((16 - bytes.length % 16) % 16) 0

/-- The text that is authenticated. -/
def authenticated (aad ciphertext : Bytes) : Bytes :=
  padded aad ++ padded ciphertext ++ toLeBytes 8 aad.length ++ toLeBytes 8 ciphertext.length

def tagOf (subkey nonce aad ciphertext : Bytes) : Bytes :=
  Poly1305.tag ((ChaCha20.block subkey 0 nonce).take 32) (authenticated aad ciphertext)

/-- The nonce of the stream under the subkey. -/
def shortNonce (nonce : Fixed 24) : Bytes := List.replicate 4 0 ++ nonce.1.drop 16

/-- The block counter has 32 bits. -/
def maxBlocks : ℕ := 2 ^ 32 - 1

def encrypt (key : Fixed 32) (nonce : Fixed 24) (aad msg : Bytes) : Option Bytes :=
  if maxBlocks ≤ msg.length / 64 then none else
  let subkey := ChaCha20.subkey key.1 nonce.1
  let ciphertext := ChaCha20.apply subkey (shortNonce nonce) msg
  some (ciphertext ++ tagOf subkey (shortNonce nonce) aad ciphertext)

def decrypt (key : Fixed 32) (nonce : Fixed 24) (aad sealed : Bytes) : Option Bytes :=
  if sealed.length < 16 then none else
  let ciphertext := sealed.take (sealed.length - 16)
  if maxBlocks ≤ ciphertext.length / 64 then none else
  let subkey := ChaCha20.subkey key.1 nonce.1
  if sealed.drop (sealed.length - 16) = tagOf subkey (shortNonce nonce) aad ciphertext then
    some (ChaCha20.apply subkey (shortNonce nonce) ciphertext)
  else none

theorem length_tagOf (subkey nonce aad ciphertext : Bytes) :
    (tagOf subkey nonce aad ciphertext).length = 16 := length_toLeBytes _ _

variable {key : Fixed 32} {nonce : Fixed 24} {aad msg sealed : Bytes}

theorem length_of_encrypt (h : encrypt key nonce aad msg = some sealed) :
    sealed.length = msg.length + 16 := by
  unfold encrypt at h
  split at h
  · cases h
  · cases h
    rw [List.length_append, ChaCha20.length_apply, length_tagOf]

theorem decrypt_of_encrypt (h : encrypt key nonce aad msg = some sealed) :
    decrypt key nonce aad sealed = some msg := by
  have hlen := length_of_encrypt h
  unfold encrypt at h
  split at h
  · cases h
  · next hblocks =>
    dsimp only at h
    have hbody := ChaCha20.length_apply (ChaCha20.subkey key.1 nonce.1) (shortNonce nonce) msg
    have hopen := ChaCha20.apply_apply (ChaCha20.subkey key.1 nonce.1) (shortNonce nonce) msg
    generalize ChaCha20.apply (ChaCha20.subkey key.1 nonce.1) (shortNonce nonce) msg = ciphertext
      at h hbody hopen
    have hfront : sealed.length - 16 = ciphertext.length := by omega
    unfold decrypt
    rw [if_neg (by omega), hfront, ← Option.some.inj h, List.take_left, List.drop_left]
    dsimp only
    rw [hbody, if_neg hblocks, if_pos rfl, hopen]

end XChaCha20Poly1305

/-- The cipher of the envelopes. -/
abbrev Aead.xChaCha20Poly1305 : Aead where
  encrypt := XChaCha20Poly1305.encrypt
  decrypt := XChaCha20Poly1305.decrypt
  decrypt_of_encrypt := XChaCha20Poly1305.decrypt_of_encrypt
  length_of_encrypt := XChaCha20Poly1305.length_of_encrypt

end DistrHnsw
