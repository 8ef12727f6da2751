import DistrHnsw.Lib.Bytes

/-!
# CRC-32C and BLAKE3

The two digests of the file formats, as their specifications define them.  No proof looks inside:
the formats take the digests as a parameter and these are the functions it stands for.
-/

namespace DistrHnsw

namespace Crc32c

/-- One bit of the reflected Castagnoli polynomial. -/
def shift (crc : UInt32) : UInt32 :=
  if crc &&& 1 = 1 then (crc >>> 1) ^^^ 0x82F63B78 else crc >>> 1

def step (crc : UInt32) (byte : UInt8) : UInt32 :=
  (List.range 8).foldl (fun crc _ => shift crc) (crc ^^^ byte.toUInt32)

def checksum (bytes : Bytes) : UInt32 := bytes.foldl step 0xFFFFFFFF ^^^ 0xFFFFFFFF

/-- The check value of the CRC catalogue. -/
example : checksum [0x31, 0x32, 0x33, 0x34, 0x35, 0x36, 0x37, 0x38, 0x39] = 0xE3069283 := by
  decide +kernel

end Crc32c

namespace Blake3

def iv : List UInt32 :=
  [0x6A09E667, 0xBB67AE85, 0x3C6EF372, 0xA54FF53A, 0x510E527F, 0x9B05688C, 0x1F83D9AB, 0x5BE0CD19]

def chunkStart : UInt32 := 1
def chunkEnd : UInt32 := 2
def parent : UInt32 := 4
def root : UInt32 := 8

def permutation : List ℕ := [2, 6, 3, 10, 7, 0, 4, 13, 1, 11, 12, 5, 9, 14, 15, 8]

def rotr (x : UInt32) (n : UInt32) : UInt32 := (x >>> n) ||| (x <<< (32 - n))

/-- The quarter round on four words of the state. -/
def mix (v : List UInt32) (a b c d : ℕ) (x y : UInt32) : List UInt32 :=
  let a0 := v.getD a 0 + v.getD b 0 + x
  let d0 := rotr (v.getD d 0 ^^^ a0) 16
  let c0 := v.getD c 0 + d0
  let b0 := rotr (v.getD b 0 ^^^ c0) 12
  let a1 := a0 + b0 + y
  let d1 := rotr (d0 ^^^ a1) 8
  let c1 := c0 + d1
  let b1 := rotr (b0 ^^^ c1) 7
  (((v.set a a1).set b b1).set c c1).set d d1

def round (v m : List UInt32) : List UInt32 :=
  [(0, 4, 8, 12), (1, 5, 9, 13), (2, 6, 10, 14), (3, 7, 11, 15),
    (0, 5, 10, 15), (1, 6, 11, 12), (2, 7, 8, 13), (3, 4, 9, 14)].zipIdx.foldl
    (fun v ((a, b, c, d), i) => mix v a b c d (m.getD (2 * i) 0) (m.getD (2 * i + 1) 0)) v

/-- The words of a 64-byte block, zero padded. -/
def words (block : Bytes) : List UInt32 :=
  (List.range 16).map fun i => UInt32.ofNat (fromLeBytes ((block.drop (4 * i)).take 4))

/-- The eight words a block compresses to. -/
def compress (cv : List UInt32) (block : List UInt32) (counter blockLen : ℕ) (flags : UInt32) :
    List UInt32 :=
  let v := cv ++ iv.take 4 ++
    [UInt32.ofNat counter, UInt32.ofNat (counter / 2 ^ 32), UInt32.ofNat blockLen, flags]
  let (v, _) := (List.range 7).foldl
    (fun (v, m) _ => (round v m, permutation.map fun i => m.getD i 0)) (v, block)
  List.zipWith (· ^^^ ·) (v.take 8) (v.drop 8)

/-- The blocks of a chunk, at least one. -/
def blocks (chunk : Bytes) : List Bytes :=
  (List.range (max 1 ((chunk.length + 63) / 64))).map fun i => (chunk.drop (64 * i)).take 64

/-- Chaining value of a chunk; `last` marks the root of the tree. -/
def chunkValue (chunk : Bytes) (counter : ℕ) (last : UInt32) : List UInt32 :=
  let bs := blocks chunk
  bs.zipIdx.foldl
    (fun cv (block, i) => compress cv (words block) counter block.length
      ((if i = 0 then chunkStart else 0) |||
        (if i + 1 = bs.length then chunkEnd ||| last else 0))) iv

/-- The left subtree of `n` chunks: the largest power of two below `n`. -/
def leftChunks (n : ℕ) : ℕ := 2 ^ Nat.log2 (n - 1)

/-- Chaining value of a subtree whose first chunk has number `counter`. -/
def treeValue : ℕ → Bytes → ℕ → UInt32 → List UInt32
  | 0, bytes, counter, last => chunkValue bytes counter last
  | depth + 1, bytes, counter, last =>
    if bytes.length ≤ 1024 then chunkValue bytes counter last
    else
      let left := leftChunks ((bytes.length + 1023) / 1024)
      compress iv
        (treeValue depth (bytes.take (1024 * left)) counter 0 ++
          treeValue depth (bytes.drop (1024 * left)) (counter + left) 0)
        0 64 (parent ||| last)

/-- The 32-byte digest. -/
def hash (bytes : Bytes) : Fixed 32 :=
  let digest := (treeValue 64 bytes 0 root).flatMap fun w => toLeBytes 4 w.toNat
  ⟨(digest ++ List.replicate 32 0).take 32, by simp⟩

/-- The digest of the empty string begins `af1349b9`. -/
example : (hash []).1.take 4 = [0xAF, 0x13, 0x49, 0xB9] := by decide +kernel

end Blake3

/-- The digests the formats rely on: a 32-bit checksum of a WAL body or snapshot header and a
32-byte digest of a snapshot section or file. -/
class Digests where
  crc32c : Bytes → UInt32
  blake3 : Bytes → Fixed 32

export Digests (crc32c blake3)

/-- The digests of the file formats. -/
abbrev Digests.standard : Digests := ⟨Crc32c.checksum, Blake3.hash⟩

/-- A 16-byte identifier. -/
abbrev Uuid := Fixed 16

/-- The identifier of the examples. -/
def sampleId : Uuid := ⟨List.replicate 16 7, rfl⟩

end DistrHnsw
