import DistrHnsw.Index.Accepted
import DistrHnsw.Lib.Faultless

/-!
# The arithmetic of loading

Loading a snapshot with every sum and product of its fields written out: `Explicit.load` is `load`
on a build that stops at a number past 64 bits.  As long as it does not stop, the two agree.
-/

namespace DistrHnsw

namespace Index

open Reader

/-- The process panics. -/
def SnapshotError.IsFault : SnapshotError → Prop
  | .fault _ => True
  | _ => False

namespace Explicit

/-! ## Sums and products -/

/-- A result that has to fit 64 bits. -/
def fit (message : String) (n : ℕ) : Except SnapshotError ℕ :=
  if n < 2 ^ 64 then .ok n else .error (.fault (.assertion message))

def add (a b : ℕ) : Except SnapshotError ℕ := fit "attempt to add with overflow" (a + b)

def mul (a b : ℕ) : Except SnapshotError ℕ := fit "attempt to multiply with overflow" (a * b)

/-- The product of two 64-bit numbers, when it is one. -/
def checkedMul (a b : ℕ) : Option ℕ := if a * b < 2 ^ 64 then some (a * b) else none

/-- The bytes from an offset on. -/
def sliceOf (bytes : Bytes) (offset len : ℕ) : Except SnapshotError Bytes := do
  let stop ← add offset len
  bytesAt bytes offset (stop - offset)

/-! ## The section table -/

section

variable [Digests]

def readEntry (bytes : Bytes) (tableOffset tableEnd footerAt i : ℕ) :
    Except SnapshotError SectionEntry := do
  let skipped ← mul i sectionEntryLen
  let start ← add tableOffset skipped
  let entry ← sliceOf bytes start sectionEntryLen
  let kind := fromLeBytes (entry.take 2)
  let offset := fromLeBytes ((entry.drop 4).take 8)
  let len := fromLeBytes ((entry.drop 12).take 8)
  if offset < tableEnd ∨ (checkedAdd offset len).all (· > footerAt) then
    .error (.malformed "section bounds")
  else return ⟨kind, offset, len, (entry.drop 20).take 32⟩

def readTable (bytes : Bytes) (header : Header) : Except SnapshotError (List SectionEntry) :=
  let footerAt := bytes.length - footerLen
  match (checkedMul header.sectionCount sectionEntryLen).bind (checkedAdd · header.tableOffset) with
  | none => .error (.malformed "section table")
  | some tableEnd =>
    if header.tableOffset < headerLen ∨ tableEnd > footerAt then .error (.malformed "section table")
    else (List.range header.sectionCount).mapM
      (readEntry bytes header.tableOffset tableEnd footerAt)

def checkSection (bytes : Bytes) (entry : SectionEntry) : Except SnapshotError Unit := do
  let content ← sliceOf bytes entry.offset entry.len
  if (blake3 content).1 ≠ entry.digest then .error (.sectionHash entry.kind) else .ok ()

end

def sectionBytes (bytes : Bytes) (sections : List SectionEntry) (kind : ℕ) :
    Except SnapshotError Bytes := do
  let entry ← findSection sections kind
  sliceOf bytes entry.offset entry.len

/-! ## Sections -/

/-- The fields of a slot record. -/
structure RecordFields where
  version : ℕ
  tombstone : Bool
  keyIndex : UInt32
  offset : ℕ
  len : ℕ

def recordFields : Reader SnapshotError RecordFields := fun c => do
  let (version, c) ← word (.malformed "slot version") 8 c
  let (flag, c) ← u8 (.malformed "tombstone") c
  let tombstone ← readTombstone flag
  let (keyIndex, c) ← u32 (.malformed "key index") c
  let (offset, c) ← word (.malformed "payload offset") 8 c
  let (len, c) ← word (.malformed "payload length") 4 c
  return (⟨version, tombstone, keyIndex, offset, len⟩, c)

def readRecord (payloads : Bytes) : Reader SnapshotError SlotRecord := fun c => do
  let (fields, c) ← recordFields c
  let stop ← add fields.offset fields.len
  match slice payloads fields.offset (stop - fields.offset) with
  | none => .error (.malformed "payload bounds")
  | some payload => return (⟨fields.version, fields.tombstone, fields.keyIndex, payload⟩, c)

/-- The bytes of the rows. -/
def rowsLen (slotCount dims : ℕ) : Except SnapshotError ℕ := do
  let values ← mul slotCount dims
  mul values 4

def mapRows (bytes : Bytes) (offset rows dims : ℕ) : Except SnapshotError FlatVectors :=
  match (checkedMul rows dims).bind (checkedMul · 4) with
  | none => .error (.malformed "f32 section alignment")
  | some size => do
    let stop ← add offset size
    if stop > bytes.length ∨ offset % 4 ≠ 0 then .error (.malformed "f32 section alignment")
    else if dims = 0 then .error (.malformed "dims")
    else do
      let size ← rowsLen rows dims
      let content ← sliceOf bytes offset size
      let mapped := mappedRows rows dims content
      if h : ∀ row ∈ mapped, row.length = dims then .ok (.fromMapped dims mapped h)
      else .error (.fault .bounds)

def readQuantized (slotCount dims : ℕ) (bytes : Bytes) : Except SnapshotError QuantizedVectors := do
  let ((scales, norms, codes)) ← readAll (fun c => do
    let (scales, c) ← many (readF32 "scale") slotCount c
    let (norms, c) ← many (readF32 "norm") slotCount c
    let size ← mul slotCount dims
    let (codes, c) ← take (.malformed "int8 codes") size c
    return ((scales, norms, codes.map UInt8.toInt8), c)) "int8 section trailing bytes" bytes
  match QuantizedVectors.fromParts dims codes scales norms with
  | none => .error (.malformed "int8 shape")
  | some quantized => return quantized

def readUpper (m : ℕ) (level : UInt8) : Reader SnapshotError (List UInt8 × List Slot) := fun c =>
  if level = 0 then .ok (([], []), c)
  else do
    let (lens, c) ← take (.malformed "upper lengths") level.toNat c
    let count ← mul level.toNat m
    let size ← mul count 4
    let (links, c) ← many (u32 (.malformed "upper links")) (size / 4) c
    return ((lens, links), c)

def readUppers (m : ℕ) : List UInt8 → Reader SnapshotError (List (List UInt8 × List Slot))
  | [], c => .ok ([], c)
  | level :: levels, c => do
    let (lists, c) ← readUpper m level c
    let (rest, c) ← readUppers m levels c
    return (lists :: rest, c)

def readGraph (slotCount : ℕ) : Reader SnapshotError (HnswParams × GraphParts) := fun c => do
  let (m, c) ← word (.malformed "m") 4 c
  let (m0, c) ← word (.malformed "m0") 4 c
  let (efConstruction, c) ← word (.malformed "ef_construction") 4 c
  let (seed, c) ← u64 (.malformed "seed") c
  if m = 0 ∨ m0 = 0 ∨ m > 255 ∨ m0 > 255 then .error (.malformed "graph parameters") else do
  let (entryRaw, c) ← u32 (.malformed "entry") c
  let (maxLevel, c) ← u8 (.malformed "max level") c
  let (tombstoneCount, c) ← word (.malformed "tombstone count") 8 c
  let (levels, c) ← take (.malformed "levels") slotCount c
  let (level0Len, c) ← take (.malformed "level0 lengths") slotCount c
  let count ← mul slotCount m0
  let size ← mul count 4
  let (level0, c) ← many (u32 (.malformed "level0 links")) (size / 4) c
  let size ← mul ((slotCount + 63) / 64) 8
  let (tombstones, c) ← many (u64 (.malformed "tombstone words")) (size / 8) c
  let (uppers, c) ← readUppers m levels c
  return ((⟨m, m0, efConstruction, seed⟩,
    { levels, level0, level0Len, tombstones, tombstoneCount, maxLevel
      upper := uppers.map Prod.snd
      upperLen := uppers.map Prod.fst
      entry := if entryRaw = noSlot then none else some entryRaw }), c)

/-! ## Structural checks -/

/-- The list of `len` links in the block of a list. -/
def checkLinks (slotCount width : ℕ) (tooLong outOfRange : String) (links : List Slot)
    (block : ℕ) (len : UInt8) : Except SnapshotError Unit :=
  if len.toNat > width then .error (.malformed tooLong)
  else do
    let start ← mul block width
    let stop ← add start len.toNat
    let list ← (range links start (stop - start)).mapError .fault
    if list.all fun n => decide (n.toNat < slotCount) then .ok () else .error (.malformed outOfRange)

def checkLevel0 (params : HnswParams) (slotCount : ℕ) (g : GraphParts) (slot : ℕ × UInt8) :
    Except SnapshotError Unit :=
  checkLinks slotCount params.m0 "level0 length" "neighbour out of range" g.level0 slot.1 slot.2

def checkUpper (params : HnswParams) (slotCount : ℕ) (g : GraphParts) (slot : ℕ) :
    Except SnapshotError Unit := do
  let level ← (index g.levels slot).mapError .fault
  if level.toNat > 31 then .error (.malformed "level") else do
  let lens ← (index g.upperLen slot).mapError .fault
  let links ← (index g.upper slot).mapError .fault
  (enumerate lens).forM fun (level, len) =>
    checkLinks slotCount params.m "upper length" "upper neighbour out of range" links level len

def validateStructure (params : HnswParams) (slotCount : ℕ) (keys : List (Bytes × Slot))
    (slots : List SlotRecord) (g : GraphParts) : Except SnapshotError Unit := do
  (enumerate g.level0Len).forM (checkLevel0 params slotCount g)
  (List.range slotCount).forM (checkUpper params slotCount g)
  checkEntry slotCount g
  (enumerate slots).forM (checkSlot keys.length g)
  if (slots.filter SlotRecord.tombstone).length ≠ g.tombstoneCount then
    .error (.malformed "tombstone count") else do
  (enumerate keys).forM (checkKeySlot slots)

/-! ## Loading -/

section

variable [Digests]

def load (bytes : Bytes) (expectedPartition : Uuid) : Except SnapshotError LoadedSnapshot := do
  let header ← readHeader bytes expectedPartition
  let footerAt := bytes.length - footerLen
  if (blake3 (bytes.take footerAt)).1 ≠ bytes.drop footerAt then .error .footerHash else do
  let sections ← readTable bytes header
  sections.forM (checkSection bytes)
  let keysSection ← sectionBytes bytes sections sectionKeys
  let keys ← readAll (many readKey header.keyCount) "keys section trailing bytes" keysSection
  let payloads ← sectionBytes bytes sections sectionPayloads
  let slotsSection ← sectionBytes bytes sections sectionSlots
  let slots ← readAll (many (readRecord payloads) header.slotCount) "slots section trailing bytes"
    slotsSection
  let f32 ← findSection sections sectionVectorsF32
  let size ← rowsLen header.slotCount header.dims
  if f32.len ≠ size then .error (.malformed "f32 section length") else do
  let vectors ← mapRows bytes f32.offset header.slotCount header.dims
  let i8Section ← sectionBytes bytes sections sectionVectorsI8
  let quantized ← readQuantized header.slotCount header.dims i8Section
  let graphSection ← sectionBytes bytes sections sectionGraph
  let (params, graph) ← readAll (readGraph header.slotCount) "graph section trailing bytes"
    graphSection
  validateStructure params header.slotCount keys slots graph
  let idempotencySection ← sectionBytes bytes sections sectionIdempotency
  let idempotency ← readAll (many readIdempotent header.idemCount)
    "idempotency section trailing bytes" idempotencySection
  return {
    partitionId := header.partitionId
    dims := header.dims
    metric := header.metric
    params, keys, slots, vectors, quantized, graph, idempotency
    highWater := header.highWater
    fileBytes := bytes.length }

def mapVectors (bytes : Bytes) (expectedPartition : Uuid) (dims slotCount : ℕ) :
    Except SnapshotError FlatVectors := do
  let header ← readHeader bytes expectedPartition
  if header.dims ≠ dims ∨ header.slotCount ≠ slotCount then .error (.malformed "snapshot shape")
  else do
  let sections ← readTable bytes header
  let f32 ← findSection sections sectionVectorsF32
  let size ← rowsLen slotCount dims
  if f32.len ≠ size then .error (.malformed "f32 section length") else do
  let content ← sliceOf bytes f32.offset f32.len
  if (blake3 content).1 ≠ f32.digest then .error (.sectionHash sectionVectorsF32) else
  mapRows bytes f32.offset slotCount dims

end

end Explicit

end Index

end DistrHnsw
