import DistrHnsw.Index.Hnsw
import DistrHnsw.Lib.Reader
import DistrHnsw.Wal.Entry

/-!
# Partition snapshots

One file with a CRC-protected header, a section table with a BLAKE3 digest per section, sections on
64-byte boundaries, and a digest of the whole file at its end.  Loading verifies everything before a
byte is trusted; an access outside a buffer is the error `SnapshotError.fault`.
-/

namespace DistrHnsw

namespace Index

open Reader

def headerLen : ℕ := 128

def sectionEntryLen : ℕ := 52

def align : ℕ := 64

def footerLen : ℕ := 32

def snapshotMagic : Bytes := [0x44, 0x48, 0x53, 0x4E]

def snapshotVersion : ℕ := 1

def sectionKeys : ℕ := 1

def sectionSlots : ℕ := 2

def sectionPayloads : ℕ := 3

def sectionVectorsF32 : ℕ := 4

def sectionVectorsI8 : ℕ := 5

def sectionGraph : ℕ := 6

def sectionIdempotency : ℕ := 7

/-- Section kinds in file order. -/
def sectionOrder : List ℕ :=
  [sectionKeys, sectionSlots, sectionPayloads, sectionVectorsF32, sectionVectorsI8, sectionGraph,
    sectionIdempotency]

inductive SnapshotError where
  | headerCrc
  | badMagic
  | unsupportedVersion (version : ℕ)
  | wrongPartition (found expected : Uuid)
  | footerHash
  | sectionHash (kind : ℕ)
  | missingSection (kind : ℕ)
  | malformed (what : String)
  | inconsistent (what : String)
  | io
  /-- The process panics. -/
  | fault (fault : Fault)
  deriving DecidableEq, Repr

/-- The live slot of a key without one, and the entry point of an empty graph. -/
def noSlot : Slot := 0xFFFFFFFF

/-- Per-slot metadata stored in the snapshot. -/
structure SlotRecord where
  version : ℕ
  tombstone : Bool
  /-- The key this version was written for, kept after a later upsert tombstones it. -/
  keyIndex : UInt32
  payload : Bytes
  deriving DecidableEq, Repr

/-- Everything a snapshot captures. -/
structure SnapshotInput where
  partitionId : Uuid
  dims : ℕ
  metric : Metric
  params : HnswParams
  highWater : ℕ
  /-- External keys and the live slot each points to. -/
  keys : List (Bytes × Slot)
  slots : List SlotRecord
  vectors : FlatVectors
  quantized : QuantizedVectors
  graph : GraphParts
  idempotency : List (OpId × ℕ)

/-- A verified, loaded snapshot. -/
structure LoadedSnapshot extends SnapshotInput where
  fileBytes : ℕ

def metricCode : Metric → ℕ
  | .cosine => 1
  | .dot => 2
  | .l2 => 3

def metricFrom (code : ℕ) : Option Metric :=
  if code = 1 then some .cosine else if code = 2 then some .dot else if code = 3 then some .l2
  else none

/-! ## Encoding -/

def zeros (count : ℕ) : Bytes := List.replicate count 0

/-- The next multiple of the alignment. -/
def alignUp (n : ℕ) : ℕ := (n + 63) / align * align

def slotsToLe (slots : List Slot) : Bytes := slots.flatMap u32ToLe

/-- A key's length, bytes and live slot. -/
def keyToLe (key : Bytes × Slot) : Bytes := toLeBytes 2 key.1.length ++ key.1 ++ u32ToLe key.2

/-- Slot records, with the offsets of their payloads. -/
def recordsToLe : ℕ → List SlotRecord → Bytes
  | _, [] => []
  | payloadOffset, record :: rest =>
    toLeBytes 8 record.version ++ [if record.tombstone then 1 else 0] ++ u32ToLe record.keyIndex ++
      toLeBytes 8 payloadOffset ++ toLeBytes 4 record.payload.length ++
      recordsToLe (payloadOffset + record.payload.length) rest

/-- The upper lists of a slot above level 0. -/
def upperToLe (g : GraphParts) (slot : ℕ) : Checked Bytes := do
  let level ← index g.levels slot
  if level = 0 then return []
  else do
    let lens ← index g.upperLen slot
    let links ← index g.upper slot
    return lens ++ slotsToLe links

def graphToLe (params : HnswParams) (slotCount : ℕ) (g : GraphParts) : Checked Bytes := do
  let upper ← (List.range slotCount).mapM (upperToLe g)
  return toLeBytes 4 params.m ++ toLeBytes 4 params.m0 ++ toLeBytes 4 params.efConstruction ++
    u64ToLe params.seed ++ u32ToLe (g.entry.getD noSlot) ++ [g.maxLevel] ++
    toLeBytes 8 g.tombstoneCount ++ g.levels ++ g.level0Len ++ slotsToLe g.level0 ++
    g.tombstones.flatMap u64ToLe ++ upper.flatten

def idempotentToLe (entry : OpId × ℕ) : Bytes := entry.1.1 ++ toLeBytes 8 entry.2

def SnapshotInput.encodeSection (input : SnapshotInput) (kind : ℕ) : Except SnapshotError Bytes :=
  if kind = sectionKeys then .ok (input.keys.flatMap keyToLe)
  else if kind = sectionSlots then .ok (recordsToLe 0 input.slots)
  else if kind = sectionPayloads then .ok (input.slots.flatMap SlotRecord.payload)
  else if kind = sectionVectorsF32 then .ok (input.vectors.rows.flatMap F32.manyToLe)
  else if kind = sectionVectorsI8 then
    .ok (F32.manyToLe input.quantized.scales ++ F32.manyToLe input.quantized.normsSq ++
      input.quantized.data.map Int8.toUInt8)
  else if kind = sectionGraph then
    (graphToLe input.params input.slots.length input.graph).mapError .fault
  else if kind = sectionIdempotency then .ok (input.idempotency.flatMap idempotentToLe)
  else .error (.fault (.assertion "unknown section kind"))

/-- The members with their positions. -/
def enumerate {α : Type} (xs : List α) : List (ℕ × α) := xs.zipIdx.map fun (a, i) => (i, a)

section Encode

variable [Digests]

/-- Where a section stands in the file. -/
structure SectionEntry where
  kind : ℕ
  offset : ℕ
  len : ℕ
  digest : Bytes
  deriving DecidableEq

/-- Sections laid out from `cursor` on. -/
def placed : ℕ → List (ℕ × Bytes) → List SectionEntry
  | _, [] => []
  | cursor, (kind, bytes) :: rest =>
    ⟨kind, cursor, bytes.length, (blake3 bytes).1⟩ :: placed (alignUp (cursor + bytes.length)) rest

def SectionEntry.toLe (entry : SectionEntry) : Bytes :=
  toLeBytes 2 entry.kind ++ toLeBytes 2 0 ++ toLeBytes 8 entry.offset ++ toLeBytes 8 entry.len ++
    entry.digest

/-- A section and the zeros up to the next boundary. -/
def padded (bytes : Bytes) : Bytes := bytes ++ zeros (alignUp bytes.length - bytes.length)

def firstSection : ℕ := alignUp (headerLen + sectionOrder.length * sectionEntryLen)

/-- The fields of the header. -/
def SnapshotInput.headerFields (input : SnapshotInput) : Bytes :=
  snapshotMagic ++ toLeBytes 2 snapshotVersion ++ toLeBytes 2 0 ++ input.partitionId.1 ++
    toLeBytes 4 input.dims ++ toLeBytes 1 (metricCode input.metric) ++ [1] ++ [0, 0] ++
    toLeBytes 8 input.highWater ++ toLeBytes 4 input.slots.length ++
    toLeBytes 4 (input.slots.filter fun slot => !slot.tombstone).length ++
    toLeBytes 4 input.keys.length ++ toLeBytes 4 input.idempotency.length ++
    toLeBytes 4 sectionOrder.length ++ toLeBytes 8 headerLen

/-- The header up to its CRC. -/
def SnapshotInput.headerBody (input : SnapshotInput) : Bytes :=
  input.headerFields ++ zeros (headerLen - 4 - input.headerFields.length)

/-- Serialize a snapshot. -/
def encode (input : SnapshotInput) : Except SnapshotError Bytes :=
  if input.vectors.len ≠ input.slots.length ∨ input.quantized.len ≠ input.slots.length then
    .error (.inconsistent "vector counts differ from slot count")
  else if input.keys.any fun key => decide (key.1.length = 0 ∨ key.1.length > 65535) then
    .error (.inconsistent "key length")
  else do
    let sections ← sectionOrder.mapM fun kind => do
      let bytes ← input.encodeSection kind
      return (kind, bytes)
    let header := input.headerBody ++ u32ToLe (crc32c input.headerBody)
    let table := (placed firstSection sections).flatMap SectionEntry.toLe
    let file := header ++ table ++ zeros (firstSection - headerLen - table.length) ++
      sections.flatMap fun (_, bytes) => padded bytes
    return file ++ (blake3 file).1

end Encode

/-! ## The header and the section table -/

structure Header where
  partitionId : Uuid
  dims : ℕ
  metric : Metric
  highWater : ℕ
  slotCount : ℕ
  keyCount : ℕ
  idemCount : ℕ
  sectionCount : ℕ
  tableOffset : ℕ
  deriving DecidableEq

/-- The sum of two 64-bit numbers, when it is one. -/
def checkedAdd (a b : ℕ) : Option ℕ := if a + b < 2 ^ 64 then some (a + b) else none

/-- The range of a buffer that the caller has checked. -/
def bytesAt (bytes : Bytes) (start len : ℕ) : Except SnapshotError Bytes :=
  (range bytes start len).mapError .fault

section Load

variable [Digests]

/-- Check the header CRC, magic, version, and partition id. -/
def readHeader (bytes : Bytes) (expectedPartition : Uuid) : Except SnapshotError Header :=
  if bytes.length < headerLen + footerLen then .error (.malformed "file too short")
  else
    let header := bytes.take headerLen
    let crc := fromLeBytes (header.drop (headerLen - 4))
    if (crc32c (header.take (headerLen - 4))).toNat ≠ crc then .error .headerCrc
    else do
      let (magic, cursor) ← take (.malformed "magic") 4 header
      if magic ≠ snapshotMagic then .error .badMagic else do
      let (version, cursor) ← word (.malformed "version") 2 cursor
      if version ≠ snapshotVersion then .error (.unsupportedVersion version) else do
      let (_, cursor) ← word (.malformed "flags") 2 cursor
      let (partitionId, cursor) ← array (.malformed "partition id") 16 cursor
      if partitionId ≠ expectedPartition then .error (.wrongPartition partitionId expectedPartition)
      else do
      let (dims, cursor) ← word (.malformed "dims") 4 cursor
      let (code, cursor) ← word (.malformed "metric") 1 cursor
      match metricFrom code with
      | none => .error (.malformed "metric")
      | some metric => do
        let (quant, cursor) ← word (.malformed "quant") 1 cursor
        if quant ≠ 1 then .error (.malformed "quantization scheme") else do
        let (_, cursor) ← take (.malformed "reserved") 2 cursor
        let (highWater, cursor) ← word (.malformed "high water") 8 cursor
        let (slotCount, cursor) ← word (.malformed "slot count") 4 cursor
        let (_, cursor) ← word (.malformed "live count") 4 cursor
        let (keyCount, cursor) ← word (.malformed "key count") 4 cursor
        let (idemCount, cursor) ← word (.malformed "idempotency count") 4 cursor
        let (sectionCount, cursor) ← word (.malformed "section count") 4 cursor
        let (tableOffset, _) ← word (.malformed "table offset") 8 cursor
        if dims = 0 then .error (.malformed "dims") else
        return ⟨partitionId, dims, metric, highWater, slotCount, keyCount, idemCount, sectionCount,
          tableOffset⟩

/-- The `i`th entry of the section table, inside the file behind the table. -/
def readEntry (bytes : Bytes) (tableOffset tableEnd footerAt i : ℕ) :
    Except SnapshotError SectionEntry := do
  let entry ← bytesAt bytes (tableOffset + i * sectionEntryLen) sectionEntryLen
  let kind := fromLeBytes (entry.take 2)
  let offset := fromLeBytes ((entry.drop 4).take 8)
  let len := fromLeBytes ((entry.drop 12).take 8)
  if offset < tableEnd ∨ (checkedAdd offset len).all (· > footerAt) then
    .error (.malformed "section bounds")
  else return ⟨kind, offset, len, (entry.drop 20).take 32⟩

/-- Bounds-check the section table. -/
def readTable (bytes : Bytes) (header : Header) : Except SnapshotError (List SectionEntry) :=
  let footerAt := bytes.length - footerLen
  match checkedAdd (header.sectionCount * sectionEntryLen) header.tableOffset with
  | none => .error (.malformed "section table")
  | some tableEnd =>
    if header.tableOffset < headerLen ∨ tableEnd > footerAt then .error (.malformed "section table")
    else (List.range header.sectionCount).mapM
      (readEntry bytes header.tableOffset tableEnd footerAt)

/-- Compare a section with its digest. -/
def checkSection (bytes : Bytes) (entry : SectionEntry) : Except SnapshotError Unit := do
  let content ← bytesAt bytes entry.offset entry.len
  if (blake3 content).1 ≠ entry.digest then .error (.sectionHash entry.kind) else .ok ()

/-- The first section of a kind. -/
def findSection (sections : List SectionEntry) (kind : ℕ) : Except SnapshotError SectionEntry :=
  match sections.find? fun entry => entry.kind == kind with
  | some entry => .ok entry
  | none => .error (.missingSection kind)

def sectionBytes (bytes : Bytes) (sections : List SectionEntry) (kind : ℕ) :
    Except SnapshotError Bytes := do
  let entry ← findSection sections kind
  bytesAt bytes entry.offset entry.len

/-! ## Sections -/

/-- Run a reader over a whole section. -/
def readAll {α : Type} (read : Reader SnapshotError α) (trailing : String) (bytes : Bytes) :
    Except SnapshotError α := do
  let (a, rest) ← read bytes
  if rest ≠ [] then .error (.malformed trailing) else return a

def readKey : Reader SnapshotError (Bytes × Slot) := fun c => do
  let (len, c) ← word (.malformed "key length") 2 c
  let (key, c) ← take (.malformed "key") len c
  let (slot, c) ← u32 (.malformed "key slot") c
  return ((key, slot), c)

def readTombstone (flag : UInt8) : Except SnapshotError Bool :=
  if flag = 0 then .ok false else if flag = 1 then .ok true
  else .error (.malformed "tombstone flag")

/-- A slot record with its payload. -/
def readRecord (payloads : Bytes) : Reader SnapshotError SlotRecord := fun c => do
  let (version, c) ← word (.malformed "slot version") 8 c
  let (flag, c) ← u8 (.malformed "tombstone") c
  let tombstone ← readTombstone flag
  let (keyIndex, c) ← u32 (.malformed "key index") c
  let (offset, c) ← word (.malformed "payload offset") 8 c
  let (len, c) ← word (.malformed "payload length") 4 c
  match slice payloads offset len with
  | none => .error (.malformed "payload bounds")
  | some payload => return (⟨version, tombstone, keyIndex, payload⟩, c)

def readF32 (what : String) : Reader SnapshotError F32 :=
  convert (u32 (.malformed what)) fun bits => .ok ⟨bits⟩

/-- Rows served from the map. -/
def mappedRows (rows dims : ℕ) (bytes : Bytes) : List (List F32) :=
  (List.range rows).map fun i => F32.manyOfLe ((bytes.drop (i * (dims * 4))).take (dims * 4))

/-- The rows of the `f32` section, four-byte aligned and inside the file. -/
def mapRows (bytes : Bytes) (offset rows dims : ℕ) : Except SnapshotError FlatVectors :=
  let size := rows * dims * 4
  if size ≥ 2 ^ 64 ∨ offset + size > bytes.length ∨ offset % 4 ≠ 0 then
    .error (.malformed "f32 section alignment")
  else if dims = 0 then .error (.malformed "dims")
  else do
    let content ← bytesAt bytes offset size
    let mapped := mappedRows rows dims content
    if h : ∀ row ∈ mapped, row.length = dims then .ok (.fromMapped dims mapped h)
    else .error (.fault .bounds)

def readQuantized (slotCount dims : ℕ) (bytes : Bytes) : Except SnapshotError QuantizedVectors := do
  let ((scales, norms, codes)) ← readAll (fun c => do
    let (scales, c) ← many (readF32 "scale") slotCount c
    let (norms, c) ← many (readF32 "norm") slotCount c
    let (codes, c) ← take (.malformed "int8 codes") (slotCount * dims) c
    return ((scales, norms, codes.map UInt8.toInt8), c)) "int8 section trailing bytes" bytes
  match QuantizedVectors.fromParts dims codes scales norms with
  | none => .error (.malformed "int8 shape")
  | some quantized => return quantized

/-- The lists of a slot above level 0. -/
def readUpper (m : ℕ) (level : UInt8) : Reader SnapshotError (List UInt8 × List Slot) := fun c =>
  if level = 0 then .ok (([], []), c)
  else do
    let (lens, c) ← take (.malformed "upper lengths") level.toNat c
    let (links, c) ← many (u32 (.malformed "upper links")) (level.toNat * m) c
    return ((lens, links), c)

/-- The lists of all slots, by their levels. -/
def readUppers (m : ℕ) : List UInt8 → Reader SnapshotError (List (List UInt8 × List Slot))
  | [], c => .ok ([], c)
  | level :: levels, c => do
    let (lists, c) ← readUpper m level c
    let (rest, c) ← readUppers m levels c
    return (lists :: rest, c)

def readGraph (slotCount : ℕ) : Reader SnapshotError (HnswParams × GraphParts) := fun c => do
  let (m, c) ← word (.malformed "m") 4 c
  let (m0, c) ← word (.malformed "m0") 4 c
  let (efConstruction, c) ← word (.malformed "ef_construction") 4 c
  let (seed, c) ← u64 (.malformed "seed") c
  if m = 0 ∨ m0 = 0 ∨ m > 255 ∨ m0 > 255 then .error (.malformed "graph parameters") else do
  let (entryRaw, c) ← u32 (.malformed "entry") c
  let (maxLevel, c) ← u8 (.malformed "max level") c
  let (tombstoneCount, c) ← word (.malformed "tombstone count") 8 c
  let (levels, c) ← take (.malformed "levels") slotCount c
  let (level0Len, c) ← take (.malformed "level0 lengths") slotCount c
  let (level0, c) ← many (u32 (.malformed "level0 links")) (slotCount * m0) c
  let (tombstones, c) ← many (u64 (.malformed "tombstone words")) ((slotCount + 63) / 64) c
  let (uppers, c) ← readUppers m levels c
  return ((⟨m, m0, efConstruction, seed⟩,
    { levels, level0, level0Len, tombstones, tombstoneCount, maxLevel
      upper := uppers.map Prod.snd
      upperLen := uppers.map Prod.fst
      entry := if entryRaw = noSlot then none else some entryRaw }), c)

def readIdempotent : Reader SnapshotError (OpId × ℕ) := fun c => do
  let (opId, c) ← array (.malformed "op id") 16 c
  let (seq, c) ← word (.malformed "op seq") 8 c
  return ((opId, seq), c)

/-! ## Structural checks -/

/-- A list of `len` links from `start` on: within its capacity and in range. -/
def checkLinks (slotCount width : ℕ) (tooLong outOfRange : String) (links : List Slot) (start : ℕ)
    (len : UInt8) : Except SnapshotError Unit :=
  if len.toNat > width then .error (.malformed tooLong)
  else do
    let list ← (range links start len.toNat).mapError .fault
    if list.all fun n => decide (n.toNat < slotCount) then .ok () else .error (.malformed outOfRange)

def checkLevel0 (params : HnswParams) (slotCount : ℕ) (g : GraphParts) (slot : ℕ × UInt8) :
    Except SnapshotError Unit :=
  checkLinks slotCount params.m0 "level0 length" "neighbour out of range" g.level0
    (slot.1 * params.m0) slot.2

def checkUpper (params : HnswParams) (slotCount : ℕ) (g : GraphParts) (slot : ℕ) :
    Except SnapshotError Unit := do
  let level ← (index g.levels slot).mapError .fault
  if level.toNat > 31 then .error (.malformed "level") else do
  let lens ← (index g.upperLen slot).mapError .fault
  let links ← (index g.upper slot).mapError .fault
  (enumerate lens).forM fun (level, len) =>
    checkLinks slotCount params.m "upper length" "upper neighbour out of range" links
      (level * params.m) len

def checkEntry (slotCount : ℕ) (g : GraphParts) : Except SnapshotError Unit :=
  match g.entry with
  | some entry =>
    if entry.toNat < slotCount then do
      let level ← (index g.levels entry.toNat).mapError .fault
      if level = g.maxLevel then .ok () else .error (.malformed "entry point")
    else .error (.malformed "entry point")
  | none => if slotCount ≠ 0 then .error (.malformed "entry point") else .ok ()

def checkSlot (keyCount : ℕ) (g : GraphParts) (slot : ℕ × SlotRecord) : Except SnapshotError Unit :=
  if testBit g.tombstones slot.1 ≠ slot.2.tombstone then
    .error (.malformed "tombstone bitmap disagrees with slots")
  else if slot.2.keyIndex.toNat ≥ keyCount then .error (.malformed "slot key index")
  else .ok ()

def checkKeySlot (slots : List SlotRecord) (key : ℕ × Bytes × Slot) : Except SnapshotError Unit :=
  if key.2.2 = noSlot then .ok ()
  else match slots[key.2.2.toNat]? with
    | none => .error (.malformed "key slot out of range")
    | some record =>
      if record.tombstone ∨ record.keyIndex.toNat ≠ key.1 then
        .error (.malformed "key points to a slot it does not own")
      else .ok ()

/-- Cross-check every reference a loaded snapshot holds. -/
def validateStructure (params : HnswParams) (slotCount : ℕ) (keys : List (Bytes × Slot))
    (slots : List SlotRecord) (g : GraphParts) : Except SnapshotError Unit := do
  (enumerate g.level0Len).forM (checkLevel0 params slotCount g)
  (List.range slotCount).forM (checkUpper params slotCount g)
  checkEntry slotCount g
  (enumerate slots).forM (checkSlot keys.length g)
  if (slots.filter SlotRecord.tombstone).length ≠ g.tombstoneCount then
    .error (.malformed "tombstone count") else do
  (enumerate keys).forM (checkKeySlot slots)

/-! ## Loading -/

/-- Verify and load a snapshot. -/
def load (bytes : Bytes) (expectedPartition : Uuid) : Except SnapshotError LoadedSnapshot := do
  let header ← readHeader bytes expectedPartition
  let footerAt := bytes.length - footerLen
  if (blake3 (bytes.take footerAt)).1 ≠ bytes.drop footerAt then .error .footerHash else do
  let sections ← readTable bytes header
  sections.forM (checkSection bytes)
  let keysSection ← sectionBytes bytes sections sectionKeys
  let keys ← readAll (many readKey header.keyCount) "keys section trailing bytes" keysSection
  let payloads ← sectionBytes bytes sections sectionPayloads
  let slotsSection ← sectionBytes bytes sections sectionSlots
  let slots ← readAll (many (readRecord payloads) header.slotCount) "slots section trailing bytes"
    slotsSection
  let f32 ← findSection sections sectionVectorsF32
  if f32.len ≠ header.slotCount * header.dims * 4 % 2 ^ 64 then .error (.malformed "f32 section length")
  else do
  let vectors ← mapRows bytes f32.offset header.slotCount header.dims
  let i8Section ← sectionBytes bytes sections sectionVectorsI8
  let quantized ← readQuantized header.slotCount header.dims i8Section
  let graphSection ← sectionBytes bytes sections sectionGraph
  let (params, graph) ← readAll (readGraph header.slotCount) "graph section trailing bytes"
    graphSection
  validateStructure params header.slotCount keys slots graph
  let idempotencySection ← sectionBytes bytes sections sectionIdempotency
  let idempotency ← readAll (many readIdempotent header.idemCount)
    "idempotency section trailing bytes" idempotencySection
  return {
    partitionId := header.partitionId
    dims := header.dims
    metric := header.metric
    params, keys, slots, vectors, quantized, graph, idempotency
    highWater := header.highWater
    fileBytes := bytes.length }

/-- The `f32` originals of a snapshot this process just wrote. -/
def mapVectors (bytes : Bytes) (expectedPartition : Uuid) (dims slotCount : ℕ) :
    Except SnapshotError FlatVectors := do
  let header ← readHeader bytes expectedPartition
  if header.dims ≠ dims ∨ header.slotCount ≠ slotCount then .error (.malformed "snapshot shape")
  else do
  let sections ← readTable bytes header
  let f32 ← findSection sections sectionVectorsF32
  if f32.len ≠ slotCount * dims * 4 % 2 ^ 64 then .error (.malformed "f32 section length") else do
  let content ← bytesAt bytes f32.offset f32.len
  if (blake3 content).1 ≠ f32.digest then .error (.sectionHash sectionVectorsF32) else
  mapRows bytes f32.offset slotCount dims

end Load

end Index

end DistrHnsw
