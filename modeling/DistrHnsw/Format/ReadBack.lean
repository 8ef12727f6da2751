import DistrHnsw.Format.Transfer
import Mathlib.Data.List.Forall2

/-!
# Committed files are read back

`Plans` is what a new upload fixes, `Kept` what every step of every attempt keeps of it: the planned
manifest lists the objects on record, and a committed upload has stored the sealed pieces of the
source that was planned.  From there `download` returns that source, and recovery decodes the
manifest.
-/

namespace DistrHnsw

namespace Format

open Metadata (ObjectKind)
open Trust (ObjectHash)
open Reader (utf8Bytes)
open Program

section

variable [Digests] [Aead] {master key : Key} {source : Source} {plan : NewUpload}
  {upload upload' : Upload}

/-! ## Plans -/

/-- The chunk was planned for the piece. -/
def PlannedFor (chunk : NewChunk) (piece : Bytes) : Prop :=
  chunk.plaintextLen.toNat = piece.length ∧ chunk.plaintextHash = blake3 piece

/-- What the plan of a source fixes. -/
structure Plans (master : Key) (source : Source) (plan : NewUpload) : Prop where
  opens : ∃ key, unwrapKey master contentKeyPurpose plan.fileId plan.generation plan.contentKey = .ok key
  chunks : List.Forall₂ PlannedFor plan.chunks source.pieces
  ordinals : plan.chunks.map (·.ordinal.toNat) = List.range plan.chunks.length
  size : plan.plaintextSize.toNat = source.content.length
  hash : plan.plaintextHash = blake3 source.content
  room : (utf8Bytes plan.fileName).length + plan.contentKey.ciphertext.length +
    68 * plan.chunks.length + 226 ≤ maxObjectBytes

omit [Aead] in
theorem toNat_inspectPiece {piece : Bytes} (h : piece ∈ source.pieces) :
    (inspectPiece piece).plaintextLen.toNat = piece.length := by
  have hle := length_le_of_mem_piecesOf h
  unfold chunkSize at hle
  exact UInt32.toNat_ofNat_of_lt' (show piece.length < 2 ^ 32 by omega)

theorem plans_of_newUpload {draw : UploadDraw} {inspection : SourceInspection}
    (hinspect : inspectSource source = .ok inspection)
    (h : newUpload master draw inspection = .ok plan) : Plans master source plan := by
  unfold inspectSource at hinspect
  split at hinspect
  case isFalse => cases hinspect
  case isTrue hsize =>
    cases hinspect
    obtain ⟨contentKey, hkey, h₁⟩ := bind_eq_ok.1 h
    obtain ⟨hcount, h₂⟩ := guard_eq_ok.1 h₁
    obtain ⟨standIn, hstandIn, h₃⟩ := bind_eq_ok.1 h₂
    obtain ⟨hroom, h₄⟩ := guard_eq_ok.1 h₃
    cases h₄
    have hlen := length_of_encodeManifest (mapError_eq_ok.1 hstandIn)
    rw [not_lt, hlen] at hroom
    refine ⟨⟨_, unwrapKey_of_wrapKey (mapError_eq_ok.1 hkey)⟩, ?_, ?_, ?_, rfl, ?_⟩
    · show List.Forall₂ PlannedFor (((source.pieces.map inspectPiece).zipIdx).map _) source.pieces
      rw [List.forall₂_map_left_iff, List.forall₂_iff_get]
      refine ⟨by simp, fun i hi hi' => ?_⟩
      have hmem : source.pieces.get ⟨i, hi'⟩ ∈ source.pieces := List.get_mem _ _
      have hpiece := toNat_inspectPiece hmem
      simp only [List.get_eq_getElem, List.getElem_zipIdx, List.getElem_map] at hpiece ⊢
      exact ⟨hpiece, rfl⟩
    · show List.map _ (((source.pieces.map inspectPiece).zipIdx).map _) = List.range _
      rw [List.map_map]
      refine List.ext_getElem (by simp) fun i hi hi' => ?_
      have hlt : i < 2 ^ 32 := by
        simp only [List.length_map, List.length_zipIdx] at hi hcount
        omega
      simp only [List.getElem_map, List.getElem_zipIdx, List.getElem_range, Function.comp, Nat.zero_add]
      exact UInt32.toNat_ofNat_of_lt' hlt
    · exact UInt64.toNat_ofNat_of_lt' hsize
    · simpa [NewUpload.payload] using hroom

/-! ## What an upload keeps -/

/-- Nothing that was stored or recorded is lost. -/
structure Grows (upload upload' : Upload) : Prop where
  plan : upload'.plan = upload.plan
  chunks : ∀ ordinal object, upload.chunkObject ordinal = some object →
    upload'.chunkObject ordinal = some object
  objects : ∀ object ∈ upload.objects, object ∈ upload'.objects

omit [Digests] [Aead] in
theorem Grows.refl (upload : Upload) : Grows upload upload :=
  ⟨rfl, fun _ _ h => h, fun _ h => h⟩

omit [Digests] [Aead] in
theorem Grows.trans {a b c : Upload} (h : Grows a b) (h' : Grows b c) : Grows a c :=
  ⟨h'.plan.trans h.plan, fun o x hx => h'.chunks o x (h.chunks o x hx),
    fun x hx => h'.objects x (h.objects x hx)⟩

/-- The sealed piece is on record for the chunk, and stored. -/
def Sent (upload : Upload) (key : Key) (chunk : NewChunk) (piece : Bytes) : Prop :=
  ∃ ciphertext : Bytes, ∃ len : UInt32,
    encryptChunk key chunk.envelopeVersion upload.plan.fileId chunk.ordinal chunk.plaintextLen
      chunk.nonce piece = .ok ciphertext ∧ len.toNat = ciphertext.length ∧
    upload.chunkObject chunk.ordinal = some (digest ciphertext, len) ∧
    (.chunk, digest ciphertext, ciphertext) ∈ upload.objects

/-- The record of a chunk names the object on record. -/
def Recorded (upload : Upload) (chunk : NewChunk) (record : ChunkRecord) : Prop :=
  ∃ object, upload.chunkObject chunk.ordinal = some object ∧ record = chunk.record object

omit [Digests] [Aead] in
theorem Recorded.mono (h : Grows upload upload') {chunk : NewChunk} {record : ChunkRecord}
    (hrecorded : Recorded upload chunk record) : Recorded upload' chunk record := by
  obtain ⟨object, hobject, heq⟩ := hrecorded
  exact ⟨object, h.chunks _ _ hobject, heq⟩

theorem Sent.mono (h : Grows upload upload') {chunk : NewChunk} {piece : Bytes}
    (hsent : Sent upload key chunk piece) : Sent upload' key chunk piece := by
  obtain ⟨ciphertext, len, hseal, hlen, hobject, hstored⟩ := hsent
  refine ⟨ciphertext, len, ?_, hlen, h.chunks _ _ hobject, h.objects _ hstored⟩
  rw [h.plan]
  exact hseal

/-- The planned manifest lists the objects on record. -/
def ManifestOf (master : Key) (upload : Upload) (hash : ObjectHash) (bytes : Bytes) : Prop :=
  hash = digest bytes ∧ ∃ draw records, List.Forall₂ (Recorded upload) upload.plan.chunks records ∧
    encodeManifest master draw upload.plan.fileId upload.plan.generation
      (upload.plan.payload records) = .ok bytes

/-- What was committed has its manifest and its sealed pieces stored. -/
def Readable (master : Key) (source : Source) (upload : Upload) : Prop :=
  ∃ hash bytes key, upload.manifest = some (hash, bytes) ∧
    (.manifest, hash, bytes) ∈ upload.objects ∧
    unwrapKey master contentKeyPurpose upload.plan.fileId upload.plan.generation
      upload.plan.contentKey = .ok key ∧
    List.Forall₂ (Sent upload key) upload.plan.chunks source.pieces

/-- What every attempt keeps. -/
structure Kept (master : Key) (source : Source) (plan : NewUpload) (upload : Upload) : Prop where
  plan : upload.plan = plan
  manifest : ∀ hash bytes, upload.manifest = some (hash, bytes) → ManifestOf master upload hash bytes
  committed : upload.committed = true → Readable master source upload
  sizes : ∀ object ∈ upload.objects, object.2.2.length ≤ maxObjectBytes

theorem kept_row (master : Key) (source : Source) (plan : NewUpload) :
    Kept master source plan plan.row :=
  ⟨rfl, fun _ _ h => (nomatch h), fun h => (nomatch h), fun _ h => (nomatch h)⟩

theorem ManifestOf.mono (h : Grows upload upload') {hash : ObjectHash} {bytes : Bytes}
    (hmanifest : ManifestOf master upload hash bytes) : ManifestOf master upload' hash bytes := by
  obtain ⟨hhash, draw, records, hrecorded, hencode⟩ := hmanifest
  refine ⟨hhash, draw, records, ?_, ?_⟩
  · rw [h.plan]
    exact hrecorded.imp fun _ _ => Recorded.mono h
  · rw [h.plan]
    exact hencode

theorem Readable.mono (h : Grows upload upload') (hmanifest : upload'.manifest = upload.manifest)
    (hreadable : Readable master source upload) : Readable master source upload' := by
  obtain ⟨hash, bytes, key, hplanned, hstored, hkey, hsent⟩ := hreadable
  refine ⟨hash, bytes, key, hmanifest.trans hplanned, h.objects _ hstored, ?_, ?_⟩
  · rw [h.plan]
    exact hkey
  · rw [h.plan]
    exact hsent.imp fun _ _ => Sent.mono h

/-- A step that only adds chunks and objects. -/
theorem Kept.grow (hkept : Kept master source plan upload) (h : Grows upload upload')
    (hmanifest : upload'.manifest = upload.manifest) (hcommitted : upload'.committed = upload.committed)
    (hsizes : ∀ object ∈ upload'.objects, object ∉ upload.objects →
      object.2.2.length ≤ maxObjectBytes) : Kept master source plan upload' where
  plan := h.plan.trans hkept.plan
  manifest hash bytes hplanned := (hkept.manifest hash bytes (hmanifest ▸ hplanned)).mono h
  committed hc := (hkept.committed (hcommitted ▸ hc)).mono h hmanifest
  sizes object hobject := by
    by_cases hold : object ∈ upload.objects
    · exact hkept.sizes object hold
    · exact hsizes object hobject hold

/-! ## One write after the other -/

omit [Digests] [Aead] in
/-- A chunk's object is put on record, and no other. -/
theorem setChunkObject_spec {ordinal : UInt32} {hash : ObjectHash} {len : UInt32}
    (h : upload.perform (.setChunkObject ordinal hash len) = .ok upload') :
    Grows upload upload' ∧ upload'.chunkObject ordinal = some (hash, len) ∧
      upload'.manifest = upload.manifest ∧ upload'.committed = upload.committed ∧
      upload'.objects = upload.objects := by
  unfold Upload.perform at h
  dsimp only at h
  split at h
  · next existing hexisting =>
    obtain ⟨hsame, heq⟩ := guard_eq_ok.1 h
    cases heq
    rw [not_not.1 hsame] at hexisting
    exact ⟨Grows.refl _, hexisting, rfl, rfl, rfl⟩
  · next hnone =>
    cases h
    refine ⟨⟨rfl, fun o x hx => ?_, fun _ h => h⟩, Function.update_self _ _ _, rfl, rfl, rfl⟩
    have hne : o ≠ ordinal := by
      rintro rfl
      rw [hnone] at hx
      cases hx
    exact (Function.update_of_ne hne _ _).trans hx

omit [Digests] [Aead] in
theorem put_spec {object : StoredObject} (h : upload.perform (.put object) = .ok upload') :
    Grows upload upload' ∧ upload'.objects = object :: upload.objects ∧
      upload'.manifest = upload.manifest ∧ upload'.committed = upload.committed := by
  cases h
  exact ⟨⟨rfl, fun _ _ h => h, fun _ h => List.mem_cons_of_mem _ h⟩, rfl, rfl, rfl⟩

omit [Digests] [Aead] in
theorem setManifestPlan_spec {hash : ObjectHash} {bytes : Bytes} (hnone : upload.manifest = none)
    (h : upload.perform (.setManifestPlan hash bytes) = .ok upload') :
    upload' = { upload with manifest := some (hash, bytes) } := by
  unfold Upload.perform at h
  rw [hnone] at h
  exact (Except.ok.inj h).symm

omit [Digests] [Aead] in
theorem commitFile_spec (h : upload.perform .commitFile = .ok upload') :
    upload' = { upload with committed := true } := by
  unfold Upload.perform at h
  dsimp only at h
  split at h
  · exact (Except.ok.inj h).symm
  · cases h

/-- No part of what is read hashes like a different part of what was planned. -/
def Distinguishes (planned content : Bytes) : Prop :=
  ∀ x y, x <:+: planned → y <:+: content → blake3 x = blake3 y → x = y

/-- A chunk that is sent keeps the upload, and seals the piece it was planned for. -/
theorem sendChunks_ensures {content whole : Bytes} (hsuffix : content <:+ whole)
    {chunks : List NewChunk} {pieces : List Bytes} (hplanned : List.Forall₂ PlannedFor chunks pieces)
    (hpieces : ∀ piece ∈ pieces, piece.length ≤ chunkSize ∧
      ∀ y, y <:+: whole → blake3 piece = blake3 y → piece = y)
    (hkept : Kept master source plan upload) :
    (sendChunks key plan.fileId chunks content).Ensures (fun _ _ => True) (Kept master source plan)
      (fun records upload' => Kept master source plan upload' ∧ Grows upload upload' ∧
        upload'.manifest = upload.manifest ∧ List.Forall₂ (Sent upload' key) chunks pieces ∧
        List.Forall₂ (Recorded upload') chunks records) upload := by
  induction hplanned generalizing content upload with
  | nil =>
    unfold sendChunks
    split
    · exact ensures_stop
    · exact ⟨hkept, Grows.refl _, rfl, .nil, .nil⟩
  | @cons chunk piece chunks pieces hchunk hrest ih =>
    unfold sendChunks
    cases htake : takeBytes chunk.plaintextLen.toNat content with
    | none => exact ensures_stop
    | some out =>
      obtain ⟨plaintext, rest⟩ := out
      obtain ⟨rfl, hlen⟩ := takeBytes_eq_some htake
      show Ensures _ _ (if _ then _ else _) _ _
      split
      · exact ensures_stop
      next hhash =>
      have hinfix : plaintext <:+: whole :=
        (List.prefix_append _ _).isInfix.trans hsuffix.isInfix
      obtain rfl : piece = plaintext := (hpieces piece List.mem_cons_self).2 plaintext hinfix
        (hchunk.2.symm.trans (not_not.1 hhash).symm)
      cases hseal : encryptChunk key chunk.envelopeVersion plan.fileId chunk.ordinal
        chunk.plaintextLen chunk.nonce piece with
      | error _ => exact ensures_stop
      | ok ciphertext =>
      show Ensures _ _ (require (tryU32 ciphertext.length).toOption >>= _) _ _
      cases hcount : tryU32 ciphertext.length with
      | error _ => exact ensures_stop
      | ok len =>
      obtain ⟨hlt, rfl⟩ := tryU32_eq_ok.1 hcount
      refine fun _ upload₁ hset => ?_
      obtain ⟨hgrows₁, hobject, hmanifest₁, hcommitted₁, hobjects₁⟩ := setChunkObject_spec hset
      have hkept₁ : Kept master source plan upload₁ :=
        hkept.grow hgrows₁ hmanifest₁ hcommitted₁ fun object hmem hnot =>
          absurd (hobjects₁ ▸ hmem) hnot
      refine ⟨hkept₁, fun _ upload₂ hput => ?_⟩
      obtain ⟨hgrows₂, hobjects₂, hmanifest₂, hcommitted₂⟩ := put_spec hput
      have hsize : ciphertext.length ≤ maxObjectBytes := by
        obtain ⟨-, h₁⟩ := guard_eq_ok.1 hseal
        obtain ⟨-, h₂⟩ := guard_eq_ok.1 h₁
        have hcipher := Aead.length_of_encrypt (orFails_eq_ok.1 h₂)
        have hpiece := (hpieces piece List.mem_cons_self).1
        unfold maxObjectBytes
        omega
      have hkept₂ : Kept master source plan upload₂ := by
        refine hkept₁.grow hgrows₂ hmanifest₂ hcommitted₂ fun object hmem hnot => ?_
        rw [hobjects₂] at hmem
        rcases List.mem_cons.1 hmem with rfl | hold
        · exact hsize
        · exact absurd hold hnot
      refine ⟨hkept₂, ?_⟩
      show Ensures _ _ (sendChunks key plan.fileId chunks rest >>= _) _ _
      rw [ensures_bind]
      have hsuffix' : rest <:+ whole := (List.suffix_append _ _).trans hsuffix
      refine (ih hsuffix' (fun p hp => hpieces p (List.mem_cons_of_mem _ hp)) hkept₂).mono ?_
      rintro records upload₃ ⟨hkept₃, hgrows₃, hmanifest₃, hsent, hrecorded⟩
      have hsent₂ : Sent upload₂ key chunk piece := by
        refine ⟨ciphertext, UInt32.ofNat ciphertext.length, ?_, ?_, ?_, ?_⟩
        · rw [hkept₂.plan]
          exact hseal
        · exact UInt32.toNat_ofNat_of_lt' hlt
        · exact hgrows₂.chunks _ _ hobject
        · rw [hobjects₂]
          exact List.mem_cons_self
      refine ⟨hkept₃, (hgrows₁.trans hgrows₂).trans hgrows₃, ?_, .cons (hsent₂.mono hgrows₃) hsent,
        .cons ⟨_, hgrows₃.chunks _ _ (hgrows₂.chunks _ _ hobject), rfl⟩ hrecorded⟩
      rw [hmanifest₃, hmanifest₂, hmanifest₁]

/-- The planned manifest is the one on record, or is put there. -/
theorem planManifest_ensures {records : List ChunkRecord} (hkept : Kept master source plan upload)
    {before : Upload} (hsame : upload.manifest = before.manifest) (hplan : before.plan = plan)
    (hrecorded : List.Forall₂ (Recorded upload) plan.chunks records) :
    (planManifest master before records).Ensures (fun _ _ => True) (Kept master source plan)
      (fun planned upload' => Kept master source plan upload' ∧ Grows upload upload' ∧
        upload'.manifest = some planned) upload := by
  unfold planManifest
  split
  · next planned hplanned =>
    exact ⟨hkept, Grows.refl _, hsame.trans hplanned⟩
  · next hnone =>
    rw [hplan]
    intro draw
    show Ensures _ _ (require (encodeManifest master draw plan.fileId plan.generation
      (plan.payload records)).toOption >>= _) _ _
    cases hencode : encodeManifest master draw plan.fileId plan.generation (plan.payload records) with
    | error _ => exact ensures_stop
    | ok bytes =>
      intro _ upload₁ hset
      have hempty : upload.manifest = none := hsame.trans hnone
      obtain rfl := setManifestPlan_spec hempty hset
      have hkept₁ : Kept master source plan { upload with manifest := some (digest bytes, bytes) } :=
        { plan := hkept.plan
          manifest := fun hash bytes' hplanned => by
            cases hplanned
            refine ⟨rfl, draw, records, ?_, ?_⟩
            · rw [hkept.plan]
              exact hrecorded
            · rw [hkept.plan]
              exact hencode
          committed := fun hcommitted => by
            obtain ⟨_, _, _, hplanned, -⟩ := hkept.committed hcommitted
            rw [hempty] at hplanned
            cases hplanned
          sizes := hkept.sizes }
      exact ⟨hkept₁, hkept₁, ⟨rfl, fun _ _ h => h, fun _ h => h⟩, rfl⟩

/-- The manifest an upload keeps is no larger than the stand-in of its plan. -/
theorem ManifestOf.length_le (hplans : Plans master source plan) (hplan : upload.plan = plan)
    {hash : ObjectHash} {bytes : Bytes} (h : ManifestOf master upload hash bytes) :
    bytes.length ≤ maxObjectBytes := by
  obtain ⟨-, draw, records, hrecorded, hencode⟩ := h
  rw [length_of_encodeManifest hencode]
  show (utf8Bytes upload.plan.fileName).length + upload.plan.contentKey.ciphertext.length +
    68 * records.length + 226 ≤ _
  rw [← hrecorded.length_eq, hplan]
  exact hplans.room

theorem transfer_ensures {content : Bytes} (hplans : Plans master source plan)
    (hdistinct : Distinguishes source.content content) (hkept : Kept master source plan upload) :
    (transfer master upload content).Ensures (fun _ _ => True) (Kept master source plan)
      (fun _ _ => True) upload := by
  unfold transfer
  rw [hkept.plan]
  show Ensures _ _ (require (unwrapKey master contentKeyPurpose plan.fileId plan.generation
    plan.contentKey).toOption >>= _) _ _
  cases hkey : unwrapKey master contentKeyPurpose plan.fileId plan.generation plan.contentKey with
  | error _ => exact ensures_stop
  | ok key =>
    show Ensures _ _ (sendChunks key plan.fileId plan.chunks content >>= _) _ _
    rw [ensures_bind]
    have hpieces (piece : Bytes) (hpiece : piece ∈ source.pieces) : piece.length ≤ chunkSize ∧
        ∀ y, y <:+: content → blake3 piece = blake3 y → piece = y := by
      refine ⟨length_le_of_mem_piecesOf hpiece, fun y hy => hdistinct piece y ?_ hy⟩
      rw [← source.flatten_pieces]
      exact List.infix_of_mem_flatten hpiece
    refine (sendChunks_ensures List.suffix_rfl hplans.chunks hpieces hkept).mono ?_
    rintro records upload₁ ⟨hkept₁, -, hmanifest₁, hsent, hrecorded⟩
    rw [ensures_bind]
    refine (planManifest_ensures hkept₁ hmanifest₁ hkept.plan hrecorded).mono ?_
    rintro ⟨hash, bytes⟩ upload₂ ⟨hkept₂, hgrows₂, hplanned⟩ _ upload₃ hput
    obtain ⟨hgrows₃, hobjects₃, hmanifest₃, hcommitted₃⟩ := put_spec hput
    have hkept₃ : Kept master source plan upload₃ := by
      refine hkept₂.grow hgrows₃ hmanifest₃ hcommitted₃ fun object hmem hnot => ?_
      rw [hobjects₃] at hmem
      rcases List.mem_cons.1 hmem with rfl | hold
      · exact (hkept₂.manifest hash bytes hplanned).length_le hplans hkept₂.plan
      · exact absurd hold hnot
    refine ⟨hkept₃, fun _ upload₄ hcommit => ?_⟩
    have hplanned₃ : upload₃.manifest = some (hash, bytes) := hmanifest₃.trans hplanned
    obtain rfl := commitFile_spec hcommit
    refine ⟨⟨hkept₃.plan, hkept₃.manifest, fun _ => ?_, hkept₃.sizes⟩, trivial⟩
    refine ⟨hash, bytes, key, hplanned₃, ?_, ?_, ?_⟩
    · show _ ∈ upload₃.objects
      rw [hobjects₃]
      exact List.mem_cons_self
    · show unwrapKey _ _ upload₃.plan.fileId upload₃.plan.generation upload₃.plan.contentKey = _
      rw [hkept₃.plan]
      exact hkey
    · show List.Forall₂ (Sent upload₃ key) upload₃.plan.chunks source.pieces
      rw [hkept₃.plan]
      exact hsent.imp fun _ _ h => (h.mono hgrows₂).mono hgrows₃

theorem attempt_ensures {inspected : Source} {content : Bytes} (hplans : Plans master source plan)
    (hdistinct : Distinguishes source.content content) (hkept : Kept master source plan upload) :
    (attempt master inspected content).Ensures (fun _ _ => True) (Kept master source plan)
      (fun _ _ => True) upload := by
  show Ensures _ _ (require (inspectSource inspected).toOption >>= _) _ _
  cases inspectSource inspected with
  | error _ => exact ensures_stop
  | ok inspection =>
    show Ensures _ _ (if _ then _ else _) _ _
    split
    · exact ensures_stop
    · split
      · exact trivial
      · exact transfer_ensures hplans hdistinct hkept

/-- Attempts one after the other, each stopped anywhere, with what each of them inspects and reads. -/
inductive Attempts (master : Key) : List (Source × Bytes) → Upload → Upload → Prop
  | none (upload : Upload) : Attempts master [] upload upload
  | more {inspected : Source} {content : Bytes} {later : List (Source × Bytes)}
      {upload upload₁ upload₂ : Upload} {trace : List (Event uploadWorld)}
      (first : (attempt master inspected content).Runs upload trace upload₁)
      (rest : Attempts master later upload₁ upload₂) :
      Attempts master ((inspected, content) :: later) upload upload₂

theorem Kept.attempts {reads : List (Source × Bytes)} (hplans : Plans master source plan)
    (hdistinct : ∀ read ∈ reads, Distinguishes source.content read.2)
    (h : Attempts master reads upload upload') (hkept : Kept master source plan upload) :
    Kept master source plan upload' := by
  induction h with
  | none upload => exact hkept
  | more first rest ih =>
    refine ih (fun read hread => hdistinct read (List.mem_cons_of_mem _ hread)) ?_
    have hread := hdistinct _ List.mem_cons_self
    exact (attempt_ensures hplans hread hkept).runs hkept first (everyWrite_true _)

/-! ## Reading back -/

/-- The sealed pieces of a plan, downloaded. -/
theorem downloadChunks_of_sent {fetch : Fetch} {chunks : List NewChunk} {pieces : List Bytes}
    {records : List ChunkRecord} (hfetch : ∀ object ∈ upload.objects,
      fetch object.1 object.2.1 = some object.2.2)
    (hsent : List.Forall₂ (Sent upload key) chunks pieces)
    (hrecorded : List.Forall₂ (Recorded upload) chunks records) {output : Bytes} {total : UInt64}
    (hroom : total.toNat + pieces.flatten.length < 2 ^ 64) :
    records.foldlM (downloadChunk fetch key upload.plan.fileId) (output, total) =
      .ok (output ++ pieces.flatten, total + UInt64.ofNat pieces.flatten.length) := by
  induction hsent generalizing records output total with
  | nil =>
    cases hrecorded
    simp
  | @cons chunk piece chunks pieces hchunk hrest ih =>
    cases hrecorded with
    | cons hrecord hmore =>
    obtain ⟨ciphertext, len, hseal, hlen, hobject, hstored⟩ := hchunk
    obtain ⟨object, hobject', rfl⟩ := hrecord
    obtain rfl := Option.some.inj (hobject.symm.trans hobject')
    obtain ⟨hopen, hpiece⟩ := decryptChunk_of_encryptChunk hseal
    rw [List.flatten_cons, List.length_append] at hroom
    have hcount : (UInt64.ofNat piece.length).toNat = piece.length :=
      UInt64.toNat_ofNat_of_lt' (show piece.length < 2 ^ 64 by omega)
    have hstep : downloadChunk fetch key upload.plan.fileId (output, total)
        (chunk.record (digest ciphertext, len)) =
        .ok (output ++ piece, total + UInt64.ofNat piece.length) := by
      refine bind_eq_ok.2 ⟨ciphertext, orFails_eq_ok.2 (hfetch _ hstored), ?_⟩
      refine guard_eq_ok.2 ⟨fun h => h hlen.symm, ?_⟩
      refine bind_eq_ok.2 ⟨piece, mapError_eq_ok.2 hopen, guard_eq_ok.2 ⟨?_, rfl⟩⟩
      show ¬ 2 ^ 64 ≤ total.toNat + piece.length
      omega
    have hsum : (total + UInt64.ofNat piece.length).toNat = total.toNat + piece.length := by
      rw [UInt64.toNat_add, hcount]
      exact Nat.mod_eq_of_lt (by omega)
    rw [List.foldlM_cons, hstep, ok_bind, ih hmore (by omega), List.flatten_cons, List.append_assoc,
      List.length_append, UInt64.ofNat_add, UInt64.add_assoc]

omit [Digests] [Aead] in
theorem ordinals_of_recorded {chunks : List NewChunk} {records : List ChunkRecord}
    (h : List.Forall₂ (Recorded upload) chunks records) :
    records.map (·.ordinal.toNat) = chunks.map (·.ordinal.toNat) := by
  induction h with
  | nil => rfl
  | cons hrecord _ ih =>
    obtain ⟨object, -, rfl⟩ := hrecord
    exact congrArg₂ List.cons rfl ih

/-- A committed file is read back as the source that was planned. -/
theorem download_of_kept {fetch : Fetch} {file : FileRecord} (hplans : Plans master source plan)
    (hkept : Kept master source plan upload) (hfile : upload.file = some file)
    (hfetch : ∀ object ∈ upload.objects, fetch object.1 object.2.1 = some object.2.2) :
    download master fetch file = .ok source.content ∧ ∃ bytes payload,
      (.manifest, file.manifestHash, bytes) ∈ upload.objects ∧
      evidence master .manifest bytes =
        .ok (some (.manifest ⟨file.fileId, file.generation, payload⟩)) := by
  unfold Upload.file at hfile
  split at hfile
  case h_2 => cases hfile
  case h_1 hash bytes hcommitted hplanned =>
    cases hfile
    obtain ⟨hash', bytes', key, hplanned', hstored, hkey, hsent⟩ := hkept.committed hcommitted
    obtain ⟨rfl, rfl⟩ := Prod.mk.inj (Option.some.inj (hplanned.symm.trans hplanned'))
    obtain ⟨-, draw, records, hrecorded, hencode⟩ := hkept.manifest hash bytes hplanned
    have hplan := hkept.plan
    have hordered : (upload.plan.payload records).Ordered := by
      show records.map (·.ordinal.toNat) = List.range records.length
      rw [← hrecorded.length_eq, hplan, ← hplans.ordinals, ← hplan]
      exact ordinals_of_recorded hrecorded
    have hdecode := decodeManifest_of_encodeManifest hordered hencode
    refine ⟨?_, bytes, _, hstored, bind_eq_ok.2 ⟨_, hdecode, rfl⟩⟩
    refine bind_eq_ok.2 ⟨bytes, orFails_eq_ok.2 (hfetch _ hstored), ?_⟩
    refine bind_eq_ok.2 ⟨_, mapError_eq_ok.2 hdecode, ?_⟩
    refine bind_eq_ok.2 ⟨(), by simp [validateManifestFile, NewUpload.payload], ?_⟩
    refine bind_eq_ok.2 ⟨key, mapError_eq_ok.2 hkey, ?_⟩
    have hsize := upload.plan.plaintextSize.toNat_lt
    have hlen : upload.plan.plaintextSize.toNat = source.content.length := hplan ▸ hplans.size
    refine bind_eq_ok.2 ⟨_, downloadChunks_of_sent hfetch hsent hrecorded ?_, ?_⟩
    · rw [source.flatten_pieces]
      show 0 + _ < _
      omega
    · refine guard_eq_ok.2 ⟨?_, ?_⟩
      · rw [source.flatten_pieces, not_or, not_not, not_not]
        refine ⟨?_, (hplan ▸ hplans.hash).symm⟩
        rw [UInt64.zero_add, ← hlen, UInt64.ofNat_toNat]
        rfl
      · rw [source.flatten_pieces]
        rfl

/-- What is sealed for a plan in order is opened as it was, what opens was sealed so, and a committed
file is read back by download and recovery, none of its objects larger than an agent accepts. -/
theorem written_is_read (master : Key) :
    (∀ draw fileId generation (payload : ManifestPayload) bytes, payload.Ordered →
      encodeManifest master draw fileId generation payload = .ok bytes →
      decodeManifest master bytes = .ok { fileId, generation, payload }) ∧
    (∀ bytes payload, decodePayload bytes = .ok payload → encodePayload payload = .ok bytes) ∧
    (∀ draw fileId generation deletedAt bytes,
      encodeDeletionMarker master draw fileId generation deletedAt = .ok bytes →
      decodeDeletionMarker master bytes = .ok { fileId, generation, deletedAt } ∧
      evidence master .deletionMarker bytes =
        .ok (some (.deletion { fileId, generation, deletedAt }))) ∧
    (∀ bytes deletedAt, decodeDeletedAt bytes = .ok deletedAt → Reader.i64ToLe deletedAt = bytes) ∧
    (∀ (source : Source) inspection draw plan reads upload file (fetch : Fetch),
      inspectSource source = .ok inspection → newUpload master draw inspection = .ok plan →
      (∀ read ∈ reads, Distinguishes source.content read.2) →
      Attempts master reads plan.row upload → upload.file = some file →
      (∀ object ∈ upload.objects, fetch object.1 object.2.1 = some object.2.2) →
      (∀ object ∈ upload.objects, object.2.2.length ≤ maxObjectBytes) ∧
      download master fetch file = .ok source.content ∧
      ∃ bytes payload, (.manifest, file.manifestHash, bytes) ∈ upload.objects ∧
        evidence master .manifest bytes =
          .ok (some (.manifest ⟨file.fileId, file.generation, payload⟩))) := by
  refine ⟨?_, ?_, ?_, ?_, ?_⟩
  · intro draw fileId generation payload bytes hordered h
    exact decodeManifest_of_encodeManifest hordered h
  · intro bytes payload h
    exact (decodePayload_eq_ok.1 h).2.2
  · intro draw fileId generation deletedAt bytes h
    have hdecode := decodeDeletionMarker_of_encodeDeletionMarker h
    exact ⟨hdecode, bind_eq_ok.2 ⟨_, hdecode, rfl⟩⟩
  · intro bytes deletedAt h
    exact (decodeDeletedAt_eq_ok.1 h).symm
  · intro source inspection draw plan reads upload file fetch hinspect hplan hdistinct hattempts hfile
      hfetch
    have hplans := plans_of_newUpload hinspect hplan
    have hkept := (kept_row master source plan).attempts hplans hdistinct hattempts
    exact ⟨hkept.sizes, download_of_kept hplans hkept hfile hfetch⟩

/-! ## A file of one byte -/

def sampleSource : Source := ⟨"a", [0x61]⟩

def sampleDraw : Draw := ⟨default, default, default⟩

def sampleUploadDraw : UploadDraw := ⟨default, default, default, sampleDraw, fun _ => default⟩

/-- The first object of a name. -/
def fetchFrom (objects : List StoredObject) : Fetch := fun kind hash =>
  (objects.find? fun object => object.1 = kind ∧ object.2.1 = hash).map (·.2.2)

/-- One attempt, of at most 20 steps. -/
def sampleUpload (plan : NewUpload) : Upload :=
  (play (W := uploadWorld) (fun _ => sampleDraw) 20
    (attempt default sampleSource sampleSource.content) plan.row).2

/-- The attempt stores a chunk and a manifest and commits. -/
def sampleCommits : Bool :=
  match inspectSource sampleSource with
  | .error _ => false
  | .ok inspection => match newUpload default sampleUploadDraw inspection with
    | .error _ => false
    | .ok plan => match sampleUpload plan with
      | ⟨_, _, some _, true, [(.manifest, _), (.chunk, _)]⟩ => true
      | _ => false

/-- The sample, from its plan to its objects, each of which is found under its name. -/
theorem sample_of_commits (h : sampleCommits = true) :
    ∃ inspection plan upload, inspectSource sampleSource = .ok inspection ∧
      newUpload default sampleUploadDraw inspection = .ok plan ∧
      Attempts default [(sampleSource, sampleSource.content)] plan.row upload ∧
      upload.file.isSome ∧ ∀ object ∈ upload.objects,
        fetchFrom upload.objects object.1 object.2.1 = some object.2.2 := by
  unfold sampleCommits at h
  split at h
  case h_1 => cases h
  case h_2 inspection hinspect =>
    split at h
    case h_1 => cases h
    case h_2 plan hplan =>
      have hattempts : Attempts default [(sampleSource, sampleSource.content)] plan.row
          (sampleUpload plan) := .more (runs_play (W := uploadWorld) _ _ _ _) (.none _)
      refine ⟨inspection, plan, sampleUpload plan, hinspect, hplan, hattempts, ?_⟩
      split at h
      case h_2 => cases h
      case h_1 own chunkObject planned manifest chunk hupload =>
        obtain ⟨manifestHash, manifestBytes⟩ := manifest
        obtain ⟨chunkHash, chunkBytes⟩ := chunk
        rw [hupload]
        refine ⟨rfl, fun object hobject => ?_⟩
        rcases List.mem_cons.1 hobject with rfl | hobject
        · simp [fetchFrom]
        · rw [List.mem_singleton.1 hobject]
          simp [fetchFrom]

end

theorem sample_commits : @sampleCommits Digests.standard Aead.xChaCha20Poly1305 = true := by
  decide +kernel

theorem sample_distinguishes :
    @Distinguishes Digests.standard sampleSource.content sampleSource.content := by
  have hparts (x : Bytes) (h : x <:+: [0x61]) : x = [] ∨ x = [0x61] := by
    rcases List.infix_cons_iff.1 h with hstart | hinfix
    · cases x with
      | nil => exact .inl rfl
      | cons byte x =>
        obtain ⟨rfl, hx⟩ := List.cons_prefix_cons.1 hstart
        exact .inr (congrArg _ (List.prefix_nil.1 hx))
    · exact .inl (List.infix_nil.1 hinfix)
  have hne : Blake3.hash [] ≠ Blake3.hash [0x61] := by decide +kernel
  intro x y hx hy hsame
  rcases hparts x hx with rfl | rfl
  · rcases hparts y hy with rfl | rfl
    · rfl
    · exact absurd hsame hne
  · rcases hparts y hy with rfl | rfl
    · exact absurd hsame.symm hne
    · rfl

/-- The byte comes back from the objects that were stored for it. -/
theorem written_is_read_sample : ∃ (plan : NewUpload) (upload : Upload) (file : FileRecord),
    @Attempts Digests.standard Aead.xChaCha20Poly1305 default
      [(sampleSource, sampleSource.content)] plan.row upload ∧ upload.file = some file ∧
    @download Digests.standard Aead.xChaCha20Poly1305 default (fetchFrom upload.objects) file =
      .ok [0x61] := by
  obtain ⟨inspection, plan, upload, hinspect, hplan, hattempts, hfile, hfetch⟩ :=
    @sample_of_commits Digests.standard Aead.xChaCha20Poly1305 sample_commits
  obtain ⟨file, hfile⟩ := Option.isSome_iff_exists.1 hfile
  refine ⟨plan, upload, file, hattempts, hfile, ?_⟩
  have hread := (@written_is_read Digests.standard Aead.xChaCha20Poly1305 default).2.2.2.2
  exact (hread sampleSource inspection sampleUploadDraw plan _ upload file _ hinspect hplan
    (fun read hread => List.mem_singleton.1 hread ▸ sample_distinguishes) hattempts hfile hfetch).2.1

end Format

end DistrHnsw
