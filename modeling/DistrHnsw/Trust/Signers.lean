import DistrHnsw.Trust.Forward

/-!
# Whose signatures a key set carries

Parsing is documented to check that each signature comes from a key the set itself lists, and does
not look.  `Documented` sets are those with listed signers only; a byte string is parsed as
documented unless it is a valid set with a signature under another identifier.
-/

namespace DistrHnsw

namespace Trust

section

variable [Ed25519] [Digests]

/-- The set lists a key under the identifier of each signature. -/
def SignedKeySet.Listed (set : SignedKeySet) : Prop :=
  ∀ signature ∈ set.signatures, ∃ key ∈ set.keySet.keys, key.keyId = signature.1

/-- What parsing is documented to accept. -/
def SignedKeySet.Documented (set : SignedKeySet) : Prop := set.Valid ∧ set.Listed

/-- The bytes parse exactly when they are those of a documented set, and what they parse to has no
other bytes. -/
def ParsesAsDocumented (bytes : Bytes) : Prop :=
  ((∃ set, SignedKeySet.fromBytes bytes = .ok set) ↔
    ∃ set : SignedKeySet, set.Documented ∧ bytes = set.toBytes) ∧
  ∀ set, SignedKeySet.fromBytes bytes = .ok set → set.toBytes = bytes

/-- The bytes are those of a valid set with a signature under an identifier it does not list. -/
def HasUnlistedSigner (bytes : Bytes) : Prop :=
  ∃ set : SignedKeySet, set.Valid ∧ ¬ set.Listed ∧ bytes = set.toBytes

/-- A valid set has its bytes to itself. -/
theorem SignedKeySet.toBytes_inj {a b : SignedKeySet} (ha : a.Valid) (hb : b.Valid)
    (h : a.toBytes = b.toBytes) : a = b := by
  have hparse : SignedKeySet.fromBytes a.toBytes = .ok a := SignedKeySet.fromBytes_eq_ok.2 ⟨ha, rfl⟩
  have hparse' : SignedKeySet.fromBytes a.toBytes = .ok b := SignedKeySet.fromBytes_eq_ok.2 ⟨hb, h⟩
  exact Except.ok.inj (hparse.symm.trans hparse')

/-- Key sets are parsed as documented except those with an unlisted signer. -/
theorem parsesAsDocumented_iff (bytes : Bytes) :
    ParsesAsDocumented bytes ↔ ¬ HasUnlistedSigner bytes := by
  constructor
  · rintro ⟨hparses, -⟩ ⟨set, hvalid, hunlisted, rfl⟩
    obtain ⟨other, ⟨hother, hlisted⟩, hsame⟩ :=
      hparses.1 ⟨set, SignedKeySet.fromBytes_eq_ok.2 ⟨hvalid, rfl⟩⟩
    obtain rfl := SignedKeySet.toBytes_inj hvalid hother hsame
    exact hunlisted hlisted
  · intro hnone
    refine ⟨⟨?_, ?_⟩, ?_⟩
    · rintro ⟨set, hset⟩
      obtain ⟨hvalid, hbytes⟩ := SignedKeySet.fromBytes_eq_ok.1 hset
      refine ⟨set, ⟨hvalid, ?_⟩, hbytes⟩
      by_contra hunlisted
      exact hnone ⟨set, hvalid, hunlisted, hbytes⟩
    · rintro ⟨set, ⟨hvalid, -⟩, hbytes⟩
      exact ⟨set, SignedKeySet.fromBytes_eq_ok.2 ⟨hvalid, hbytes⟩⟩
    · intro set hset
      exact (SignedKeySet.fromBytes_eq_ok.1 hset).2.symm

end

section

local instance signersEd25519 : Ed25519 := plainScheme

local instance signersDigests : Digests := firstBytes

/-- The set of one key, signed by another. -/
def strangerSet : SignedKeySet :=
  (ownSet 1 1).keySet.sign [signerOf 2]

theorem strangerSet_unlisted : HasUnlistedSigner strangerSet.toBytes := by
  have hvalid := valid_ownSet 1 1
  refine ⟨strangerSet, ⟨hvalid.keySet, rfl, Nat.le_refl 1, ?_⟩, ?_, rfl⟩
  · show 1 ≤ maxKeys
    decide
  · intro hlisted
    obtain ⟨key, hkey, hid⟩ := hlisted _ List.mem_cons_self
    rw [List.mem_singleton.1 hkey] at hid
    exact absurd hid (by decide)

end

theorem stranger_signature_parses :
    ¬ ∀ (_ : Ed25519) (_ : Digests) (bytes : Bytes), ParsesAsDocumented bytes := by
  intro h
  have hparses := h plainScheme firstBytes (@strangerSet.toBytes)
  exact (@parsesAsDocumented_iff plainScheme firstBytes _).1 hparses strangerSet_unlisted

end Trust

end DistrHnsw
