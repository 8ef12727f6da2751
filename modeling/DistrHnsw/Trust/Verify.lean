import DistrHnsw.Trust.KeySet

/-!
# What a grant is accepted for

`KeySet.verify` accepts exactly the grants that are signed under a listed key, say what is expected
of them and are in time.  Times are 64-bit numbers there and integers here; the additions that stop at
the ends of the range agree with the integers.
-/

namespace DistrHnsw

namespace Trust

open Reader

/-! ## Times as integers -/

theorem toInt_ofIntClamp (x : ℤ) :
    (Int64.ofIntClamp x).toInt = max (-2 ^ 63) (min x (2 ^ 63 - 1)) := by
  have hmin : Int64.minValue.toInt = -2 ^ 63 := by decide
  have hmax : Int64.maxValue.toInt = 2 ^ 63 - 1 := by decide
  unfold Int64.ofIntClamp
  split
  · split
    · rw [Int64.toInt_ofIntLE]
      omega
    · omega
  · omega

/-- A lifetime that stops at the end of the range is still too long. -/
theorem lt_saturatingSub {a b bound : Int64} (hbound : bound.toInt < 2 ^ 63 - 1) (h : -2 ^ 63 ≤ bound.toInt) :
    bound < saturatingSub a b ↔ bound.toInt < a.toInt - b.toInt := by
  unfold saturatingSub
  rw [Int64.lt_iff_toInt_lt, toInt_ofIntClamp]
  omega

/-- No time is later than the end of the range. -/
theorem saturatingAdd_lt {a skew time : Int64} (hskew : 0 ≤ skew.toInt) :
    saturatingAdd a skew < time ↔ skew.toInt < time.toInt - a.toInt := by
  have htime := time.toInt_lt
  have ha := a.le_toInt
  unfold saturatingAdd
  rw [Int64.lt_iff_toInt_lt, toInt_ofIntClamp]
  omega

section

variable [Ed25519] {set : KeySet} {token : List Char} {expect : Expectation} {now : Int64} {grant : Grant}

/-! ## Accepted grants -/

/-- The token is the encoding of the grant and a signature, which the key listed under the grant's
identifier verifies. -/
def KeySet.Vouches (set : KeySet) (token : List Char) (grant : Grant) : Prop :=
  grant.Fits ∧ ∃ key signature, set.key grant.keyId = some key ∧
    trim token = Base64.encode (grant.encodeBody ++ signature.1) ∧
      Ed25519.verifies key.publicKey (signedMessage grantDomain grant.encodeBody) signature = true

/-- The grant says what is expected of it, and is in time. -/
structure KeySet.Grants (set : KeySet) (expect : Expectation) (now : Int64) (grant : Grant) : Prop where
  epoch : grant.epoch = set.epoch
  agent : grant.agentId = expect.agentId
  operation : grant.operation = expect.operation
  scope : grant.scope = expect.scope
  proof : grant.operation = .delete → grant.gcProof ≠ none
  ordered : 0 ≤ grant.expiresAt.toInt - grant.issuedAt.toInt
  lifetime : grant.expiresAt.toInt - grant.issuedAt.toInt ≤ maxGrantLifetimeSeconds.toInt
  unexpired : now.toInt - grant.expiresAt.toInt ≤ clockSkewSeconds.toInt
  started : grant.issuedAt.toInt - now.toInt ≤ clockSkewSeconds.toInt

omit [Ed25519] in
theorem splitToken_eq_ok {raw body : Bytes} {signature : Signature} :
    splitToken raw = .ok (body, signature) ↔ raw = body ++ signature.1 := by
  unfold splitToken
  constructor
  · intro h
    split at h
    · cases h
    · cases h
      exact (List.take_append_drop _ _).symm
  · rintro rfl
    have hlen : (body ++ signature.1).length = body.length + 64 := by
      rw [List.length_append, signature.2]
    rw [dif_neg (by omega)]
    have hbody : (body ++ signature.1).length - 64 = body.length := by omega
    congr 2
    · rw [hbody, List.take_left]
    · apply Subtype.ext
      show List.drop _ _ = _
      rw [hbody, List.drop_left]

/-- The checks of a decoded grant. -/
theorem checks_eq_ok {grant' : Grant} :
    (if grant.epoch < set.epoch then .error (.staleEpoch grant.epoch set.epoch)
    else if grant.epoch > set.epoch then .error (.newerEpoch grant.epoch set.epoch)
    else if grant.agentId ≠ expect.agentId then .error (.wrongAgent grant.agentId)
    else if grant.operation ≠ expect.operation then .error .wrongOperation
    else if grant.scope ≠ expect.scope then .error .wrongObject
    else if grant.operation = .delete ∧ grant.gcProof = none then .error .deleteWithoutProof
    else if saturatingSub grant.expiresAt grant.issuedAt > maxGrantLifetimeSeconds ∨
        grant.expiresAt < grant.issuedAt then .error .lifetimeTooLong
    else if now > saturatingAdd grant.expiresAt clockSkewSeconds then .error .expired
    else if grant.issuedAt > saturatingAdd now clockSkewSeconds then .error .notYetValid
    else (pure grant : Except GrantError Grant)) = .ok grant' ↔
      set.Grants expect now grant ∧ grant = grant' := by
  have hskew : (0 : ℤ) ≤ clockSkewSeconds.toInt := by decide
  simp only [guard_eq_ok, gt_iff_lt, not_not, not_or, not_and, pure_eq_ok, Except.ok.injEq]
  rw [lt_saturatingSub (by decide) (by decide), saturatingAdd_lt hskew, saturatingAdd_lt hskew,
    Int64.lt_iff_toInt_lt, UInt64.lt_iff_toNat_lt, UInt64.lt_iff_toNat_lt]
  constructor
  · rintro ⟨hnewer, holder, hagent, hoperation, hscope, hproof, ⟨hlifetime, hordered⟩, hexpired,
      hstarted, heq⟩
    exact ⟨⟨UInt64.toNat_inj.1 (by omega), hagent, hoperation, hscope, hproof, by omega, by omega,
      by omega, by omega⟩, heq⟩
  · rintro ⟨⟨hepoch, hagent, hoperation, hscope, hproof, hordered, hlifetime, hexpired, hstarted⟩,
      heq⟩
    rw [hepoch]
    exact ⟨lt_irrefl _, lt_irrefl _, hagent, hoperation, hscope, hproof, ⟨by omega, by omega⟩,
      by omega, by omega, heq⟩

/-- A grant is accepted exactly when it is vouched for and says what is expected. -/
theorem KeySet.verify_eq_ok :
    set.verify token expect now = .ok grant ↔ set.Vouches token grant ∧ set.Grants expect now grant := by
  unfold KeySet.verify
  constructor
  · intro h
    obtain ⟨raw, hraw, h₁⟩ := bind_eq_ok.1 h
    obtain ⟨⟨body, signature⟩, hsplit, h₂⟩ := bind_eq_ok.1 h₁
    obtain ⟨own, hbody, h₃⟩ := bind_eq_ok.1 h₂
    obtain ⟨hfits, rfl⟩ := Grant.decodeBody_eq_ok.1 hbody
    split at h₃
    · cases h₃
    · next key hkey =>
      obtain ⟨hverifies, h₄⟩ := guard_eq_ok.1 h₃
      obtain ⟨hgrants, rfl⟩ := checks_eq_ok.1 h₄
      have htoken := Base64.decode_eq_some_iff.1 (orMalformed_eq_ok.1 hraw)
      rw [splitToken_eq_ok.1 hsplit] at htoken
      exact ⟨⟨hfits, key, signature, hkey, htoken, by simpa using hverifies⟩, hgrants⟩
  · rintro ⟨⟨hfits, key, signature, hkey, htoken, hverifies⟩, hgrants⟩
    refine bind_eq_ok.2 ⟨_, orMalformed_eq_ok.2 (Base64.decode_eq_some_iff.2 htoken), ?_⟩
    refine bind_eq_ok.2 ⟨_, splitToken_eq_ok.2 rfl, ?_⟩
    refine bind_eq_ok.2 ⟨grant, Grant.decodeBody_eq_ok.2 ⟨hfits, rfl⟩, ?_⟩
    rw [hkey]
    exact guard_eq_ok.2 ⟨by simpa using hverifies, checks_eq_ok.2 ⟨hgrants, rfl⟩⟩

/-- With one key under each identifier, the key found is the one listed. -/
theorem KeySet.key_eq_some {keyId : KeyId} {key : TrustedKey} (h : (set.keys.map (·.keyId)).Nodup) :
    set.key keyId = some key ↔ key ∈ set.keys ∧ key.keyId = keyId := by
  unfold KeySet.key
  constructor
  · intro hfind
    exact ⟨List.mem_of_find?_eq_some hfind, by simpa using List.find?_some hfind⟩
  · rintro ⟨hmem, rfl⟩
    obtain ⟨other, hother⟩ : ∃ other, set.keys.find? (·.keyId = key.keyId) = some other :=
      Option.isSome_iff_exists.1 (List.find?_isSome.2 ⟨key, hmem, by simp⟩)
    have hsame : other.keyId = key.keyId := by simpa using List.find?_some hother
    rw [hother, List.inj_on_of_nodup_map h (List.mem_of_find?_eq_some hother) hmem hsame]

/-- A token is accepted for exactly the grant it encodes and that is valid, and only within its lifetime
and the tolerated clock difference on both sides. -/
theorem verify_accepts_exactly_valid_grants (set : KeySet) (token : List Char) (expect : Expectation)
    (now : Int64) (grant : Grant) :
    (set.verify token expect now = .ok grant ↔
      set.Vouches token grant ∧ set.Grants expect now grant) ∧
    ((set.keys.map (·.keyId)).Nodup → ∀ key, set.key grant.keyId = some key ↔
      key ∈ set.keys ∧ key.keyId = grant.keyId) ∧
    (∀ later, set.verify token expect now = .ok grant → set.verify token expect later = .ok grant →
      later.toInt - now.toInt ≤ maxGrantLifetimeSeconds.toInt + 2 * clockSkewSeconds.toInt) := by
  refine ⟨KeySet.verify_eq_ok, fun h _ => KeySet.key_eq_some h, fun later hnow hlater => ?_⟩
  obtain ⟨-, hfirst⟩ := KeySet.verify_eq_ok.1 hnow
  obtain ⟨-, hlast⟩ := KeySet.verify_eq_ok.1 hlater
  have hlifetime := hfirst.lifetime
  have hstarted := hfirst.started
  have hunexpired := hlast.unexpired
  omega

end

end Trust

end DistrHnsw
