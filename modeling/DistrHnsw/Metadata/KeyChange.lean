import DistrHnsw.Metadata.Access

/-!
# What a write does to the keys

Of all writes to keys, joins and identities only four touch the signing keys and the counters beside
them, and the counters only grow.
-/

namespace DistrHnsw

namespace Metadata

/-- The previous active key keeps verifying. -/
def SigningKeyRow.retire (row : SigningKeyRow) : SigningKeyRow :=
  if row.status = .active then { row with status := .retiring } else row

def SigningKeyRow.revoke (id : KeyId) (row : SigningKeyRow) : SigningKeyRow :=
  if row.keyId = id then { row with status := .revoked } else row

/-- The counters one version on, and one epoch if it is a new one. -/
def GrantState.bump (state : GrantState) (newEpoch : Bool) : GrantState :=
  ⟨state.epoch + newEpoch.toNat, state.keySetVersion + 1⟩

/-- What a write does to the signing keys and to the counters. -/
inductive KeyChange (a b : Access) : AccessWrite → Prop
  | kept {w : AccessWrite} (keys : b.signingKeys = a.signingKeys) (state : b.grantState = a.grantState) :
      KeyChange a b w
  | first {row : SigningKeyRow} (none : ∀ key ∈ a.signingKeys, key.status ≠ .active)
      (fresh : ∀ key ∈ a.signingKeys, key.keyId ≠ row.keyId)
      (keys : b.signingKeys = a.signingKeys ++ [row]) (state : b.grantState = a.grantState) :
      KeyChange a b (.insertFirstSigningKey row)
  | rotated {row : SigningKeyRow} (fresh : ∀ key ∈ a.signingKeys, key.keyId ≠ row.keyId)
      (keys : b.signingKeys = a.signingKeys.map (·.retire) ++ [row])
      (state : b.grantState = a.grantState.bump false) : KeyChange a b (.rotateSigningKey row)
  | ended {id : KeyId} {revoke : Bool} {key : SigningKeyRow} (found : key ∈ a.signingKeys)
      (own : key.keyId = id) (retiring : key.status = .retiring)
      (keys : b.signingKeys = a.signingKeys.map (·.revoke id))
      (state : b.grantState = a.grantState.bump revoke) : KeyChange a b (.endSigningKey id revoke)
  | rejoined {join : AgentJoin} {token : TokenHash} {now : Time}
      (keys : b.signingKeys = a.signingKeys) (state : b.grantState = a.grantState.bump true) :
      KeyChange a b (.recordAgentJoin join token now)

variable {a b : Access} {row : SigningKeyRow} {w : AccessWrite}

theorem insertSigningKey_eq_ok (h : a.insertSigningKey row = .ok b) :
    (∀ key ∈ a.signingKeys, key.keyId ≠ row.keyId) ∧ b.signingKeys = a.signingKeys ++ [row] ∧
      b.grantState = a.grantState := by
  obtain ⟨hfresh, h₁⟩ := guard_eq_ok.1 h
  cases h₁
  refine ⟨fun key hkey hsame => hfresh ?_, rfl, rfl⟩
  rw [List.any_eq_true]
  exact ⟨key, hkey, by simp [hsame]⟩

theorem insertFirstSigningKey_change (h : a.insertFirstSigningKey row = .ok b) :
    KeyChange a b (.insertFirstSigningKey row) := by
  unfold Access.insertFirstSigningKey at h
  split at h
  · cases h
    exact .kept rfl rfl
  · next hnone =>
    obtain ⟨hfresh, hkeys, hstate⟩ := insertSigningKey_eq_ok h
    refine .first (fun key hkey hactive => hnone ?_) hfresh hkeys hstate
    rw [List.any_eq_true]
    exact ⟨key, hkey, by rw [hactive]; rfl⟩

theorem rotateSigningKey_change (h : a.rotateSigningKey row = .ok b) :
    KeyChange a b (.rotateSigningKey row) := by
  obtain ⟨c, hinsert, h₁⟩ := bind_eq_ok.1 h
  cases h₁
  obtain ⟨hfresh, hkeys, hstate⟩ := insertSigningKey_eq_ok hinsert
  refine .rotated (fun key hkey hsame => hfresh key.retire (List.mem_map_of_mem hkey) ?_) hkeys ?_
  · unfold SigningKeyRow.retire
    split <;> exact hsame
  · show GrantState.bump c.grantState false = _
    rw [hstate]

theorem endSigningKey_change {id : KeyId} {revoke : Bool} (h : a.endSigningKey id revoke = .ok b) :
    KeyChange a b (.endSigningKey id revoke) := by
  unfold Access.endSigningKey at h
  split at h
  · cases h
  · cases h
  · cases h
    exact .kept rfl rfl
  · next hfind =>
    cases h
    obtain ⟨key, hkey, hretiring⟩ := Option.map_eq_some_iff.1 hfind
    exact .ended (List.mem_of_find?_eq_some hkey) (by simpa using List.find?_some hkey) hretiring rfl rfl

theorem recordAgentJoin_change {join : AgentJoin} {token : TokenHash} {now : Time}
    (h : a.recordAgentJoin join token now = .ok b) : KeyChange a b (.recordAgentJoin join token now) := by
  obtain ⟨-, h₁⟩ := guard_eq_ok.1 h
  dsimp only at h₁
  split at h₁
  · cases h₁
    exact .rejoined rfl rfl
  · cases h₁
    exact .kept rfl rfl

/-- What any write does to the keys. -/
theorem perform_change (h : w.perform a = .ok b) : KeyChange a b w := by
  cases w with
  | insertFirstSigningKey row => exact insertFirstSigningKey_change h
  | rotateSigningKey row => exact rotateSigningKey_change h
  | endSigningKey id revoke => exact endSigningKey_change h
  | recordAgentJoin join token now => exact recordAgentJoin_change h
  | insertJoinToken token agent expiresAt =>
    obtain ⟨-, h₁⟩ := guard_eq_ok.1 h
    cases h₁
    exact .kept rfl rfl
  | addUser id displayName login now =>
    obtain ⟨-, h₁⟩ := guard_eq_ok.1 h
    obtain ⟨-, h₂⟩ := guard_eq_ok.1 h₁
    cases h₂
    exact .kept rfl rfl
  | disableUser id now =>
    obtain ⟨-, h₁⟩ := guard_eq_ok.1 h
    cases h₁
    exact .kept rfl rfl
  | insertSession row =>
    obtain ⟨-, h₁⟩ := guard_eq_ok.1 h
    cases h₁
    exact .kept rfl rfl
  | insertApiKey row =>
    obtain ⟨-, h₁⟩ := guard_eq_ok.1 h
    cases h₁
    exact .kept rfl rfl
  | touchSession id now =>
    cases h
    exact .kept rfl rfl
  | revokeSession id now reason =>
    cases h
    exact .kept rfl rfl
  | pruneSessions cutoff =>
    cases h
    exact .kept rfl rfl
  | revokeApiKey id user now =>
    cases h
    exact .kept rfl rfl
  | touchApiKey id now =>
    cases h
    exact .kept rfl rfl

/-! ## The counters -/

/-- The counters grow together, and the epoch only with the version. -/
structure GrantState.Le (old new : GrantState) : Prop where
  epoch : old.epoch ≤ new.epoch
  version : old.keySetVersion ≤ new.keySetVersion
  together : new.epoch - old.epoch ≤ new.keySetVersion - old.keySetVersion

theorem GrantState.Le.refl (state : GrantState) : state.Le state :=
  ⟨Nat.le_refl _, Nat.le_refl _, by omega⟩

theorem GrantState.Le.trans {x y z : GrantState} (h : x.Le y) (h' : y.Le z) : x.Le z := by
  obtain ⟨h₁, h₂, h₃⟩ := h
  obtain ⟨h₄, h₅, h₆⟩ := h'
  exact ⟨by omega, by omega, by omega⟩

theorem GrantState.le_bump (state : GrantState) (newEpoch : Bool) : state.Le (state.bump newEpoch) := by
  cases newEpoch <;> exact ⟨by simp [bump], by simp [bump], by simp [bump]⟩

theorem KeyChange.le (h : KeyChange a b w) : a.grantState.Le b.grantState := by
  cases h with
  | kept keys state => exact state ▸ .refl _
  | first none fresh keys state => exact state ▸ .refl _
  | rotated fresh keys state => exact state ▸ GrantState.le_bump _ _
  | ended found own retiring keys state => exact state ▸ GrantState.le_bump _ _
  | rejoined keys state => exact state ▸ GrantState.le_bump _ _

/-! ## One active key -/

/-- A key that is written is active. -/
def AccessWrite.StoresActive : AccessWrite → Prop
  | .insertFirstSigningKey row => row.status = .active
  | .rotateSigningKey row => row.status = .active
  | _ => True

/-- One row for each identifier, and one active key as soon as there is a key. -/
structure Access.Keyed (access : Access) : Prop where
  nodup : (access.signingKeys.map (·.keyId)).Nodup
  active : access.signingKeys ≠ [] → (access.signingKeys.filter (·.status = .active)).length = 1

theorem keyed_new : Database.new.toAccess.Keyed := ⟨List.nodup_nil, fun h => absurd rfl h⟩

@[simp] theorem retire_keyId (row : SigningKeyRow) : row.retire.keyId = row.keyId := by
  unfold SigningKeyRow.retire
  split <;> rfl

@[simp] theorem revoke_keyId (id : KeyId) (row : SigningKeyRow) : (row.revoke id).keyId = row.keyId := by
  unfold SigningKeyRow.revoke
  split <;> rfl

theorem retire_status (row : SigningKeyRow) : row.retire.status ≠ .active := by
  unfold SigningKeyRow.retire
  split
  · exact SigningKeyStatus.noConfusion
  · assumption

theorem nodup_append_row (hnodup : (a.signingKeys.map (·.keyId)).Nodup)
    (hfresh : ∀ key ∈ a.signingKeys, key.keyId ≠ row.keyId) :
    (a.signingKeys.map (·.keyId) ++ [row.keyId]).Nodup := by
  refine List.nodup_append.2 ⟨hnodup, List.nodup_singleton _, fun id hid other hother => ?_⟩
  obtain ⟨key, hkey, rfl⟩ := List.mem_map.1 hid
  rw [List.mem_singleton.1 hother]
  exact hfresh key hkey

theorem Access.Keyed.change (h : a.Keyed) (hchange : KeyChange a b w) (hactive : w.StoresActive) :
    b.Keyed := by
  obtain ⟨hnodup, hone⟩ := h
  cases hchange with
  | kept keys state => exact ⟨keys ▸ hnodup, keys ▸ hone⟩
  | rejoined keys state => exact ⟨keys ▸ hnodup, keys ▸ hone⟩
  | @first row none fresh keys state =>
    have hempty : a.signingKeys = [] := by
      by_contra hsome
      obtain ⟨key, hkey⟩ := List.exists_mem_of_length_pos (by rw [hone hsome]; exact Nat.one_pos)
      obtain ⟨hmem, hstatus⟩ := List.mem_filter.1 hkey
      exact none key hmem (of_decide_eq_true hstatus)
    rw [hempty, List.nil_append] at keys
    have hrow : row.status = .active := hactive
    refine ⟨?_, fun _ => ?_⟩
    · rw [keys]
      exact List.nodup_singleton _
    · rw [keys, List.filter_cons_of_pos (by simpa using hrow)]
      rfl
  | @rotated row fresh keys state =>
    have hrow : row.status = .active := hactive
    refine ⟨?_, fun _ => ?_⟩
    · rw [keys, List.map_append, List.map_map]
      have hsame : ((·.keyId) ∘ fun key : SigningKeyRow => key.retire) = (·.keyId) :=
        funext retire_keyId
      rw [hsame]
      exact nodup_append_row hnodup fresh
    · have hnone : (a.signingKeys.map (·.retire)).filter (·.status = .active) = [] := by
        rw [List.filter_eq_nil_iff]
        intro key hkey
        obtain ⟨old, -, rfl⟩ := List.mem_map.1 hkey
        simpa using retire_status old
      rw [keys, List.filter_append, hnone, List.filter_cons_of_pos (by simpa using hrow)]
      rfl
  | @ended id revoke key found own retiring keys state =>
    have hids : b.signingKeys.map (·.keyId) = a.signingKeys.map (·.keyId) := by
      rw [keys, List.map_map]
      exact List.map_congr_left fun row _ => revoke_keyId id row
    refine ⟨hids ▸ hnodup, fun _ => ?_⟩
    have hsome : a.signingKeys ≠ [] := List.ne_nil_of_mem found
    -- The ended key was not the active one, and the others keep their status.
    have hstatus (row : SigningKeyRow) (hrow : row ∈ a.signingKeys) :
        (row.revoke id).status = .active ↔ row.status = .active := by
      unfold SigningKeyRow.revoke
      split
      · next hid =>
        have hsame : row = key := List.inj_on_of_nodup_map hnodup hrow found (hid.trans own.symm)
        rw [hsame, retiring]
        simp
      · exact Iff.rfl
    rw [keys, List.filter_map, List.length_map, ← hone hsome]
    congr 1
    exact List.filter_congr fun row hrow => decide_eq_decide.2 (hstatus row hrow)

end Metadata

end DistrHnsw
