import DistrHnsw.Trust.Store

/-!
# Trust moves forward

As long as every call starts with the memory and the volume in step, an agent's key set only becomes
newer, every set is vouched for, an armed token is spent once, and what is loaded after a crash is the
last accepted state or that of the interrupted call.  A call that failed halfway may leave the two out
of step; the next call on the same store then mixes two portals.
-/

namespace DistrHnsw

namespace Trust

open Reader

section

variable [Ed25519] [Digests] {v w : Volume} {x y z : Host} {past later : List Event} {event : Event}
  {call : Call} {plan : Plan} {m l : Option AgentTrust} {t t' : AgentTrust}

/-! ## Loading -/

theorem load_congr (hset : v.keySet = w.keySet) (hnode : v.portalNode = w.portalNode) :
    v.load = w.load := by
  unfold Volume.load
  rw [hset, hnode]

theorem load_keySet {keySet : SignedKeySet} (hvalid : keySet.Valid)
    (h : v.keySet = some keySet.toBytes) : v.load = .ok (some ⟨keySet, v.portalNode.map trim⟩) := by
  unfold Volume.load
  rw [h]
  dsimp only
  rw [SignedKeySet.fromBytes_eq_ok.2 ⟨hvalid, rfl⟩]

theorem load_eq_none : v.load = .ok none ↔ v.keySet = none := by
  unfold Volume.load
  cases v.keySet with
  | none => simp
  | some bytes =>
    dsimp only
    cases SignedKeySet.fromBytes bytes <;> simp

theorem load_eq_some (h : v.load = .ok (some t)) : t.portalNode = v.portalNode.map trim := by
  unfold Volume.load at h
  split at h
  · cases h
  · split at h
    · cases h
      rfl
    · cases h

omit [Ed25519] [Digests] in
theorem take_one (a : FileStep) (n : ℕ) : [a].take n = [] ∨ [a].take n = [a] := by
  rcases n with _ | n
  · exact .inl rfl
  · exact .inr (List.take_of_length_le (Nat.le_add_left 1 n))

omit [Ed25519] [Digests] in
theorem take_three (a b c : FileStep) (n : ℕ) : [a, b, c].take n = [] ∨ [a, b, c].take n = [a] ∨
    [a, b, c].take n = [a, b] ∨ [a, b, c].take n = [a, b, c] := by
  rcases n with _ | _ | _ | n
  · exact .inl rfl
  · exact .inr (.inl rfl)
  · exact .inr (.inr (.inl rfl))
  · exact .inr (.inr (.inr (List.take_of_length_le (Nat.le_add_left 3 n))))

theorem load_openSteps (n : ℕ) : (v.after (v.openSteps.take n)).load = v.load := by
  unfold Volume.openSteps
  split
  · rcases take_one .removeToken n with h | h <;> rw [h] <;> exact load_congr rfl rfl
  · rw [List.take_nil]
    rfl

/-! ## One call -/

/-- The identifier of the portal's node has no white space around it. -/
def Call.Trimmed : Call → Prop
  | .join _ _ _ portalNode => ∀ node, portalNode = some node → trim node = node
  | _ => True

/-- What the plan of a join says about the call. -/
theorem join_eq_ok {token : List Char} {keySet : SignedKeySet} {portalNode : Option (List Char)}
    (h : join v m token keySet portalNode = .ok plan) :
    m = none ∧ (∃ stored, v.token = some stored ∧ hashFromHex (trim stored) = some (tokenDigest token)) ∧
      keySet.selfSigned = true ∧ plan = ⟨[pinNode portalNode, .replaceKeySet keySet.toBytes,
        .removeToken], some ⟨keySet, portalNode⟩⟩ := by
  unfold join at h
  obtain ⟨hjoined, h₁⟩ := guard_eq_ok.1 h
  split at h₁
  · cases h₁
  · next stored hstored =>
    split at h₁
    · cases h₁
    · next hash hhash =>
      obtain ⟨htoken, h₂⟩ := guard_eq_ok.1 h₁
      obtain ⟨hsigned, h₃⟩ := guard_eq_ok.1 h₂
      cases h₃
      rw [not_not.1 htoken] at hhash
      exact ⟨by simpa using hjoined, ⟨stored, hstored, hhash⟩, by simpa using hsigned, rfl⟩

/-- A newer version, and no older epoch. -/
def Newer (old new : AgentTrust) : Prop :=
  old.keySet.keySet.version < new.keySet.keySet.version ∧
    old.keySet.keySet.epoch ≤ new.keySet.keySet.epoch

omit [Digests] in
theorem Newer.trans {t'' : AgentTrust} (h : Newer t t') (h' : Newer t' t'') : Newer t t'' :=
  ⟨UInt64.lt_trans h.1 h'.1, UInt64.le_trans h.2 h'.2⟩

omit [Digests] in
/-- What the plan of an update says about the call. -/
theorem update_eq_ok {offered : SignedKeySet} (h : update m offered = .ok plan) :
    ∃ t, m = some t ∧ offered.signedBy t.keySet.keySet = true ∧
      Newer t { t with keySet := offered } ∧
      plan = ⟨[.replaceKeySet offered.toBytes], some { t with keySet := offered }⟩ := by
  unfold update at h
  split at h
  · cases h
  · next t =>
    obtain ⟨hsigned, h₁⟩ := guard_eq_ok.1 h
    obtain ⟨hversion, h₂⟩ := guard_eq_ok.1 h₁
    obtain ⟨hepoch, h₃⟩ := guard_eq_ok.1 h₂
    cases h₃
    exact ⟨t, rfl, by simpa using hsigned, ⟨UInt64.not_le.1 hversion, UInt64.not_lt.1 hepoch⟩, rfl⟩

/-- The volume of a finished join. -/
theorem load_joined {keySet : SignedKeySet} (hvalid : keySet.Valid) {portalNode : Option (List Char)}
    (htrimmed : ∀ node, portalNode = some node → trim node = node)
    (hset : v.keySet = some keySet.toBytes) (hnode : v.portalNode = portalNode) :
    v.load = .ok (some ⟨keySet, portalNode⟩) := by
  rw [load_keySet hvalid hset, hnode]
  cases portalNode with
  | none => rfl
  | some node =>
    rw [Option.map_some, htrimmed node rfl]

omit [Ed25519] [Digests] in
theorem pinNode_run (portalNode : Option (List Char)) :
    (pinNode portalNode).run v = { v with portalNode } := by
  cases portalNode <;> rfl

/-- However far a call gets, the volume says what it said before or what the call is for. -/
theorem Call.load_after (hload : v.load = .ok m) (hplan : call.plan v m = .ok plan)
    (htrimmed : call.Trimmed) (n : ℕ) :
    (v.after (plan.steps.take n)).load = .ok m ∨
      (v.after (plan.steps.take n)).load = .ok plan.state := by
  cases call with
  | armJoinToken token =>
    cases hplan
    unfold Trust.armJoinToken
    split
    · rw [List.take_nil]
      exact .inl hload
    · rcases take_one (.replaceToken (joinTokenHash token)) n with h | h <;> dsimp only <;> rw [h]
      · exact .inl hload
      · exact .inl ((load_congr rfl rfl).trans hload)
  | resetAndArm token =>
    cases hplan
    have hremoved {bytes : List FileStep} (h : (v.after bytes).keySet = none) :
        (v.after bytes).load = .ok none := load_eq_none.2 h
    rcases take_three (.replaceToken (joinTokenHash token)) .removeKeySet .removeNode n
      with h | h | h | h <;> dsimp only [Trust.resetAndArm] <;> rw [h]
    · exact .inl hload
    · exact .inl ((load_congr rfl rfl).trans hload)
    · exact .inr (hremoved rfl)
    · exact .inr (hremoved rfl)
  | join token keySet valid portalNode =>
    obtain ⟨rfl, -, -, rfl⟩ := join_eq_ok hplan
    rcases take_three (pinNode portalNode) (.replaceKeySet keySet.toBytes) .removeToken n
      with h | h | h | h <;> dsimp only <;> rw [h]
    · exact .inl hload
    · refine .inl (load_eq_none.2 ?_)
      show ((pinNode portalNode).run v).keySet = none
      rw [pinNode_run]
      exact (load_eq_none.1 hload : v.keySet = none)
    · refine .inr (load_joined valid htrimmed rfl ?_)
      show ((pinNode portalNode).run v).portalNode = portalNode
      rw [pinNode_run]
    · refine .inr (load_joined valid htrimmed rfl ?_)
      show ((pinNode portalNode).run v).portalNode = portalNode
      rw [pinNode_run]
  | update offered valid =>
    obtain ⟨t, rfl, -, -, rfl⟩ := update_eq_ok hplan
    rcases take_one (.replaceKeySet offered.toBytes) n with h | h <;> dsimp only <;> rw [h]
    · exact .inl hload
    · refine .inr ((load_keySet valid rfl).trans ?_)
      rw [load_eq_some hload]
      rfl

/-- After a whole call the volume says what the call is for. -/
theorem Call.load_done (hload : v.load = .ok m) (hplan : call.plan v m = .ok plan)
    (htrimmed : call.Trimmed) : (v.after plan.steps).load = .ok plan.state := by
  cases call with
  | armJoinToken token =>
    cases hplan
    unfold Trust.armJoinToken
    split
    · exact hload
    · exact (load_congr rfl rfl).trans hload
  | resetAndArm token =>
    cases hplan
    exact load_eq_none.2 rfl
  | join token keySet valid portalNode =>
    obtain ⟨rfl, -, -, rfl⟩ := join_eq_ok hplan
    refine load_joined valid htrimmed rfl ?_
    show ((pinNode portalNode).run v).portalNode = portalNode
    rw [pinNode_run]
  | update offered valid =>
    obtain ⟨t, rfl, -, -, rfl⟩ := update_eq_ok hplan
    refine (load_keySet valid rfl).trans ?_
    rw [load_eq_some hload]
    rfl

/-! ## Where trust comes from -/

/-- The memory is what the volume says. -/
def Host.InStep (x : Host) : Prop := ∀ m, x.memory = some m → x.volume.load = .ok m

/-- Calls start in step. -/
def Settled (x : Host) (call : Call) : Prop := x.InStep ∧ call.Trimmed

/-- The call was made, to the end or not. -/
def Presented (past : List Event) (call : Call) : Prop :=
  .accepted call ∈ past ∨ .interrupted call ∈ past

/-- Trust that goes back to one join: its key set and its node, and key sets that were each signed
under the one before. -/
inductive Lineage (past : List Event) : AgentTrust → Prop
  | joined {token : List Char} {keySet : SignedKeySet} {valid : keySet.Valid}
      {portalNode : Option (List Char)} (presented : Presented past (.join token keySet valid portalNode))
      (selfSigned : keySet.selfSigned = true) : Lineage past ⟨keySet, portalNode⟩
  | updated {t : AgentTrust} {offered : SignedKeySet} {valid : offered.Valid} (before : Lineage past t)
      (presented : Presented past (.update offered valid))
      (signed : offered.signedBy t.keySet.keySet = true) : Lineage past { t with keySet := offered }

theorem Presented.mono (h : Presented past call) (event : Event) : Presented (past ++ [event]) call :=
  h.imp (List.mem_append_left _) (List.mem_append_left _)

theorem Lineage.mono (h : Lineage past t) (event : Event) : Lineage (past ++ [event]) t := by
  induction h with
  | joined presented selfSigned => exact .joined (presented.mono event) selfSigned
  | updated before presented signed ih => exact .updated ih (presented.mono event) signed

/-- What a call is for goes back to a join if what was there before does. -/
theorem Call.lineage (hplan : call.plan v m = .ok plan) (hm : ∀ t, m = some t → Lineage past t)
    (hpresented : Presented past call) : ∀ t, plan.state = some t → Lineage past t := by
  intro t ht
  cases call with
  | armJoinToken token =>
    cases hplan
    unfold Trust.armJoinToken at ht
    split at ht <;> exact hm t ht
  | resetAndArm token =>
    cases hplan
    cases ht
  | join token keySet valid portalNode =>
    obtain ⟨-, -, hsigned, rfl⟩ := join_eq_ok hplan
    cases ht
    exact .joined hpresented hsigned
  | update offered valid =>
    obtain ⟨old, rfl, hsigned, -, rfl⟩ := update_eq_ok hplan
    cases ht
    exact .updated (hm old rfl) hpresented hsigned

/-! ## Join tokens -/

/-- The call arms a token with the hash. -/
def Call.Arms (hash : List Char) : Call → Prop
  | .armJoinToken token => joinTokenHash token = hash
  | .resetAndArm token => joinTokenHash token = hash
  | _ => False

/-- A token was armed, maybe by a call that was interrupted. -/
def Event.Arms (hash : List Char) : Event → Prop
  | .accepted call => call.Arms hash
  | .interrupted call => call.Arms hash
  | _ => False

/-- The armed token is spent: a join was accepted, or the trust of one was loaded. -/
def Event.Spends : Event → Prop
  | .accepted (.join _ _ _ _) => True
  | .opened (some _) => True
  | _ => False

/-- A token with the hash was armed, and not spent since. -/
def Armed (past : List Event) (hash : List Char) : Prop :=
  ∃ before event after, past = before ++ event :: after ∧ event.Arms hash ∧
    ∀ later ∈ after, ¬ later.Spends

theorem Armed.mono {hash : List Char} (h : Armed past hash) (hspends : ¬ event.Spends) :
    Armed (past ++ [event]) hash := by
  obtain ⟨before, arming, after, rfl, harms, hafter⟩ := h
  refine ⟨before, arming, after ++ [event], by simp, harms, fun later hlater => ?_⟩
  rcases List.mem_append.1 hlater with hlater | hlater
  · exact hafter later hlater
  · rw [List.mem_singleton.1 hlater]
    exact hspends

theorem Armed.now {hash : List Char} (h : event.Arms hash) : Armed (past ++ [event]) hash :=
  ⟨past, event, [], rfl, h, fun _ h => absurd h List.not_mem_nil⟩

omit [Ed25519] in
/-- The stored hash is read back as the digest of the token. -/
theorem hashFromHex_joinTokenHash (token : List Char) :
    hashFromHex (trim (joinTokenHash token)) = some (tokenDigest token) := by
  have hdigits : Hex.lower.digits.all (fun c => !isWhitespace c) = true := by decide
  have htrim : trim (joinTokenHash token) = joinTokenHash token := by
    apply trim_none
    intro c hc
    simpa using List.all_eq_true.1 hdigits c (Hex.encode_digits _ c hc)
  rw [htrim]
  unfold hashFromHex joinTokenHash
  rw [Hex.decode_encode]
  exact dif_pos (tokenDigest token).2

/-- A token file holds a hash that was armed and is not spent. -/
def TokenArmed (past : List Event) (v : Volume) : Prop :=
  ∀ hash, v.token = some hash → Armed past hash

theorem Call.tokenArmed (h : TokenArmed past v) (hplan : call.plan v m = .ok plan) (n : ℕ)
    (harms : ∀ hash, call.Arms hash → event.Arms hash) (hspends : ¬ event.Spends) :
    TokenArmed (past ++ [event]) (v.after (plan.steps.take n)) := by
  have hbefore : TokenArmed (past ++ [event]) v := fun hash hhash => (h hash hhash).mono hspends
  have harmed {w : Volume} {token : List Char} (hw : w.token = some (joinTokenHash token))
      (hcall : call.Arms (joinTokenHash token)) : TokenArmed (past ++ [event]) w := by
    intro hash hhash
    rw [hw] at hhash
    cases hhash
    exact .now (harms _ hcall)
  have hspent {w : Volume} (hw : w.token = none) : TokenArmed (past ++ [event]) w := by
    intro hash hhash
    rw [hw] at hhash
    cases hhash
  cases call with
  | armJoinToken token =>
    cases hplan
    unfold Trust.armJoinToken
    split
    · rw [List.take_nil]
      exact hbefore
    · rcases take_one (.replaceToken (joinTokenHash token)) n with h | h <;> dsimp only <;> rw [h]
      · exact hbefore
      · exact harmed (by rfl) (by rfl)
  | resetAndArm token =>
    cases hplan
    rcases take_three (.replaceToken (joinTokenHash token)) .removeKeySet .removeNode n
      with h | h | h | h <;> dsimp only [Trust.resetAndArm] <;> rw [h]
    · exact hbefore
    · exact harmed (by rfl) (by rfl)
    · exact harmed (by rfl) (by rfl)
    · exact harmed (by rfl) (by rfl)
  | join token keySet valid portalNode =>
    obtain ⟨rfl, -, -, rfl⟩ := join_eq_ok hplan
    have hkept : ((pinNode portalNode).run v).token = v.token := by rw [pinNode_run]
    rcases take_three (pinNode portalNode) (.replaceKeySet keySet.toBytes) .removeToken n
      with h | h | h | h <;> dsimp only <;> rw [h]
    · exact hbefore
    · exact fun hash hhash => hbefore hash (hkept ▸ hhash)
    · exact fun hash hhash => hbefore hash (hkept ▸ hhash)
    · exact hspent rfl
  | update offered valid =>
    obtain ⟨t, rfl, -, -, rfl⟩ := update_eq_ok hplan
    rcases take_one (.replaceKeySet offered.toBytes) n with h | h <;> dsimp only <;> rw [h]
    · exact hbefore
    · exact hbefore

/-! ## Runs -/

/-- Memory and volume go back to a join each, and a token on the volume is armed. -/
structure Sound (past : List Event) (x : Host) : Prop where
  memory : ∀ m, x.memory = some m → ∀ t, m = some t → Lineage past t
  volume : ∃ l, x.volume.load = .ok l ∧ ∀ t, l = some t → Lineage past t
  token : TokenArmed past x.volume

theorem Sound.fresh : Sound [] Host.fresh :=
  ⟨(fun _ h => nomatch h), ⟨none, rfl, (fun _ h => nomatch h)⟩, (fun _ h => nomatch h)⟩

theorem tokenArmed_mono (h : TokenArmed past v) (hspends : ¬ event.Spends) :
    TokenArmed (past ++ [event]) v := fun hash hhash => (h hash hhash).mono hspends

/-- An interrupted call. -/
theorem Sound.interrupted (h : Sound past ⟨v, some m⟩) (hplan : call.plan v m = .ok plan)
    (hmeets : Settled ⟨v, some m⟩ call) (n : ℕ) {memory : Option (Option AgentTrust)}
    (hmemory : ∀ m', memory = some m' → m' = m) :
    Sound (past ++ [.interrupted call]) ⟨v.after (plan.steps.take n), memory⟩ := by
  have hm : ∀ t, m = some t → Lineage (past ++ [.interrupted call]) t :=
    fun t ht => (h.memory m rfl t ht).mono _
  have hstate := Call.lineage hplan hm (.inr (by simp))
  refine ⟨fun m' hm' t ht => hm t ((hmemory m' hm') ▸ ht), ?_, ?_⟩
  · rcases Call.load_after (hmeets.1 m rfl) hplan hmeets.2 n with hload | hload
    · exact ⟨m, hload, hm⟩
    · exact ⟨plan.state, hload, hstate⟩
  · exact Call.tokenArmed h.token hplan n (fun _ h => h) not_false

/-- One step keeps everything sound. -/
theorem Sound.step (h : Sound past x) (hstep : Step x event y) (hmeets : event.Meets Settled x) :
    Sound (past ++ [event]) y := by
  obtain ⟨l, hload, hl⟩ := h.volume
  cases hstep with
  | refused no =>
    exact ⟨fun m hm t ht => (h.memory m hm t ht).mono _, ⟨l, hload, fun t ht => (hl t ht).mono _⟩,
      tokenArmed_mono h.token not_false⟩
  | @accepted v m call plan ok =>
    have hm : ∀ t, m = some t → Lineage (past ++ [.accepted call]) t :=
      fun t ht => (h.memory m rfl t ht).mono _
    have hstate := Call.lineage ok hm (.inl (by simp))
    refine ⟨fun m' hm' t ht => ?_, ⟨_, Call.load_done (hmeets.1 m rfl) ok hmeets.2, hstate⟩, ?_⟩
    · cases hm'
      exact hstate t ht
    · by_cases hspends : Event.Spends (.accepted call)
      · cases call with
        | join token keySet valid portalNode =>
          obtain ⟨rfl, -, -, rfl⟩ := join_eq_ok ok
          exact fun hash hhash => nomatch hhash
        | _ => exact hspends.elim
      · have hall : TokenArmed (past ++ [.accepted call]) (v.after (plan.steps.take plan.steps.length)) :=
          Call.tokenArmed h.token ok plan.steps.length (fun _ h => h) hspends
        rwa [List.take_length] at hall
  | failed ok n => exact h.interrupted ok hmeets n fun m' hm' => (Option.some.inj hm').symm
  | crashed ok n => exact h.interrupted ok hmeets n fun m' hm' => nomatch hm'
  | stopped v m =>
    exact ⟨(fun _ h => nomatch h), ⟨l, hload, fun t ht => (hl t ht).mono _⟩,
      tokenArmed_mono h.token not_false⟩
  | @opened v loaded ok =>
    obtain rfl : loaded = l := Except.ok.inj (ok.symm.trans hload)
    have hload' : (v.after v.openSteps).load = .ok loaded := by
      have hall := load_openSteps (v := v) v.openSteps.length
      rw [List.take_length] at hall
      exact hall.trans ok
    refine ⟨fun m hm t ht => ?_, ⟨loaded, hload', fun t ht => (hl t ht).mono _⟩, ?_⟩
    · cases hm
      exact (hl t ht).mono _
    · cases loaded with
      | none =>
        -- Without a key set the token stays.
        have hkept : v.openSteps = [] := by
          unfold Volume.openSteps
          rw [load_eq_none.1 ok]
          rfl
        rw [hkept]
        exact tokenArmed_mono h.token not_false
      | some t =>
        have hspent : v.openSteps = [.removeToken] := by
          unfold Volume.openSteps
          cases hset : v.keySet with
          | none => exact absurd (ok.symm.trans (load_eq_none.2 hset)) (by simp)
          | some bytes => rfl
        rw [hspent]
        exact fun hash hhash => nomatch hhash
  | openFailed v n =>
    refine ⟨(fun _ h => nomatch h), ⟨l, (load_openSteps n).trans hload, fun t ht => (hl t ht).mono _⟩, ?_⟩
    have hkept : TokenArmed (past ++ [.openFailed]) v := tokenArmed_mono h.token not_false
    unfold Volume.openSteps
    split
    · rcases take_one .removeToken n with h | h <;> rw [h]
      · exact hkept
      · exact fun hash hhash => nomatch hhash
    · rw [List.take_nil]
      exact hkept

theorem Run.sound (h : Run Settled Host.fresh past x) : Sound past x := by
  induction h with
  | nil => exact .fresh
  | snoc before step meets ih => exact ih.step step meets

/-! ## Newer and newer -/

/-- The agent forgets its portal, or starts to. -/
def Event.Resets : Event → Prop
  | .accepted (.resetAndArm _) => True
  | .interrupted (.resetAndArm _) => True
  | _ => False

/-- A key set is accepted. -/
def Event.Accepts : Event → Prop
  | .accepted (.join _ _ _ _) => True
  | .accepted (.update _ _) => True
  | _ => False

/-- The same trust, and no set accepted; or a newer one. -/
def Onward (t : AgentTrust) (later : List Event) (t' : AgentTrust) : Prop :=
  (t' = t ∧ ∀ event ∈ later, ¬ event.Accepts) ∨ Newer t t'

theorem Onward.mono (h : Onward t later t') (hevent : ¬ event.Accepts) :
    Onward t (later ++ [event]) t' := by
  refine h.imp_left fun ⟨heq, hnone⟩ => ⟨heq, fun other hother => ?_⟩
  rcases List.mem_append.1 hother with hother | hother
  · exact hnone other hother
  · rw [List.mem_singleton.1 hother]
    exact hevent

theorem Onward.newer {t'' : AgentTrust} (h : Onward t later t') (h' : Newer t' t'') : Newer t t'' := by
  rcases h with ⟨rfl, -⟩ | h
  · exact h'
  · exact h.trans h'

/-- Memory and volume have moved on from a trust. -/
structure Since (t : AgentTrust) (later : List Event) (x : Host) : Prop where
  memory : ∀ m, x.memory = some m → ∃ t', m = some t' ∧ Onward t later t'
  volume : ∃ t', x.volume.load = .ok (some t') ∧ Onward t later t'

/-- One step moves on. -/
theorem Since.step (h : Since t later x) (hstep : Step x event y) (hmeets : event.Meets Settled x)
    (hresets : ¬ event.Resets) : Since t (later ++ [event]) y := by
  obtain ⟨t', hload, ht'⟩ := h.volume
  have hkept {memory : Option (Option AgentTrust)} (hevent : ¬ event.Accepts)
      (hmemory : ∀ m, memory = some m → x.memory = some m) {w : Volume}
      (hw : w.load = .ok (some t')) : Since t (later ++ [event]) ⟨w, memory⟩ := by
    refine ⟨fun m hm => ?_, t', hw, ht'.mono hevent⟩
    obtain ⟨own, rfl, hown⟩ := h.memory m (hmemory m hm)
    exact ⟨own, rfl, hown.mono hevent⟩
  have hinterrupted {v : Volume} {m : Option AgentTrust} {call : Call} {plan : Plan}
      (hx : x = ⟨v, some m⟩) (ok : call.plan v m = .ok plan) (heq : event = .interrupted call)
      {memory : Option (Option AgentTrust)} (hmemory : ∀ m', memory = some m' → m' = m) (n : ℕ) :
      Since t (later ++ [event]) ⟨v.after (plan.steps.take n), memory⟩ := by
    subst hx heq
    obtain ⟨hsettled, htrimmed⟩ := hmeets
    obtain rfl : m = some t' := Except.ok.inj ((hsettled m rfl).symm.trans hload)
    have hkept' {w : Volume} (hw : w.load = .ok (some t')) := hkept not_false
      (fun m' hm' => congrArg some (hmemory m' hm').symm) hw
    rcases Call.load_after hload ok htrimmed n with hafter | hafter
    · exact hkept' hafter
    · cases call with
      | armJoinToken token =>
        cases ok
        exact hkept' hafter
      | resetAndArm token => exact absurd trivial hresets
      | join token keySet valid portalNode => exact nomatch (join_eq_ok ok).1
      | update offered valid =>
        obtain ⟨own, hown, -, hnewer, rfl⟩ :=
          update_eq_ok (show Trust.update (some t') offered = .ok plan from ok)
        cases hown
        refine ⟨fun m' hm' => ?_, _, hafter, .inr (ht'.newer hnewer)⟩
        rw [hmemory m' hm']
        exact ⟨t', rfl, ht'.mono not_false⟩
  cases hstep with
  | refused no => exact hkept not_false (fun _ h => h) hload
  | @accepted v m call plan ok =>
    obtain rfl : m = some t' := Except.ok.inj ((hmeets.1 m rfl).symm.trans hload)
    have hdone := Call.load_done hload ok hmeets.2
    cases call with
    | armJoinToken token =>
      cases ok
      exact hkept not_false (fun _ h => h) hdone
    | resetAndArm token => exact absurd trivial hresets
    | join token keySet valid portalNode => exact nomatch (join_eq_ok ok).1
    | update offered valid =>
      obtain ⟨own, hown, -, hnewer, rfl⟩ :=
          update_eq_ok (show Trust.update (some t') offered = .ok plan from ok)
      cases hown
      have hnext := ht'.newer hnewer
      refine ⟨fun m' hm' => ?_, _, hdone, .inr hnext⟩
      cases hm'
      exact ⟨_, rfl, .inr hnext⟩
  | failed ok n => exact hinterrupted rfl ok rfl (fun m' hm' => (Option.some.inj hm').symm) n
  | crashed ok n => exact hinterrupted rfl ok rfl (fun _ h => by cases h) n
  | stopped v m => exact hkept not_false (fun _ h => by cases h) hload
  | @opened v loaded ok =>
    obtain rfl : loaded = some t' := Except.ok.inj (ok.symm.trans hload)
    have hall := load_openSteps (v := v) v.openSteps.length
    rw [List.take_length] at hall
    refine ⟨fun m' hm' => ?_, t', hall.trans hload, ht'.mono not_false⟩
    cases hm'
    exact ⟨t', rfl, ht'.mono not_false⟩
  | openFailed v n => exact hkept not_false (fun _ h => by cases h) ((load_openSteps n).trans hload)

theorem Run.since (h : Run Settled x later y) (hstart : x.InStep) (hx : x.memory = some (some t))
    (hresets : ∀ event ∈ later, ¬ event.Resets) : Since t later y := by
  induction h with
  | nil =>
    have hsame : Onward t [] t := .inl ⟨rfl, fun _ h => absurd h List.not_mem_nil⟩
    refine ⟨fun m hm => ?_, t, hstart _ hx, hsame⟩
    rw [hx] at hm
    cases hm
    exact ⟨t, rfl, hsame⟩
  | snoc before step meets ih =>
    exact (ih fun event hevent => hresets event (List.mem_append_left _ hevent)).step step meets
      (hresets _ (List.mem_append_right _ (List.mem_singleton_self _)))

/-! ## Open after a crash -/

/-- The call is interrupted, or the process ends between calls. -/
def Event.Halts : Event → Prop
  | .interrupted _ => True
  | .stopped => True
  | _ => False

/-- Nothing is accepted or loaded. -/
def Event.Idle : Event → Prop
  | .refused _ _ => True
  | .stopped => True
  | .openFailed => True
  | _ => False

theorem Run.idle (h : Run Settled x later y) (hidle : ∀ event ∈ later, event.Idle) :
    y.volume.load = x.volume.load := by
  induction h with
  | nil => rfl
  | snoc before step meets ih =>
    have hbefore := ih fun event hevent => hidle event (List.mem_append_left _ hevent)
    have hlast := hidle _ (List.mem_append_right _ (List.mem_singleton_self _))
    cases step with
    | refused no => exact hbefore
    | stopped v m => exact hbefore
    | openFailed v n => exact (load_openSteps n).trans hbefore
    | accepted ok => exact hlast.elim
    | failed ok n => exact hlast.elim
    | crashed ok n => exact hlast.elim
    | opened ok => exact hlast.elim

/-- What an interrupted call would have led to. -/
def Event.Produces (v : Volume) (m l : Option AgentTrust) : Event → Prop
  | .interrupted call => ∃ plan, call.plan v m = .ok plan ∧ l = plan.state
  | _ => False

/-- After a call that was interrupted, the volume says what the memory says or what the call is for. -/
theorem Step.reopened {x' : Host} (hstart : x.InStep) (hx : x.memory = some m)
    (hstep : Step x event y) (hmeets : event.Meets Settled x) (hhalts : event.Halts)
    (hrun : Run Settled y later z) (hidle : ∀ event ∈ later, event.Idle)
    (hopen : Step z (.opened l) x') : l = m ∨ event.Produces x.volume m l := by
  have hsame {out : Option AgentTrust} (hy : y.volume.load = .ok out) : l = out := by
    cases hopen with
    | opened ok => exact Except.ok.inj (ok.symm.trans ((hrun.idle hidle).trans hy))
  have hinterrupted {v : Volume} {own : Option AgentTrust} {call : Call} {plan : Plan}
      (hv : x = ⟨v, some own⟩) (ok : call.plan v own = .ok plan) (heq : event = .interrupted call)
      (n : ℕ) (hy : y.volume = v.after (plan.steps.take n)) :
      l = m ∨ event.Produces x.volume m l := by
    subst hv heq
    obtain rfl : own = m := Option.some.inj hx
    rcases Call.load_after (hstart own rfl) ok hmeets.2 n with hload | hload
    · exact .inl (hsame (hy ▸ hload))
    · exact .inr ⟨plan, ok, hsame (hy ▸ hload)⟩
  cases hstep with
  | refused no => exact hhalts.elim
  | accepted ok => exact hhalts.elim
  | failed ok n => exact hinterrupted rfl ok rfl n rfl
  | crashed ok n => exact hinterrupted rfl ok rfl n rfl
  | stopped v own =>
    obtain rfl : own = m := Option.some.inj hx
    exact .inl (hsame (hstart own rfl))
  | opened ok => exact nomatch hx
  | openFailed v n => exact nomatch hx

/-! ## All together -/

/-- An accepted set is vouched for, by the set before it or by the armed token. -/
def Call.Justified (past : List Event) (x : Host) : Call → Prop
  | .join token keySet _ _ => keySet.selfSigned = true ∧ Armed past (joinTokenHash token)
  | .update offered _ => ∃ t, x.memory = some (some t) ∧ offered.signedBy t.keySet.keySet = true ∧
      Newer t { t with keySet := offered }
  | _ => True

theorem Step.justified (h : Sound past x) (hstep : Step x (.accepted call) y) :
    call.Justified past x := by
  cases hstep with
  | accepted ok =>
    cases call with
    | armJoinToken token => trivial
    | resetAndArm token => trivial
    | join token keySet valid portalNode =>
      obtain ⟨-, ⟨stored, hstored, hhash⟩, hsigned, -⟩ := join_eq_ok ok
      refine ⟨hsigned, ?_⟩
      obtain ⟨before, arming, after, rfl, harms, hafter⟩ := h.token stored hstored
      refine ⟨before, arming, after, rfl, ?_, hafter⟩
      have harmed (token' : List Char) (heq : joinTokenHash token' = stored) :
          joinTokenHash token' = joinTokenHash token := by
        subst heq
        rw [hashFromHex_joinTokenHash] at hhash
        unfold joinTokenHash
        rw [Option.some.inj hhash]
      cases arming with
      | accepted call =>
        cases call with
        | armJoinToken token' => exact harmed token' harms
        | resetAndArm token' => exact harmed token' harms
        | _ => exact harms.elim
      | interrupted call =>
        cases call with
        | armJoinToken token' => exact harmed token' harms
        | resetAndArm token' => exact harmed token' harms
        | _ => exact harms.elim
      | _ => exact harms.elim
    | update offered valid =>
      obtain ⟨t, hm, hsigned, hnewer, -⟩ := update_eq_ok ok
      exact ⟨t, congrArg some hm, hsigned, hnewer⟩

/-- In any run whose calls start with memory and volume in step: an accepted set is signed under the
set trusted before it and newer, or comes with an armed token that was not spent; what is trusted goes
back to one join; between resets trust only becomes newer; and after a crash or an error, what is loaded
is what was trusted before or what the interrupted call is for. -/
theorem trust_moves_forward (hrun : Run Settled Host.fresh past x) :
    (∀ call y, Step x (.accepted call) y → call.Justified past x) ∧
    (∀ t, x.memory = some (some t) → Lineage past t) ∧
    (∀ t later y t', x.InStep → x.memory = some (some t) → Run Settled x later y →
      (∀ event ∈ later, ¬ event.Resets) → y.memory = some (some t') → Onward t later t') ∧
    (∀ m event y later z l x', x.InStep → x.memory = some m → Step x event y →
      event.Meets Settled x → event.Halts → Run Settled y later z → (∀ event ∈ later, event.Idle) →
      Step z (.opened l) x' → l = m ∨ event.Produces x.volume m l) := by
  have hsound := hrun.sound
  refine ⟨fun call y hstep => hstep.justified hsound, fun t hx => hsound.memory _ hx t rfl,
    fun t later y t' hstart hx hlater hresets hy => ?_,
    fun m event y later z l x' hstart hx hstep hmeets hhalts hlater hidle hopen =>
      hstep.reopened hstart hx hmeets hhalts hlater hidle hopen⟩
  obtain ⟨own, hown, honward⟩ := (hlater.since hstart hx hresets).memory _ hy
  cases hown
  exact honward

/-! ## Two portals on one volume -/

/-- The call is accepted. -/
def accept (call : Call) (x : Host) : Option Host :=
  match x.memory with
  | none => none
  | some m =>
    match call.plan x.volume m with
    | .error _ => none
    | .ok plan => some ⟨x.volume.after plan.steps, some plan.state⟩

theorem step_accept (h : accept call x = some y) : Step x (.accepted call) y := by
  obtain ⟨v, m⟩ := x
  unfold accept at h
  split at h
  · cases h
  · next m hm =>
    obtain rfl : _ = some m := hm
    split at h
    · cases h
    · next plan hplan =>
      cases h
      exact .accepted hplan

/-- The call ends after some of its file steps, and the agent may end with it. -/
def interrupt (call : Call) (done : ℕ) (crash : Bool) (x : Host) : Option Host :=
  match x.memory with
  | none => none
  | some m =>
    match call.plan x.volume m with
    | .error _ => none
    | .ok plan => some ⟨x.volume.after (plan.steps.take done), if crash then none else some m⟩

theorem step_interrupt {done : ℕ} {crash : Bool} (h : interrupt call done crash x = some y) :
    Step x (.interrupted call) y := by
  obtain ⟨v, m⟩ := x
  unfold interrupt at h
  split at h
  · cases h
  · next m hm =>
    obtain rfl : _ = some m := hm
    split at h
    · cases h
    · next plan hplan =>
      cases h
      cases crash with
      | true => exact .crashed hplan done
      | false => exact .failed hplan done

end

/-- Keys are their seeds, and a signature is the key it was made with. -/
abbrev plainScheme : Ed25519 where
  onCurve _ := true
  verifyingKey seed := ⟨seed, rfl⟩
  sign seed _ := ⟨seed.1 ++ List.replicate 32 0, by rw [List.length_append, seed.2]; rfl⟩
  verifies key _ signature := signature.1.take 32 == key.1.1

/-- The first 32 bytes. -/
abbrev firstBytes : Digests where
  crc32c _ := 0
  blake3 bytes := ⟨(bytes ++ List.replicate 32 0).take 32, by simp⟩

section

local instance : Ed25519 := plainScheme

local instance : Digests := firstBytes

def signerOf (byte : UInt8) : PortalSigner := .fromSeed ⟨List.replicate 32 byte, rfl⟩

/-- A set with one key, signed by it. -/
def ownSet (version : UInt64) (byte : UInt8) : SignedKeySet :=
  KeySet.sign ⟨version, 1, [⟨(signerOf byte).keyId, (signerOf byte).verifyingKey, .active⟩]⟩
    [signerOf byte]

theorem valid_ownSet (version : UInt64) (byte : UInt8) : (ownSet version byte).Valid where
  keySet := by
    refine ⟨Nat.le_refl 1, ?_, fun key hkey => ?_, rfl⟩
    · show 1 ≤ maxKeys
      decide
    rw [List.mem_singleton.1 hkey]
    rfl
  body := rfl
  signed := Nat.le_refl 1
  bounded := by
    show 1 ≤ maxKeys
    decide

def joinOf (token : List Char) (version : UInt64) (byte : UInt8) (node : List Char) : Call :=
  .join token (ownSet version byte) (valid_ownSet version byte) (some node)

/-- The agent is started. -/
def started : Host := ⟨.empty, some none⟩

/-- A token is armed. -/
def waiting (token : List Char) : Host :=
  ⟨⟨some (joinTokenHash token), none, none⟩, some none⟩

/-- The volume of a joined agent. -/
def joinedVolume (version : UInt64) (byte : UInt8) (node : List Char) : Volume :=
  ⟨none, some (ownSet version byte).toBytes, some node⟩

/-- The agent is joined. -/
def joined : Host := ⟨joinedVolume 1 7 ['a'], some (some ⟨ownSet 1 7, some ['a']⟩)⟩

theorem trimmed_joinOf (token : List Char) (version : UInt64) (byte : UInt8) {node : List Char}
    (h : trim node = node) : (joinOf token version byte node).Trimmed := by
  intro own hown
  cases hown
  exact h

theorem run_waiting {Meets : Host → Call → Prop} (hmeets : Meets started (.armJoinToken ['t'])) :
    Run Meets Host.fresh [.opened none, .accepted (.armJoinToken ['t'])] (waiting ['t']) :=
  .snoc (.snoc .nil (.opened rfl) trivial) (step_accept (by decide +kernel)) hmeets

theorem load_joinedVolume (version : UInt64) (byte : UInt8) {node : List Char} (h : trim node = node) :
    (joinedVolume version byte node).load = .ok (some ⟨ownSet version byte, some node⟩) := by
  refine load_joined (valid_ownSet version byte) (fun own hown => ?_) rfl rfl
  cases hown
  exact h

/-- An update that is cut off after its file step is there at the next start, and newer. -/
theorem trust_moves_forward_cut_off : Newer ⟨ownSet 1 7, some ['a']⟩ ⟨ownSet 2 7, some ['a']⟩ := by
  have hunjoined {v : Volume} (hv : v.keySet = none) : Host.InStep ⟨v, some none⟩ := by
    intro m hm
    cases hm
    exact load_eq_none.2 hv
  have hinStep : joined.InStep := fun m hm => by
    cases hm
    exact load_joinedVolume 1 7 (by decide)
  have hjoined : Run Settled Host.fresh _ joined :=
    .snoc (run_waiting ⟨hunjoined rfl, trivial⟩)
      (step_accept (show accept (joinOf ['t'] 1 7 ['a']) (waiting ['t']) = some joined by decide +kernel))
      ⟨hunjoined rfl, trimmed_joinOf ['t'] 1 7 (by decide)⟩
  have hstep : Step joined (.interrupted (.update (ownSet 2 7) (valid_ownSet 2 7)))
      ⟨joinedVolume 2 7 ['a'], none⟩ :=
    step_interrupt (show interrupt _ 1 true joined = some ⟨joinedVolume 2 7 ['a'], none⟩ by
      decide +kernel)
  have hmeets : Event.Meets Settled joined (.interrupted (.update (ownSet 2 7) (valid_ownSet 2 7))) :=
    ⟨hinStep, trivial⟩
  have hcut : Run Settled joined [.interrupted (.update (ownSet 2 7) (valid_ownSet 2 7)),
      .opened (some ⟨ownSet 2 7, some ['a']⟩)]
      ⟨joinedVolume 2 7 ['a'], some (some ⟨ownSet 2 7, some ['a']⟩)⟩ :=
    .snoc (.snoc .nil hstep hmeets) (.opened (load_joinedVolume 2 7 (by decide))) trivial
  have honward := (trust_moves_forward hjoined).2.2.1 _ _ _ _ hinStep rfl hcut
    (fun event hevent => by
      rcases List.mem_cons.1 hevent with rfl | hevent
      · exact not_false
      · rw [List.mem_singleton.1 hevent]
        exact not_false) rfl
  rcases honward with ⟨hsame, -⟩ | hnewer
  · exact absurd hsame (by decide +kernel)
  · exact hnewer

/-- A join that failed at its last file step leaves its key set; the next one, cut off after its first
file step, puts its own node beside it. -/
theorem failed_join_mixes_portals : ¬ ∀ (_ : Ed25519) (_ : Digests) (past : List Event) (x : Host),
    Run (fun _ call => call.Trimmed) Host.fresh past x →
      ∀ t, x.memory = some (some t) → Lineage past t := by
  intro h
  let failed : Host :=
    ⟨⟨some (joinTokenHash ['t']), some (ownSet 1 7).toBytes, some ['a']⟩, some none⟩
  let rearmed : Host :=
    ⟨⟨some (joinTokenHash ['u']), some (ownSet 1 7).toBytes, some ['a']⟩, some none⟩
  let cutOff : Host := ⟨⟨some (joinTokenHash ['u']), some (ownSet 1 7).toBytes, some ['b']⟩, none⟩
  have hfailed : Step (waiting ['t']) (.interrupted (joinOf ['t'] 1 7 ['a'])) failed :=
    step_interrupt (show interrupt _ 2 false _ = some failed by decide +kernel)
  have hrearmed : Step failed (.accepted (.armJoinToken ['u'])) rearmed :=
    step_accept (show accept _ failed = some rearmed by decide +kernel)
  have hcutOff : Step rearmed (.interrupted (joinOf ['u'] 1 8 ['b'])) cutOff :=
    step_interrupt (show interrupt _ 1 true rearmed = some cutOff by decide +kernel)
  have hcut : Run (fun _ call => call.Trimmed) Host.fresh _ cutOff :=
    .snoc (.snoc (.snoc (run_waiting trivial) hfailed (trimmed_joinOf ['t'] 1 7 (by decide))) hrearmed
      trivial) hcutOff (trimmed_joinOf ['u'] 1 8 (by decide))
  have hsame : cutOff.volume.load = (joinedVolume 1 7 ['b']).load := load_congr rfl rfl
  have hloads : cutOff.volume.load = .ok (some ⟨ownSet 1 7, some ['b']⟩) :=
    hsame.trans (load_joinedVolume 1 7 (by decide))
  have hopened := hcut.snoc (.opened hloads) trivial
  have hlineage := h _ _ _ _ hopened _ rfl
  have hother : ownSet 1 7 ≠ ownSet 1 8 := by decide +kernel
  generalize htrust : (⟨ownSet 1 7, some ['b']⟩ : AgentTrust) = t at hlineage
  cases hlineage with
  | joined presented selfSigned =>
    cases htrust
    rcases presented with hcall | hcall <;> simp [joinOf] at hcall
    exact hother hcall.2
  | updated before presented signed =>
    rcases presented with hcall | hcall <;> simp [joinOf] at hcall

end

end Trust

end DistrHnsw
