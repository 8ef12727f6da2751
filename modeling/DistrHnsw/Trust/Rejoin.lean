import DistrHnsw.Trust.Exchange

/-!
# Grants from before a rejoin

What an agent holds on a fresh volume is the key set of a client, with the epoch that client read.  The
epoch that the portal raises when it records the join is a later one, so a grant issued before is refused
only if the epoch was raised, or its key ended, before the client read them.
-/

namespace DistrHnsw

namespace Trust

open Reader
open Metadata (Access AccessWrite AgentJoin SigningKeyRow Time)

section

variable [Ed25519] [Digests]

/-! ## What a host holds was offered -/

/-- Every set on the host has the property, and those on the volume can be read. -/
structure Holds (Offered : SignedKeySet → Prop) (host : Host) : Prop where
  volume : ∀ bytes, host.volume.keySet = some bytes → ∃ set, Offered set ∧ set.Valid ∧ bytes = set.toBytes
  memory : ∀ trust, host.memory = some (some trust) → Offered trust.keySet

/-- The sets that a call brings have the property. -/
def Call.Brings (Offered : SignedKeySet → Prop) : Call → Prop
  | .join _ keySet _ _ => Offered keySet
  | .update offered _ => Offered offered
  | _ => True

variable {Offered : SignedKeySet → Prop} {v : Volume} {host host' : Host} {event : Event} {call : Call}
  {plan : Plan} {m : Option AgentTrust}

omit [Ed25519] [Digests] in
theorem keySet_after {steps : List FileStep} {bytes : Bytes} (h : (v.after steps).keySet = some bytes) :
    v.keySet = some bytes ∨ .replaceKeySet bytes ∈ steps := by
  induction steps generalizing v with
  | nil => exact .inl h
  | cons step steps ih =>
    rcases ih h with hv | hmem
    · cases step with
      | replaceKeySet own =>
        cases hv
        exact .inr List.mem_cons_self
      | removeKeySet => cases hv
      | replaceToken => exact .inl hv
      | removeToken => exact .inl hv
      | replaceNode => exact .inl hv
      | removeNode => exact .inl hv
    · exact .inr (List.mem_cons_of_mem _ hmem)

/-- What the plan of a call writes and keeps in memory. -/
theorem plan_brings (hbrings : call.Brings Offered) (hplan : call.plan v m = .ok plan) :
    (∀ bytes, .replaceKeySet bytes ∈ plan.steps → ∃ set, Offered set ∧ set.Valid ∧ bytes = set.toBytes) ∧
      ∀ trust, plan.state = some trust → Offered trust.keySet ∨ m = some trust := by
  cases call with
  | armJoinToken token =>
    cases hplan
    unfold armJoinToken
    split
    · exact ⟨fun bytes h => absurd h List.not_mem_nil, fun trust h => .inr h⟩
    · exact ⟨fun bytes h => by simp at h, fun trust h => .inr h⟩
  | resetAndArm token =>
    cases hplan
    exact ⟨fun bytes h => by simp [resetAndArm] at h, fun trust h => by cases h⟩
  | join token keySet valid portalNode =>
    obtain ⟨-, -, -, rfl⟩ := join_eq_ok hplan
    refine ⟨fun bytes h => ?_, fun trust h => ?_⟩
    · cases portalNode <;> simp [pinNode] at h <;> exact ⟨keySet, hbrings, valid, h⟩
    · cases h
      exact .inl hbrings
  | update offered valid =>
    obtain ⟨trust, -, -, -, rfl⟩ := update_eq_ok hplan
    refine ⟨fun bytes h => ?_, fun trust h => ?_⟩
    · rw [List.mem_singleton] at h
      cases h
      exact ⟨offered, hbrings, valid, rfl⟩
    · cases h
      exact .inl hbrings

theorem Holds.step (h : Holds Offered host) (hstep : Step host event host')
    (hbrings : ∀ call, event.call = some call → call.Brings Offered) : Holds Offered host' := by
  obtain ⟨hvolume, hmemory⟩ := h
  have hafter {v : Volume} {steps written : List FileStep}
      (hv : ∀ bytes, v.keySet = some bytes → ∃ set, Offered set ∧ set.Valid ∧ bytes = set.toBytes)
      (hwritten : ∀ bytes, .replaceKeySet bytes ∈ written →
        ∃ set, Offered set ∧ set.Valid ∧ bytes = set.toBytes)
      (hsteps : ∀ step ∈ steps, step ∈ written) (bytes : Bytes)
      (hbytes : (v.after steps).keySet = some bytes) :
      ∃ set, Offered set ∧ set.Valid ∧ bytes = set.toBytes := by
    rcases keySet_after hbytes with hown | hmem
    · exact hv bytes hown
    · exact hwritten bytes (hsteps _ hmem)
  have hopen {v : Volume} (bytes : Bytes) : .replaceKeySet bytes ∉ v.openSteps := by
    unfold Volume.openSteps
    split <;> simp
  cases hstep with
  | refused no => exact ⟨hvolume, hmemory⟩
  | accepted ok =>
    obtain ⟨hsteps, hstate⟩ := plan_brings (hbrings _ rfl) ok
    refine ⟨hafter hvolume hsteps fun step hstep => hstep, fun trust htrust => ?_⟩
    rcases hstate trust (Option.some.inj htrust) with hown | hold
    · exact hown
    · exact hmemory trust (congrArg some hold)
  | failed ok done =>
    obtain ⟨hsteps, -⟩ := plan_brings (hbrings _ rfl) ok
    exact ⟨hafter hvolume hsteps fun step hstep => List.mem_of_mem_take hstep, hmemory⟩
  | crashed ok done =>
    obtain ⟨hsteps, -⟩ := plan_brings (hbrings _ rfl) ok
    exact ⟨hafter hvolume hsteps fun step hstep => List.mem_of_mem_take hstep,
      fun trust htrust => (nomatch htrust)⟩
  | stopped => exact ⟨hvolume, fun trust htrust => (nomatch htrust)⟩
  | @opened v loaded ok =>
    refine ⟨hafter hvolume (fun bytes hbytes => absurd hbytes (hopen bytes)) fun step hstep => hstep,
      fun trust htrust => ?_⟩
    obtain rfl : loaded = some trust := Option.some.inj htrust
    unfold Volume.load at ok
    split at ok
    · cases ok
    · next bytes hbytes =>
      obtain ⟨set, hset, hvalid, rfl⟩ := hvolume bytes hbytes
      rw [SignedKeySet.fromBytes_eq_ok.2 ⟨hvalid, rfl⟩] at ok
      cases ok
      exact hset
  | openFailed v done =>
    exact ⟨hafter hvolume (fun bytes hbytes => absurd hbytes (hopen bytes))
      fun step hstep => List.mem_of_mem_take hstep, fun trust htrust => (nomatch htrust)⟩

/-! ## The invariant of the exchange -/

variable [MasterKey] {createdAt : Metadata.KeyId → Time} {id : String} {agent : Metadata.AgentId}
  {x y : Exchange} {client : Client} {grant : Issued} {time : Int64}

/-- The keys of a client are those of a database, and its material is made of what it read. -/
structure Client.Sound (createdAt : Metadata.KeyId → Time) (client : Client) : Prop where
  keyed : ∃ a : Access, a.Keyed ∧ client.rows = signingKeys createdAt a
  made : GrantMaterial.assemble client.state client.rows = .ok client.material

/-- The grant is one that the portal's client issues. -/
structure Issued.Sound (id : String) (grant : Issued) : Prop where
  own : grant.signer = .fromSeed grant.signer.seed
  agent : grant.expect.agentId = id
  proof : grant.expect.operation = .delete → grant.gcProof ≠ none
  fits : (grant.signer.grant grant.epoch grant.expect grant.gcProof grant.now grant.nonce).Fits

structure Exchange.Sound (createdAt : Metadata.KeyId → Time) (id : String) (x : Exchange) : Prop where
  history : History x.access x.past
  clients : ∀ client ∈ x.clients, client.Sound createdAt
  issued : ∀ grant ∈ x.issued, grant.Sound id
  calls : ∀ k call, x.calls k = some call → call.client ∈ x.clients ∧ ∀ grant ∈ call.before, grant ∈ x.issued
  host : Holds (fun set => ∃ client ∈ x.clients, set = client.material.signedKeySet) x.host

theorem Client.Sound.matched (h : client.Sound createdAt) :
    List.Forall₂ Loads client.rows client.material.signers ∧ client.material.epoch = client.state.1 := by
  obtain ⟨⟨a, -, hrows⟩, hmade⟩ := h
  obtain ⟨hsigners, hepoch, -⟩ := assemble_eq_ok.1 hmade
  rw [hrows] at hsigners ⊢
  exact ⟨(loadSigners_eq_ok fun row hrow => (mem_signingKeys.1 hrow).2).1 hsigners, hepoch⟩

theorem Client.Sound.material (h : client.Sound createdAt) : client.material.Sound := by
  obtain ⟨hmatched, -⟩ := h.matched
  obtain ⟨⟨a, hkeyed, hrows⟩, -⟩ := h
  rw [hrows] at hmatched
  exact .of_signers hkeyed hmatched

theorem Exchange.Opens.sound (h : x.Opens createdAt client) (hhistory : History x.access x.past) :
    client.Sound createdAt := by
  obtain ⟨-, -, -, hrows, hmade⟩ := h
  exact ⟨⟨x.access, hhistory.keyed _ List.mem_cons_self, hrows⟩, hmade⟩

omit [Ed25519] [Digests] [MasterKey] in
theorem Holds.mono [Ed25519] [Digests] {Offered Offered' : SignedKeySet → Prop} {host : Host}
    (h : Holds Offered host) (himp : ∀ set, Offered set → Offered' set) : Holds Offered' host :=
  ⟨fun bytes hbytes => (h.volume bytes hbytes).imp fun set hset => ⟨himp set hset.1, hset.2⟩,
    fun trust htrust => himp _ (h.memory trust htrust)⟩

theorem Exchange.Sound.open (h : x.Sound createdAt id) (hopens : x.Opens createdAt client) :
    Exchange.Sound createdAt id { x with clients := client :: x.clients } where
  history := h.history
  clients other hother := by
    rcases List.mem_cons.1 hother with rfl | hold
    · exact hopens.sound h.history
    · exact h.clients other hold
  issued := h.issued
  calls k call hcall := ⟨List.mem_cons_of_mem _ (h.calls k call hcall).1, (h.calls k call hcall).2⟩
  host := h.host.mono fun set hset =>
    hset.imp fun other hother => ⟨List.mem_cons_of_mem _ hother.1, hother.2⟩

/-- A call that moves on keeps its client and what was issued before it. -/
theorem Exchange.Sound.move (h : x.Sound createdAt id) {k : ℕ} {call moved : JoinCall}
    (hcall : x.calls k = some call) (hclient : moved.client = call.client)
    (hbefore : moved.before = call.before) :
    ∀ j other, Function.update x.calls k (some moved) j = some other →
      other.client ∈ x.clients ∧ ∀ grant ∈ other.before, grant ∈ x.issued := by
  intro j other hother
  by_cases hsame : j = k
  · rw [hsame, Function.update_self] at hother
    cases hother
    rw [hclient, hbefore]
    exact h.calls k call hcall
  · rw [Function.update_of_ne hsame] at hother
    exact h.calls j other hother

theorem Exchange.Sound.step (h : x.Sound createdAt id) (hstep : ExchangeStep createdAt id agent x y) :
    y.Sound createdAt id := by
  cases hstep with
  | write ok => exact ⟨h.history.write ok, h.clients, h.issued, h.calls, h.host⟩
  | opened ok => exact h.open ok
  | @issued client mem expect own gcProof proof now nonce fits =>
    have hown := (h.clients client mem).material.own _ (List.head_mem client.material.signers_ne_nil)
    refine ⟨h.history, h.clients, fun grant hgrant => ?_, fun k call hcall =>
      ⟨(h.calls k call hcall).1, fun g hg => List.mem_cons_of_mem _ ((h.calls k call hcall).2 g hg)⟩, h.host⟩
    rcases List.mem_cons.1 hgrant with rfl | hold
    · exact ⟨hown, own, proof, fits⟩
    · exact h.issued grant hold
  | @asked k fresh client token now usable ok =>
    obtain ⟨hhistory, hclients, hissued, hcalls, hhost⟩ := h.open ok
    refine ⟨hhistory, hclients, hissued, fun j call hcall => ?_, hhost⟩
    by_cases hsame : j = k
    · dsimp only at hcall
      rw [hsame, Function.update_self] at hcall
      cases hcall
      exact ⟨List.mem_cons_self, fun g hg => hg⟩
    · dsimp only at hcall
      rw [Function.update_of_ne hsame] at hcall
      exact hcalls j call hcall
  | delivered sent step own =>
    refine ⟨h.history, h.clients, h.issued, h.calls, h.host.step step fun call hcall => ?_⟩
    rw [own] at hcall
    cases hcall
    exact ⟨_, (h.calls _ _ sent).1, rfl⟩
  | pushed mem step own =>
    refine ⟨h.history, h.clients, h.issued, h.calls, h.host.step step fun call hcall => ?_⟩
    rw [own] at hcall
    cases hcall
    exact ⟨_, mem, rfl⟩
  | hosted step own =>
    refine ⟨h.history, h.clients, h.issued, h.calls, h.host.step step fun call hcall => ?_⟩
    rcases own call hcall with ⟨token, rfl⟩ | ⟨token, rfl⟩ <;> trivial
  | checks sent asked reply =>
    exact ⟨h.history, h.clients, h.issued, h.move sent rfl rfl, h.host⟩
  | healthy => exact ⟨h.history, h.clients, h.issued, h.calls, h.host⟩
  | @recorded k call sent answered join own now b ok =>
    exact ⟨h.history.write ⟨.recordAgentJoin join (rowTokenHash call.token) now, trivial, ok⟩, h.clients,
      h.issued, h.move sent rfl rfl, h.host⟩
  | failed sent => exact ⟨h.history, h.clients, h.issued, h.move sent rfl rfl, h.host⟩

theorem Exchange.Sound.run
    (hrun : Relation.ReflTransGen (ExchangeStep createdAt id agent) .new x) : x.Sound createdAt id := by
  induction hrun with
  | refl =>
    exact ⟨.new, fun _ h => absurd h List.not_mem_nil, fun _ h => absurd h List.not_mem_nil,
      fun _ _ h => (nomatch h), ⟨fun _ h => (nomatch h), fun _ h => (nomatch h)⟩⟩
  | tail _ hstep ih => exact ih.step hstep

/-! ## What a client's set accepts -/

omit [Ed25519] [Digests] [MasterKey] in
/-- An expiry that is not before the issue is a time. -/
theorem InTime.of_grants {now later : Int64}
    (hordered : 0 ≤ (now + grantLifetimeSeconds).toInt - now.toInt)
    (hstarted : now.toInt - later.toInt ≤ clockSkewSeconds.toInt)
    (hunexpired : later.toInt - (now + grantLifetimeSeconds).toInt ≤ clockSkewSeconds.toInt) :
    InTime now later := by
  have hlifetime : grantLifetimeSeconds.toInt = 120 := by decide
  have hlow := now.le_toInt
  have hhigh := now.toInt_lt
  have hrange : now.toInt + grantLifetimeSeconds.toInt < 2 ^ 63 := by
    by_contra hover
    rw [Int64.toInt_add, hlifetime] at hordered
    rw [hlifetime] at hover
    rw [Int.bmod_def] at hordered
    omega
  have hexpires := toInt_expiry hrange
  exact ⟨hrange, hstarted, by omega⟩

/-- An issued grant is accepted by a client's set exactly when it is in time, has the epoch that the
client read, and its key is among those that the client read. -/
theorem Client.Sound.accepts_iff (hscheme : Unforgeable) (h : client.Sound createdAt)
    (hgrant : grant.Sound id) :
    (∃ expect own, client.material.keySet.verify grant.token expect time = .ok own) ↔
      InTime grant.now time ∧ grant.epoch = client.state.1 ∧
        ∃ row ∈ client.rows, row.publicKey = grant.signer.verifyingKey.1.1 := by
  obtain ⟨hmatched, hepoch⟩ := h.matched
  have hsound := h.material
  constructor
  · rintro ⟨expect, own, hverify⟩
    obtain ⟨hbody, hfits, hsame, key, hkey, hverifies⟩ := KeySet.verify_signGrant hverify
    have hread := Grant.decodeBody_eq_ok.2 ⟨hfits, hbody.symm⟩
    rw [Grant.decodeBody_eq_ok.2 ⟨hgrant.fits, rfl⟩] at hread
    have hown := Except.ok.inj hread
    obtain ⟨-, hgrants⟩ := KeySet.verify_eq_ok.1 hverify
    rw [← hown] at hgrants hsame
    obtain ⟨loaded, hloaded, rfl⟩ := List.mem_map.1 hkey
    have hkeys := hscheme.own _ _ _ hverifies
    obtain ⟨row, hrow, hunseal, -⟩ := Matched.mem_right hmatched loaded hloaded
    refine ⟨InTime.of_grants hgrants.ordered hgrants.started hgrants.unexpired, hsame.trans hepoch,
      row, hrow, ?_⟩
    rw [← (opens_of_unsealKey hunseal).publicKey]
    exact congrArg (fun key : VerifyingKey => key.1.1) hkeys
  · rintro ⟨htime, hsame, row, hrow, hkey⟩
    obtain ⟨loaded, hloaded, hunseal, -⟩ := Matched.mem_left hmatched row hrow
    have hkeys : loaded.1.verifyingKey = grant.signer.verifyingKey :=
      Subtype.ext (Subtype.ext ((opens_of_unsealKey hunseal).publicKey.trans hkey))
    have hid : loaded.1.keyId = grant.signer.keyId := by
      rw [hsound.own loaded hloaded, hgrant.own]
      exact congrArg KeyId.of hkeys
    have hlisted : client.material.keySet.key grant.signer.keyId =
        some ⟨loaded.1.keyId, loaded.1.verifyingKey, loaded.2⟩ :=
      (KeySet.key_eq_some hsound.nodup).2 ⟨List.mem_map_of_mem hloaded, hid⟩
    have hverifies := hscheme.correct grant.signer.seed (signedMessage grantDomain
      (grant.signer.grant grant.epoch grant.expect grant.gcProof grant.now grant.nonce).encodeBody)
    refine ⟨grant.expect, _, KeySet.verify_eq_ok.2 ⟨⟨hgrant.fits, _, _, hlisted, trim_base64 _, ?_⟩,
      htime.grants (hsame.trans hepoch.symm) hgrant.proof⟩⟩
    rw [hkeys]
    exact hverifies

/-- No grant issued before the call is accepted at the time. -/
def JoinCall.ShutsOut (call : JoinCall) (host : Host) (time : Int64) : Prop :=
  ∀ grant ∈ call.before, ∀ expect, ¬ host.Accepts grant.token expect time

/-- After a join, no earlier grant is accepted exactly when, for each of them still in time,
the epoch was raised or its key ended before the client read them whose set the agent holds. -/
theorem rejoin_shuts_out_earlier_grants (hscheme : Unforgeable)
    (hrun : Relation.ReflTransGen (ExchangeStep createdAt id agent) .new x) {k : ℕ} {call : JoinCall}
    (hcall : x.calls k = some call) {trust : AgentTrust}
    (htrust : x.host.memory = some (some trust)) (time : Int64) :
    ∃ client ∈ x.clients, trust.keySet = client.material.signedKeySet ∧
      (call.ShutsOut x.host time ↔ ∀ grant ∈ call.before, InTime grant.now time →
        grant.epoch ≠ client.state.1 ∨
          ∀ row ∈ client.rows, row.publicKey ≠ grant.signer.verifyingKey.1.1) := by
  have hsound := Exchange.Sound.run hrun
  obtain ⟨client, hclient, hheld⟩ := hsound.host.memory trust htrust
  have hown := hsound.clients client hclient
  refine ⟨client, hclient, hheld, ?_⟩
  have haccepts (grant : Issued) (hgrant : grant ∈ call.before) :
      (∃ expect, x.host.Accepts grant.token expect time) ↔ InTime grant.now time ∧
        grant.epoch = client.state.1 ∧ ∃ row ∈ client.rows, row.publicKey = grant.signer.verifyingKey.1.1 := by
    rw [← hown.accepts_iff hscheme (hsound.issued grant ((hsound.calls k call hcall).2 grant hgrant))]
    refine exists_congr fun expect => ⟨?_, fun ⟨own, hverify⟩ => ⟨trust, own, htrust, ?_⟩⟩
    · rintro ⟨other, own, hother, hverify⟩
      rw [htrust] at hother
      cases hother
      rw [hheld] at hverify
      exact ⟨own, hverify⟩
    · rw [hheld]
      exact hverify
  constructor
  · intro hshut grant hgrant htime
    by_contra hlive
    rw [not_or, not_not] at hlive
    obtain ⟨hepoch, hkeys⟩ := hlive
    simp only [not_forall, not_not] at hkeys
    obtain ⟨row, hrow, hkey⟩ := hkeys
    obtain ⟨expect, haccept⟩ := (haccepts grant hgrant).2 ⟨htime, hepoch, row, hrow, hkey⟩
    exact hshut grant hgrant expect haccept
  · intro hstale grant hgrant expect haccept
    obtain ⟨htime, hepoch, row, hrow, hkey⟩ := (haccepts grant hgrant).1 ⟨expect, haccept⟩
    rcases hstale grant hgrant htime with hother | hkeys
    · exact hother hepoch
    · exact hkeys row hrow hkey

end

/-! ## A grant that outlives the volume -/

section

variable [Ed25519] [Digests]

/-- An agent waiting for a token takes it, with a set that is signed by itself. -/
theorem join_armed {v : Volume} {token : List Char} {keySet : SignedKeySet} {node : Option (List Char)}
    (htoken : v.token = some (joinTokenHash token)) (hsigned : keySet.selfSigned = true) :
    join v none token keySet node = .ok ⟨[pinNode node, .replaceKeySet keySet.toBytes, .removeToken],
      some ⟨keySet, node⟩⟩ := by
  unfold join
  rw [htoken]
  dsimp only
  rw [hashFromHex_joinTokenHash]
  exact guard_eq_ok.2 ⟨by simp, guard_eq_ok.2 ⟨fun h => h rfl, guard_eq_ok.2 ⟨by rw [hsigned]; decide, rfl⟩⟩⟩

/-- An agent that waits for a token is asked, takes the set, and its join is recorded. -/
theorem rejoin_run [MasterKey] {createdAt : Metadata.KeyId → Time} {id : String} {agent : Metadata.AgentId}
    {access after : Access} {past : List Access} {client : Client} {clients : List Client}
    {issued : List Issued} {token : List Char} {join : AgentJoin}
    (hrun : Relation.ReflTransGen (ExchangeStep createdAt id agent) .new
      ⟨access, past, clients, issued, fun _ => none, [], ⟨⟨some (joinTokenHash token), none, none⟩, some none⟩⟩)
    (husable : tokenUsable access token agent 0)
    (hopens : Exchange.Opens createdAt ⟨access, past, clients, issued, fun _ => none, [],
      ⟨⟨some (joinTokenHash token), none, none⟩, some none⟩⟩ client)
    (hvalid : client.material.signedKeySet.Valid)
    (hsigned : client.material.signedKeySet.selfSigned = true) (hown : join.agentId = agent)
    (hrecord : access.recordAgentJoin join (rowTokenHash token) 0 = .ok after) :
    ∃ x : Exchange, Relation.ReflTransGen (ExchangeStep createdAt id agent) .new x ∧
      x.calls 0 = some ⟨token, client, issued, access.agentJoins.any (·.agentId == agent), .returned⟩ ∧
      x.host.memory = some (some ⟨client.material.signedKeySet, none⟩) := by
  let call : JoinCall := ⟨token, client, issued, access.agentJoins.any (·.agentId == agent), .asked⟩
  let asked : Exchange := ⟨access, past, client :: clients, issued, Function.update (fun _ => none) 0 (some call),
    [], ⟨⟨some (joinTokenHash token), none, none⟩, some none⟩⟩
  have hsent : Function.update (fun _ => none) 0 (some call) 0 = some call := Function.update_self ..
  have hasked : Relation.ReflTransGen (ExchangeStep createdAt id agent) .new asked :=
    hrun.tail (.asked rfl husable hopens)
  have hjoin : (Call.join token client.material.signedKeySet hvalid none).plan asked.host.volume none =
      .ok ⟨[pinNode none, .replaceKeySet client.material.signedKeySet.toBytes, .removeToken],
        some ⟨client.material.signedKeySet, none⟩⟩ :=
    join_armed (v := asked.host.volume) rfl hsigned
  let delivered : Exchange := ⟨access, past, client :: clients, issued,
    Function.update (fun _ => none) 0 (some call), [(0, .joined)],
    ⟨⟨none, some client.material.signedKeySet.toBytes, none⟩, some (some ⟨client.material.signedKeySet, none⟩)⟩⟩
  have hdelivered : Relation.ReflTransGen (ExchangeStep createdAt id agent) .new delivered :=
    hasked.tail (.delivered (x := asked) (k := 0) hsent (Step.accepted hjoin) rfl)
  have hrecorded := hdelivered.tail (.recorded (x := delivered) (k := 0) hsent
    (.inl ⟨rfl, List.mem_cons_self⟩) hown hrecord)
  exact ⟨_, hrecorded, rfl, rfl⟩

end

section

local instance rejoinEd25519 : Ed25519 := plainScheme

local instance rejoinDigests : Digests := firstBytes

local instance rejoinMasterKey : MasterKey := plainMaster

def knownJoin : AgentJoin := ⟨5, none, "http://127.0.0.1:7101"⟩

/-- An agent is joined, a token is made for its second join, and used. -/
def knownAgent : Except Metadata.MetadataError (Access × Access × Access × Access × Access) := do
  let first ← rotations 0
  let armed ← first.insertJoinToken (rowTokenHash ['t']) 5 100
  let known ← armed.recordAgentJoin knownJoin (rowTokenHash ['t']) 0
  let rearmed ← known.insertJoinToken (rowTokenHash ['u']) 5 100
  let rejoined ← rearmed.recordAgentJoin knownJoin (rowTokenHash ['u']) 0
  return (first, armed, known, rearmed, rejoined)

/-- The writes of `knownAgent`, and what is in the database before the second join. -/
theorem knownAgent_writes : ∃ first armed known rearmed rejoined,
    Writes Metadata.Database.new.toAccess first ∧ Writes first armed ∧ Writes armed known ∧
    Writes known rearmed ∧ rearmed.recordAgentJoin knownJoin (rowTokenHash ['u']) 0 = .ok rejoined ∧
    rearmed.grantState = ⟨1, 1⟩ ∧ (listedKeys rearmed).length = 1 ∧ tokenUsable rearmed ['u'] 5 0 ∧
    rearmed.agentJoins.any (·.agentId == 5) = true := by
  have hsome : ∃ result, knownAgent = .ok result := by
    cases h : knownAgent with
    | ok result => exact ⟨result, rfl⟩
    | error error =>
      have hok : knownAgent.toBool = true := by decide +kernel
      rw [h] at hok
      cases hok
  obtain ⟨⟨first, armed, known, rearmed, rejoined⟩, hresult⟩ := hsome
  have hfacts : (match knownAgent with
      | .ok (_, _, _, rearmed, _) => decide (rearmed.grantState = ⟨1, 1⟩ ∧ (listedKeys rearmed).length = 1 ∧
          rearmed.joinTokens.find? (·.tokenHash == rowTokenHash ['u']) =
            some ⟨rowTokenHash ['u'], 5, 100, none⟩ ∧ rearmed.agentJoins.any (·.agentId == 5) = true)
      | .error _ => false) = true := by decide +kernel
  rw [hresult] at hfacts
  obtain ⟨hstate, hlisted, htoken, hknown⟩ := of_decide_eq_true hfacts
  unfold knownAgent at hresult
  obtain ⟨_, h₁, hresult⟩ := bind_eq_ok.1 hresult
  obtain ⟨_, h₂, hresult⟩ := bind_eq_ok.1 hresult
  obtain ⟨_, h₃, hresult⟩ := bind_eq_ok.1 hresult
  obtain ⟨_, h₄, hresult⟩ := bind_eq_ok.1 hresult
  obtain ⟨_, h₅, hresult⟩ := bind_eq_ok.1 hresult
  cases hresult
  exact ⟨first, armed, known, rearmed, rejoined, writes_first h₁, ⟨.insertJoinToken _ _ _, trivial, h₂⟩,
    ⟨.recordAgentJoin _ _ _, trivial, h₃⟩, ⟨.insertJoinToken _ _ _, trivial, h₄⟩, h₅, hstate, hlisted,
    ⟨_, htoken, rfl, rfl, by decide⟩, hknown⟩

/-- A grant is issued, the agent is joined again on a fresh volume, and the join returns. -/
theorem rejoined : ∃ (x : Exchange) (call : JoinCall) (grant : Issued) (trust : AgentTrust),
    Relation.ReflTransGen (ExchangeStep (fun _ => 0) "a" 5) .new x ∧ x.calls 0 = some call ∧
    call.phase = .returned ∧ call.known = true ∧ call.before = [grant] ∧ grant.now = 0 ∧
    x.host.memory = some (some trust) ∧ ∃ client : Client, client.Sound (fun _ => 0) ∧
      grant.Sound "a" ∧ trust.keySet = client.material.signedKeySet ∧ grant.epoch = client.state.1 ∧
      ∃ row ∈ client.rows, row.publicKey = grant.signer.verifyingKey.1.1 := by
  obtain ⟨first, armed, known, rearmed, rejoined, h₁, h₂, h₃, h₄, h₅, hstate, hlisted, husable, hknown⟩ :=
    knownAgent_writes
  have hkeys : rearmed.signingKeys ≠ [] := by
    intro hnil
    unfold listedKeys at hlisted
    rw [hnil] at hlisted
    cases hlisted
  have hstored := Stored.run unwraps_plainMaster (.tail (.tail (.tail (.single h₁) h₂) h₃) h₄)
  obtain ⟨material, hload⟩ := hstored.load hkeys (by rw [hstate]; decide)
  have hread : readGrantState rearmed.grantState = .ok (1, 1) := by
    rw [hstate]
    rfl
  let client : Client := ⟨(1, 1), signingKeys (fun _ => 0) rearmed,
    ⟨material.signers, 1, 1, material.active_first⟩⟩
  have hmade : GrantMaterial.assemble client.state client.rows = .ok client.material :=
    assemble_of_load hload (1, 1)
  have hsound : client.Sound (fun _ => 0) := ⟨⟨rearmed, hstored.keyed, rfl⟩, hmade⟩
  let grant : Issued := ⟨client.material.active, client.material.epoch, ⟨"a", .health, .agent⟩, none, 0,
    ⟨List.replicate 16 0, rfl⟩⟩
  have hfits : (utf8Bytes "a").length ≤ maxAgentIdBytes := by decide +kernel
  have hgrant : grant.Sound "a" :=
    ⟨hsound.material.own _ (List.head_mem client.material.signers_ne_nil), rfl, fun h => (nomatch h),
      hfits⟩
  have hlen : client.material.signers.length ≤ maxKeys := by
    show material.signers.length ≤ maxKeys
    rw [length_of_load hload, hlisted]
    decide
  have hvalid : client.material.signedKeySet.Valid :=
    (SignedKeySet.fromBytes_eq_ok.1 (hsound.material.fromBytes hlen)).1
  have hsigned : client.material.signedKeySet.selfSigned = true :=
    hsound.material.signedBy unforgeable_plainScheme hsound.material
      ⟨_, List.head_mem client.material.signers_ne_nil, _, List.head_mem _, rfl⟩
  have hkey : ∃ row ∈ client.rows, row.publicKey = grant.signer.verifyingKey.1.1 := by
    obtain ⟨row, hrow, hunseal, -⟩ := Matched.mem_right hsound.matched.1 _
      (List.head_mem client.material.signers_ne_nil)
    exact ⟨row, hrow, (opens_of_unsealKey hunseal).publicKey.symm⟩
  let past : List Access := [known, armed, first, Metadata.Database.new.toAccess]
  let noCalls : ℕ → Option JoinCall := fun _ => none
  have hopens (clients : List Client) (issued : List Issued) (replies : List (ℕ × Reply)) (host : Host) :
      Exchange.Opens (fun _ => 0) ⟨rearmed, past, clients, issued, noCalls, replies, host⟩ client :=
    ⟨rearmed, List.mem_cons_self, hread, rfl, hmade⟩
  have hwritten : Relation.ReflTransGen (ExchangeStep (fun _ => 0) "a" 5) .new
      ⟨rearmed, past, [], [], noCalls, [], .fresh⟩ :=
    .tail (.tail (.tail (.single (.write h₁)) (.write h₂)) (.write h₃)) (.write h₄)
  have hissued : Relation.ReflTransGen (ExchangeStep (fun _ => 0) "a" 5) .new
      ⟨rearmed, past, [client], [grant], noCalls, [], .fresh⟩ :=
    (hwritten.tail (.opened (hopens _ _ _ _))).tail (.issued List.mem_cons_self grant.expect rfl none
      (fun h => (nomatch h)) 0 _ hgrant.fits)
  have hstarted : Relation.ReflTransGen (ExchangeStep (fun _ => 0) "a" 5) .new
      ⟨rearmed, past, [client], [grant], noCalls, [], waiting ['u']⟩ :=
    (hissued.tail (.hosted (.opened rfl) fun _ h => (nomatch h))).tail
      (.hosted (show Step _ (.accepted (.armJoinToken ['u'])) _ from step_accept rfl) fun call h => by
        cases h
        exact .inl ⟨_, rfl⟩)
  obtain ⟨x, hrun, hcall, htrust⟩ := rejoin_run hstarted husable (hopens _ _ _ _) hvalid hsigned
    (show knownJoin.agentId = 5 from rfl) h₅
  rw [hknown] at hcall
  exact ⟨x, _, grant, _, hrun, hcall, rfl, rfl, rfl, rfl, htrust, client, hsound, hgrant, rfl, rfl, hkey⟩

/-- A grant that has expired is shut out. -/
theorem rejoin_shuts_out_earlier_grants_expired : ∃ (x : Exchange) (call : JoinCall),
    call.before ≠ [] ∧ call.phase = .returned ∧ call.ShutsOut x.host 1000 := by
  obtain ⟨x, call, grant, trust, hrun, hcall, hreturned, -, hbefore, hnow, htrust, -⟩ := rejoined
  obtain ⟨client, -, -, hiff⟩ :=
    rejoin_shuts_out_earlier_grants unforgeable_plainScheme hrun hcall htrust 1000
  refine ⟨x, call, by simp [hbefore], hreturned, hiff.2 fun own hown htime => ?_⟩
  rw [hbefore, List.mem_singleton] at hown
  have hunexpired := htime.unexpired
  rw [hown, hnow] at hunexpired
  exact absurd hunexpired (by decide)

end

/-- A grant issued right before the rejoin is accepted after it. -/
theorem earlier_grant_survives_rejoin : ¬ ∀ (_ : Ed25519) (_ : Digests) (_ : MasterKey), Unforgeable →
    ∀ (createdAt : Metadata.KeyId → Time) (id : String) (agent : Metadata.AgentId) (x : Exchange),
      Relation.ReflTransGen (ExchangeStep createdAt id agent) .new x →
      ∀ k call, x.calls k = some call → call.phase = .returned → call.known = true →
      ∀ time, call.ShutsOut x.host time := by
  intro h
  let scheme := plainScheme
  let digests := firstBytes
  let master := plainMaster
  obtain ⟨x, call, grant, trust, hrun, hcall, hreturned, hknown, hbefore, hnow, htrust, client, hsound,
    hgrant, hheld, hepoch, hkey⟩ := rejoined
  have hshut := h scheme digests master unforgeable_plainScheme (fun _ => 0) "a" 5 x hrun 0 call hcall
    hreturned hknown 0 grant (hbefore ▸ List.mem_cons_self)
  have htime : InTime grant.now 0 := by
    rw [hnow]
    exact ⟨by decide, by decide, by decide⟩
  obtain ⟨expect, own, hverify⟩ := (hsound.accepts_iff unforgeable_plainScheme hgrant).2
    ⟨htime, hepoch, hkey⟩
  refine hshut expect ⟨trust, own, htrust, ?_⟩
  rw [hheld]
  exact hverify

end Trust

end DistrHnsw
