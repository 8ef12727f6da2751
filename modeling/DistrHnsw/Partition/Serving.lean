import DistrHnsw.Partition.Forgotten
import DistrHnsw.Partition.Writing

/-!
# Calls of a serving partition

A partition serves the history that it has applied; its directories hold that history, and perhaps the
entry that was being logged when a call failed.  Every call keeps to this, whether it succeeds or fails,
and so do the directories at every moment of it.
-/

namespace DistrHnsw

namespace Index

open Wal (Entry Operation WalWriter Remains Standing NearEnd Clear)

namespace Partition

/-- The entry that an action logs when it is accepted. -/
def Action.entry (p : Partition) : Action → Option Entry
  | .upsert _ opId key vector payload =>
    some ⟨p.highWater + 1, opId, .upsert key payload (FlatVectors.stored vector p.metric)⟩
  | .delete _ opId key => some ⟨p.highWater + 1, opId, .delete key⟩
  | _ => none

/-- The actions of a partition that serves. -/
def Action.Serves : Action → Prop
  | .create .. | .bulkLoad .. | .open .. => False
  | _ => True

/-- The number of an answer. -/
def answerOf (opId : OpId) (result : Except PartitionError Applied) : Option (OpId × ℕ) :=
  result.toOption.map fun applied => (opId, applied.seq)

/-- What may be in the log behind the history when a call did not apply its entry. -/
def leftBehind (pending : Option Entry) (p : Partition) (entry : Option Entry) : Option Entry :=
  if p.wal.any WalWriter.poisoned then pending else entry

/-- The ledger is the history, perhaps with the entry that is pending. -/
def Extends (history : List Entry) (pending : Option Entry) (ledger : List Entry) : Prop :=
  ledger = history ∨ ∃ e, pending = some e ∧ ledger = history ++ [e]

variable [Digests]

/-- The operation that an action answers, with the number that it answers. -/
def Action.answer (p : Partition) : Action → Option (OpId × ℕ)
  | .upsert wal opId key vector payload => answerOf opId (p.upsert wal opId key vector payload).1
  | .delete wal opId key => answerOf opId (p.delete wal opId key).1
  | _ => none

/-- The directories of a ledger, of which the history was applied. -/
structure Held (config : PartitionConfig) (o : Origin) (history ledger : List Entry) (start : ℕ)
    (wal snap : Dir Bytes) : Prop where
  lawful : Ledger config ledger
  room : o.count + ledger.length < 2 ^ 32
  pos : 0 < start
  rooted : Rooted config o history start snap
  remains : Remains config.id start (ledger.drop (start - 1)) wal

/-- The directories hold the history, perhaps with the entry that is pending. -/
def Extended (config : PartitionConfig) (o : Origin) (history : List Entry) (pending : Option Entry)
    (wal snap : Dir Bytes) : Prop :=
  ∃ ledger start, Held config o history ledger start wal snap ∧ Extends history pending ledger

/-- A process that serves the history. -/
structure Serving (config : PartitionConfig) (o : Origin) (history ledger : List Entry) (start : ℕ)
    (wal snap : Dir Bytes) (s : Running) : Prop where
  follows : s.partition.Follows o history
  configured : s.partition.Configured config
  bounded : s.partition.snapshotHighWater = 0 ∨ s.partition.snapshotHighWater ∈ snap.names
  writer : ∃ w, s.partition.wal = some w ∧ NearEnd w.path wal ∧ (w.poisoned = true ∨
    ledger = history ∧ Standing config.id start (history.drop (start - 1)) w wal)
  captured (input : CompactionInput) : input ∈ s.captured → Pends o history s.partition input

/-- What a call leaves: the history, and perhaps an entry behind it; or its entry in the history. -/
inductive Calls (config : PartitionConfig) (o : Origin) (history : List Entry)
    (left entry : Option Entry) (answer : Option (OpId × ℕ)) (s s' : Running) (wal snap : Dir Bytes) :
    Prop
  | kept {ledger : List Entry} {start : ℕ} (mark : s'.partition.highWater = s.partition.highWater)
      (held : Held config o history ledger start wal snap) (grown : Extends history left ledger)
      (serving : Serving config o history ledger start wal snap s')
      (answered : ∀ pair, answer = some pair → ∃ x ∈ history, (x.opId, x.seq) = pair)
  | grown {e : Entry} {start : ℕ} (logged : entry = some e)
      (mark : s'.partition.highWater = s.partition.highWater + 1)
      (held : Held config o (history ++ [e]) (history ++ [e]) start wal snap)
      (serving : Serving config o (history ++ [e]) (history ++ [e]) start wal snap s')
      (answered : ∀ pair, answer = some pair → pair = (e.opId, e.seq))

section Serving

variable {config : PartitionConfig} {o : Origin} {history ledger : List Entry} {start : ℕ} {e : Entry}
  {wal snap wal' snap' : Dir Bytes} {s : Running} {p : Partition} {pending : Option Entry}
  {input : CompactionInput}

omit [Digests] in
theorem Extends.front (h : Extends history pending ledger) : history <+: ledger := by
  rcases h with rfl | ⟨e, -, rfl⟩
  · exact List.prefix_rfl
  · exact List.prefix_append _ _

/-- The first segment that is left starts in the history, or right behind it. -/
theorem Held.start_le (h : Held config o history ledger start wal snap) :
    start ≤ history.length + 1 := by
  rcases h.rooted.covered with rfl | ⟨n, hn, hle⟩
  · omega
  · obtain ⟨bytes, hfile⟩ := Dir.mem_names.1 hn
    have := (h.rooted.image n bytes hfile).1
    omega

/-- The directories of a longer ledger. -/
theorem Held.concat (h : Held config o history history start wal snap)
    (hl : Ledger config (history ++ [e])) (hroom : o.count + history.length + 1 < 2 ^ 32)
    (hremains : Remains config.id start (history.drop (start - 1) ++ [e]) wal') :
    Held config o history (history ++ [e]) start wal' snap where
  lawful := hl
  room := by
    rw [List.length_append, List.length_singleton]
    omega
  pos := h.pos
  rooted := h.rooted
  remains := by
    have := h.start_le
    rwa [List.drop_append_of_le_length (by omega)]

theorem Held.grow (h : Held config o history ledger start wal snap) (es : List Entry) :
    Held config o (history ++ es) ledger start wal snap :=
  ⟨h.lawful, h.room, h.pos, h.rooted.grow, h.remains⟩

/-! ## Mutations -/

omit [Digests] in
theorem Pends.same {p' : Partition} (h : Pends o history p input) (hsame : SameConfig p' p) :
    Pends o history p' input := by
  obtain ⟨n, q, hn, hq, hpq, hcaptured⟩ := h
  exact ⟨n, q, hn, hq, hsame.trans hpq, hcaptured⟩

omit [Digests] in
theorem Pends.concat (h : Pends o history p input) : Pends o (history ++ [e]) p input := by
  obtain ⟨n, q, hn, hq, hpq, hcaptured⟩ := h
  refine ⟨n, q, by rw [List.length_append]; omega, ?_, hpq, hcaptured⟩
  rwa [List.take_append_of_le_length hn]

theorem Serving.poisoned {w : WalWriter}
    (h : Serving config o history ledger start wal snap s) (hstopped : w.poisoned = true)
    (hnear : NearEnd w.path wal') (ledger' : List Entry) (start' : ℕ) :
    Serving config o history ledger' start' wal' snap
      { s with partition := { s.partition with wal := some w } } where
  follows := h.follows.frame (sameState_of_eq rfl) rfl
  configured := h.configured
  bounded := h.bounded
  writer := ⟨w, rfl, hnear, .inl hstopped⟩
  captured input hinput := (h.captured input hinput).same ⟨rfl, rfl⟩

theorem Serving.applied {w : WalWriter} {q : Partition}
    (h : Serving config o history ledger start wal snap s)
    (hheld : Held config o history history start wal snap) (hnext : s.partition.Next o history e)
    (happly : s.partition.apply e = .ok q)
    (hstanding : Standing config.id start (history.drop (start - 1) ++ [e]) w wal') :
    Serving config o (history ++ [e]) (history ++ [e]) start wal' snap
      { s with partition := { q with wal := some w } } where
  follows := (h.follows.of_apply hnext happly).frame (sameState_of_eq rfl) rfl
  configured := by
    have hconfigured : q.Configured config := h.configured.of_apply happly
    exact hconfigured
  bounded := by
    show q.snapshotHighWater = 0 ∨ q.snapshotHighWater ∈ snap.names
    rw [(steady_of_apply happly).snapshotHighWater]
    exact h.bounded
  writer := by
    have := hheld.start_le
    refine ⟨w, rfl, hstanding.near, .inr ⟨rfl, ?_⟩⟩
    rwa [List.drop_append_of_le_length (by omega)]
  captured input hinput := by
    refine (h.captured input hinput).concat.same ?_
    rw [eq_of_apply happly]
    exact ⟨rfl, rfl⟩

section Mutate

variable {log : Device} {opId : OpId} {operation : Operation} {w : WalWriter}

/-- A poisoned writer refuses. -/
theorem mutate_of_poisoned (hwal : p.wal = some w) (hstopped : w.poisoned = true) :
    p.mutate log opId operation = (.error (.wal .poisoned), p, log) := by
  have hsame : { p with wal := some w } = p := by rw [← hwal]
  unfold Partition.mutate WalWriter.appendUnsynced
  rw [hwal]
  dsimp only
  rw [if_pos hstopped]
  dsimp only
  rw [hsame]

/-- What may be the next entry of the history. -/
structure Offered (config : PartitionConfig) (o : Origin) (history : List Entry) (p : Partition)
    (opId : OpId) (operation : Operation) (e : Entry) : Prop where
  entry : e = ⟨p.highWater + 1, opId, operation⟩
  room : o.count + history.length + 1 < 2 ^ 32
  clear : Clear e
  acceptable : Acceptable config.dims operation
  fresh : p.idempotency.get opId = none

theorem Serving.next (h : Serving config o history ledger start wal snap s)
    (ho : Offered config o history s.partition opId operation e) (hvalid : e.Valid) :
    s.partition.Next o history e := by
  have hroom := ho.room
  refine ⟨hvalid, ?_, ?_, by omega⟩
  · rw [ho.entry, ← h.follows.highWater]
  · rw [ho.entry]
    exact h.follows.fresh_iff.1 ho.fresh

theorem Serving.lawful (h : Serving config o history ledger start wal snap s)
    (hheld : Held config o history history start wal snap)
    (ho : Offered config o history s.partition opId operation e) (hvalid : e.Valid) :
    Ledger config (history ++ [e]) := by
  have hnext := h.next ho hvalid
  have haccept := ho.acceptable
  rw [show operation = e.operation by rw [ho.entry]] at haccept
  refine hheld.lawful.concat hvalid hnext.seq haccept ?_
  rw [← h.configured.window]
  exact hnext.fresh

/-- A writer that stands at the end of the log adds the entry to it before it is applied. -/
theorem Serving.mutate_standing (h : Serving config o history history start log.files snap s)
    (hheld : Held config o history history start log.files snap) (hwal : s.partition.wal = some w)
    (hstanding : Standing config.id start (history.drop (start - 1)) w log.files)
    (ho : Offered config o history s.partition opId operation e) :
    log.Through (Extended config o history (some e) · snap)
        (s.partition.mutate log opId operation).2.2 ∧
      Calls config o history (some e) (some e)
        (answerOf opId (s.partition.mutate log opId operation).1) s
        { s with partition := (s.partition.mutate log opId operation).2.1 }
        (s.partition.mutate log opId operation).2.2.files snap := by
  have hstart := hheld.start_le
  have hpos := hheld.pos
  have hroom := ho.room
  have hmark := h.follows.highWater
  have hnextSeq : w.nextSeq = s.partition.highWater + 1 := by
    rw [hstanding.next, List.length_drop]
    omega
  obtain ⟨hthrough, hlogged⟩ :=
    logged_of_mutate hstanding hwal (by omega) (hnextSeq ▸ ho.entry) ho.clear
  have hextended (m : Dir Bytes) (hm : Remains config.id start (history.drop (start - 1)) m ∨
      e.Valid ∧ Remains config.id start (history.drop (start - 1) ++ [e]) m) :
      Extended config o history (some e) m snap := by
    rcases hm with hm | ⟨hvalid, hm⟩
    · exact ⟨history, start, ⟨hheld.lawful, hheld.room, hpos, hheld.rooted, hm⟩, .inl rfl⟩
    · exact ⟨_, start, hheld.concat (h.lawful hheld ho hvalid) hroom hm, .inr ⟨e, rfl, rfl⟩⟩
  have hthrough : log.Through (Extended config o history (some e) · snap)
      (s.partition.mutate log opId operation).2.2 :=
    ⟨hextended _ hthrough.files, fun m hm => (hthrough.moments m hm).imp_right (hextended m)⟩
  refine ⟨hthrough, ?_⟩
  have hfiles := hthrough.files
  generalize s.partition.mutate log opId operation = out at hlogged hfiles ⊢
  cases hlogged with
  | refused error => exact .kept rfl hheld (.inl rfl) h fun _ hok => by cases hok
  | poisoned stopped near =>
    obtain ⟨ledger', start', hheld', hgrown'⟩ := hfiles
    exact .kept rfl hheld' hgrown' (h.poisoned stopped near ledger' start') fun _ hok => by cases hok
  | @applied result q w' log' happly hvalid hstanding' hok =>
    have hheld' := (hheld.concat (h.lawful hheld ho hvalid) hroom hstanding'.remains).grow [e]
    refine .grown rfl ?_ hheld' (h.applied hheld (h.next ho hvalid) happly hstanding')
      fun pair hpair => ?_
    · show q.highWater = s.partition.highWater + 1
      rw [eq_of_apply happly, ho.entry]
    · obtain ⟨applied, happlied, rfl⟩ := Option.map_eq_some_iff.1 hpair
      cases result with
      | error error => cases happlied
      | ok applied' =>
        cases happlied
        rw [hok _ rfl, ho.entry]

/-- Logging an entry, and applying it. -/
theorem Serving.mutate (h : Serving config o history ledger start log.files snap s)
    (hheld : Held config o history ledger start log.files snap)
    (hgrown : Extends history pending ledger)
    (ho : Offered config o history s.partition opId operation e) :
    log.Through (Extended config o history (leftBehind pending s.partition (some e)) · snap)
        (s.partition.mutate log opId operation).2.2 ∧
      Calls config o history (leftBehind pending s.partition (some e)) (some e)
        (answerOf opId (s.partition.mutate log opId operation).1) s
        { s with partition := (s.partition.mutate log opId operation).2.1 }
        (s.partition.mutate log opId operation).2.2.files snap := by
  obtain ⟨w, hwal, hnear, hstopped | ⟨rfl, hstanding⟩⟩ := h.writer
  · have hleft : leftBehind pending s.partition (some e) = pending := by
      rw [leftBehind, hwal, Option.any_some, if_pos hstopped]
    rw [mutate_of_poisoned hwal hstopped, hleft]
    exact ⟨.unchanged ⟨ledger, start, hheld, hgrown⟩ rfl rfl,
      .kept rfl hheld hgrown h fun _ hok => by cases hok⟩
  · have hleft : leftBehind pending s.partition (some e) = some e := by
      rw [leftBehind, hwal, Option.any_some, if_neg (by rw [hstanding.live]; decide)]
    rw [hleft]
    exact h.mutate_standing hheld hwal hstanding ho

end Mutate

/-- An upsert repeats an earlier outcome, is refused, or is logged. -/
theorem upsert_offers (p : Partition) (log : Device) (opId : OpId) (key : Bytes) (vector : List F32)
    (payload : Bytes) :
    (∃ seq, p.idempotency.get opId = some seq ∧
      p.upsert log opId key vector payload = (.ok ⟨seq, true⟩, p, log)) ∨
    (∃ e, p.upsert log opId key vector payload = (.error e, p, log)) ∨
    p.idempotency.get opId = none ∧ vector.length = p.config.dims ∧
      (∀ value ∈ vector, value.isFinite = true) ∧
      p.upsert log opId key vector payload =
        p.mutate log opId (.upsert key payload (FlatVectors.stored vector p.metric)) := by
  unfold upsert
  split
  · rename_i seq hseen
    exact .inl ⟨seq, hseen, rfl⟩
  rename_i hfresh
  split
  · exact .inr (.inl ⟨_, rfl⟩)
  rename_i hdims
  split
  · exact .inr (.inl ⟨_, rfl⟩)
  rename_i hfinite
  split
  · exact .inr (.inl ⟨_, rfl⟩)
  split
  · exact .inr (.inl ⟨_, rfl⟩)
  · refine .inr (.inr ⟨hfresh, not_not.1 hdims, fun value hvalue => ?_, rfl⟩)
    by_contra hnot
    exact hfinite (List.any_eq_true.2 ⟨value, hvalue, by simpa using hnot⟩)

theorem delete_offers (p : Partition) (log : Device) (opId : OpId) (key : Bytes) :
    (∃ seq, p.idempotency.get opId = some seq ∧ p.delete log opId key = (.ok ⟨seq, true⟩, p, log)) ∨
    p.idempotency.get opId = none ∧ p.delete log opId key = p.mutate log opId (.delete key) := by
  unfold delete
  split
  · rename_i seq hseen
    exact .inl ⟨seq, hseen, rfl⟩
  · rename_i hfresh
    exact .inr ⟨hfresh, rfl⟩

omit [Digests] in
/-- What the window answers is in the history. -/
theorem Follows.answered {opId : OpId} {seq : ℕ} (h : p.Follows o history)
    (hseen : p.idempotency.get opId = some seq) : ∃ x ∈ history, (x.opId, x.seq) = (opId, seq) := by
  have hmem := (h.window.seqs opId seq).1 hseen
  obtain ⟨x, hx, hpair⟩ := List.mem_map.1 hmem
  exact ⟨x, List.mem_of_mem_drop hx, hpair⟩

/-! ## Other calls -/

theorem Serving.still {p' : Partition} (h : Serving config o history ledger start wal snap s)
    (hsame : s.partition.SameState p') (hids : p'.idempotency = s.partition.idempotency)
    (hconfig : p'.Configured config) (hwal : p'.wal = s.partition.wal)
    (hmark : p'.snapshotHighWater = s.partition.snapshotHighWater) :
    Serving config o history ledger start wal snap { s with partition := p' } where
  follows := h.follows.frame hsame hids
  configured := hconfig
  bounded := by
    dsimp only
    rw [hmark]
    exact h.bounded
  writer := by
    dsimp only
    rw [hwal]
    exact h.writer
  captured input hinput := (h.captured input hinput).same hsame.config

theorem Serving.rebased {p' : Partition} {snap snap' : Device}
    (h : Serving config o history ledger start wal snap.files s)
    (hr : Rebased config o history start s.partition snap p' snap') :
    Serving config o history ledger start wal snap'.files { s with partition := p' } where
  follows := hr.follows
  configured := h.configured.same hr.same
  bounded := by
    rcases hr.bounded with hmark | hmark
    · dsimp only
      rw [hmark]
      exact h.bounded.imp_right fun hname => hr.through.files.2 hname
    · exact .inr hmark
  writer := by
    dsimp only
    rw [hr.wal]
    exact h.writer
  captured input hinput := (h.captured input hinput).same hr.same

theorem Held.shortened {p : Partition} {start' : ℕ}
    (h : Held config o history ledger start wal snap)
    (hbounded : p.snapshotHighWater = 0 ∨ p.snapshotHighWater ∈ snap.names)
    (hshort : Shortened config.id p.snapshotHighWater start ledger wal' start') :
    Held config o history ledger start' wal' snap := by
  obtain ⟨hpos, hshort, hremains⟩ := hshort
  refine ⟨h.lawful, h.room, hpos, h.rooted.moved (hshort.imp_right fun hle => ?_), hremains⟩
  rcases hbounded with hmark | hmark
  · exact .inl (by omega)
  · exact .inr ⟨_, hmark, hle⟩

/-- What a call does: to the directories at every moment, and to the process when it returns. -/
structure Handled (config : PartitionConfig) (o : Origin) (history : List Entry) (left : Option Entry)
    (s : Running) (a : Action) (d d' : Disk) : Prop where
  wal : d.wal.Through (Extended config o history left · d.snap.files) d'.wal
  snap : d.snap.Through (Extended config o history left d.wal.files ·) d'.snap
  apart : d'.wal = d.wal ∨ d'.snap = d.snap
  calls (s' : Running) : Step (some s) a s' → Calls config o history left (a.entry s.partition)
    (a.answer s.partition) s s' d'.wal.files d'.snap.files

/-- A call that leaves the directories. -/
theorem Handled.idle {left : Option Entry} {a : Action} {d : Disk}
    (hheld : Extended config o history left d.wal.files d.snap.files)
    (hcalls : ∀ s', Step (some s) a s' → Calls config o history left (a.entry s.partition)
      (a.answer s.partition) s s' d.wal.files d.snap.files) :
    Handled config o history left s a d d :=
  ⟨.unchanged hheld rfl rfl, .unchanged hheld rfl rfl, .inl rfl, hcalls⟩

/-- A call that only uses the log. -/
theorem Handled.logs {left : Option Entry} {a : Action} {d : Disk} {wal : Device}
    (hheld : Extended config o history left d.wal.files d.snap.files)
    (hwal : d.wal.Through (Extended config o history left · d.snap.files) wal)
    (hcalls : ∀ s', Step (some s) a s' → Calls config o history left (a.entry s.partition)
      (a.answer s.partition) s s' wal.files d.snap.files) :
    Handled config o history left s a d { d with wal } :=
  ⟨hwal, .unchanged hheld rfl rfl, .inr rfl, hcalls⟩

/-- A call that only stores a state. -/
theorem Handled.stores {left : Option Entry} {a : Action} {d d' : Disk}
    (hheld : Extended config o history left d.wal.files d.snap.files) (hwal : d'.wal = d.wal)
    (hsnap : d.snap.Through (Extended config o history left d.wal.files ·) d'.snap)
    (hcalls : ∀ s', Step (some s) a s' → Calls config o history left (a.entry s.partition)
      (a.answer s.partition) s s' d.wal.files d'.snap.files) :
    Handled config o history left s a d d' where
  wal := .unchanged hheld (by rw [hwal]) (by rw [hwal])
  snap := hsnap
  apart := .inl hwal
  calls s' hstep := by
    rw [hwal]
    exact hcalls s' hstep

/-- What a call asks of the state before it: slots are left, no frame starts inside the frame of the
entry, and normalizing the vector of the entry left it finite. -/
structure Action.Fits (o : Origin) (history : List Entry) (p : Partition) (a : Action) : Prop where
  room : o.count + history.length + 1 < 2 ^ 32
  clear (e : Entry) : a.entry p = some e → Clear e
  finite (wal : Device) (opId : OpId) (key payload : Bytes) (vector : List F32) :
    a = .upsert wal opId key vector payload → (∀ value ∈ vector, value.isFinite = true) →
      ∀ value ∈ FlatVectors.stored vector p.metric, value.isFinite = true

section Handle

variable {d d' : Disk} {a : Action} {left : Option Entry}

/-- With a log that takes an entry, nothing else is pending. -/
theorem Serving.extends_left (h : Serving config o history ledger start wal snap s)
    (hgrown : Extends history pending ledger) (entry : Option Entry) :
    Extends history (leftBehind pending s.partition entry) ledger := by
  obtain ⟨w, hwal, -, hstopped | ⟨rfl, -⟩⟩ := h.writer
  · rw [leftBehind, hwal, Option.any_some, if_pos hstopped]
    exact hgrown
  · exact .inl rfl

theorem Serving.kept (h : Serving config o history ledger start wal snap s)
    (hheld : Held config o history ledger start wal snap) (hgrown : Extends history left ledger)
    {entry : Option Entry} {s' : Running} {opId : OpId} {seq : ℕ}
    (hseen : s.partition.idempotency.get opId = some seq) (hs : s' = s) :
    Calls config o history left entry (some (opId, seq)) s s' wal snap := by
  rw [hs]
  refine .kept rfl hheld hgrown h fun pair hpair => ?_
  cases hpair
  exact h.follows.answered hseen

theorem Serving.upserts {opId : OpId} {key payload : Bytes} {vector : List F32}
    (h : Serving config o history ledger start d.wal.files d.snap.files s)
    (hheld : Held config o history ledger start d.wal.files d.snap.files)
    (hgrown : Extends history pending ledger)
    (hfits : (Action.upsert d.wal opId key vector payload).Fits o history s.partition) :
    Handled config o history (leftBehind pending s.partition
      ((Action.upsert d.wal opId key vector payload).entry s.partition)) s
      (.upsert d.wal opId key vector payload) d
      { d with wal := (s.partition.upsert d.wal opId key vector payload).2.2 } := by
  have hleft := h.extends_left hgrown ((Action.upsert d.wal opId key vector payload).entry s.partition)
  have hextended := (⟨ledger, start, hheld, hleft⟩ : Extended config o history _ d.wal.files d.snap.files)
  obtain ⟨seq, hseen, heq⟩ | ⟨error, heq⟩ | ⟨hfresh, hdims, hfinite, heq⟩ :=
    upsert_offers s.partition d.wal opId key vector payload
  · refine .logs hextended (.unchanged hextended (by rw [heq]) (by rw [heq])) fun s' hstep => ?_
    cases hstep
    rw [Action.answer, heq]
    exact h.kept hheld hleft hseen rfl
  · refine .logs hextended (.unchanged hextended (by rw [heq]) (by rw [heq])) fun s' hstep => ?_
    cases hstep
    rw [Action.answer, heq]
    exact .kept rfl hheld hleft h fun pair hpair => by cases hpair
  · have ho : Offered config o history s.partition opId
        (.upsert key payload (FlatVectors.stored vector s.partition.metric)) _ :=
      ⟨rfl, hfits.room, hfits.clear _ rfl, ⟨(FlatVectors.length_stored _ _).trans
        (hdims.trans h.configured.dims), hfits.finite _ _ _ _ _ rfl hfinite⟩, hfresh⟩
    obtain ⟨hthrough, hcalls⟩ := h.mutate hheld hgrown ho
    rw [← heq] at hthrough hcalls
    refine .logs hextended hthrough fun s' hstep => ?_
    cases hstep
    exact hcalls

theorem Serving.deletes {opId : OpId} {key : Bytes}
    (h : Serving config o history ledger start d.wal.files d.snap.files s)
    (hheld : Held config o history ledger start d.wal.files d.snap.files)
    (hgrown : Extends history pending ledger)
    (hfits : (Action.delete d.wal opId key).Fits o history s.partition) :
    Handled config o history
      (leftBehind pending s.partition ((Action.delete d.wal opId key).entry s.partition)) s
      (.delete d.wal opId key) d { d with wal := (s.partition.delete d.wal opId key).2.2 } := by
  have hleft := h.extends_left hgrown ((Action.delete d.wal opId key).entry s.partition)
  have hextended := (⟨ledger, start, hheld, hleft⟩ : Extended config o history _ d.wal.files d.snap.files)
  obtain ⟨seq, hseen, heq⟩ | ⟨hfresh, heq⟩ := delete_offers s.partition d.wal opId key
  · refine .logs hextended (.unchanged hextended (by rw [heq]) (by rw [heq])) fun s' hstep => ?_
    cases hstep
    rw [Action.answer, heq]
    exact h.kept hheld hleft hseen rfl
  · have ho : Offered config o history s.partition opId (.delete key) _ :=
      ⟨rfl, hfits.room, hfits.clear _ rfl, trivial, hfresh⟩
    obtain ⟨hthrough, hcalls⟩ := h.mutate hheld hgrown ho
    rw [← heq] at hthrough hcalls
    refine .logs hextended hthrough fun s' hstep => ?_
    cases hstep
    exact hcalls

/-- A state that was stored. -/
theorem Serving.stores {p' : Partition} (hwal : d'.wal = d.wal)
    (h : Serving config o history ledger start d.wal.files d.snap.files s)
    (hheld : Held config o history ledger start d.wal.files d.snap.files)
    (hleft : Extends history left ledger)
    (hr : Rebased config o history start s.partition d.snap p' d'.snap)
    (hquiet : a.answer s.partition = none)
    (hsteps : ∀ s', Step (some s) a s' → s' = { s with partition := p' }) :
    Handled config o history left s a d d' := by
  have hrooted (m : Dir Bytes)
      (hm : Rooted config o history start m ∧ d.snap.files.names ⊆ m.names) :
      Held config o history ledger start d.wal.files m :=
    ⟨hheld.lawful, hheld.room, hheld.pos, hm.1, hheld.remains⟩
  refine .stores ⟨ledger, start, hheld, hleft⟩ hwal
    ⟨⟨ledger, start, hrooted _ hr.through.files, hleft⟩, fun m hm => ?_⟩ fun s' hstep => ?_
  · refine (hr.through.moments m hm).imp_right fun hmoment => ?_
    exact ⟨ledger, start, hrooted m hmoment, hleft⟩
  · rw [hsteps s' hstep, hquiet]
    refine .kept ?_ (hrooted _ hr.through.files) hleft (h.rebased hr) fun pair hpair => by cases hpair
    exact hr.follows.highWater.trans h.follows.highWater.symm

theorem Serving.truncates
    (h : Serving config o history ledger start d.wal.files d.snap.files s)
    (hheld : Held config o history ledger start d.wal.files d.snap.files)
    (hleft : Extends history left ledger) :
    Handled config o history left s (.truncateWal d.wal) d
      { d with wal := (s.partition.truncateWalBelowSnapshot d.wal).2 } := by
  obtain ⟨w, hwal, hnear, hwriter⟩ := h.writer
  obtain ⟨hthrough, start', hshort, hnear', hstanding⟩ :=
    truncated_of_truncateWal hwal hheld.pos hheld.remains hnear
  refine .logs ⟨ledger, start, hheld, hleft⟩
    ⟨⟨ledger, start', hheld.shortened h.bounded hshort, hleft⟩, fun m hm => ?_⟩ fun s' hstep => ?_
  · refine (hthrough.moments m hm).imp_right fun hmoment => ?_
    obtain ⟨start', hshort⟩ := hmoment
    exact ⟨ledger, start', hheld.shortened h.bounded hshort, hleft⟩
  · cases hstep
    refine .kept rfl (hheld.shortened h.bounded hshort) hleft ?_ fun pair hpair => by cases hpair
    refine ⟨h.follows, h.configured, h.bounded, ⟨w, hwal, hnear', ?_⟩, h.captured⟩
    refine hwriter.imp_right fun hstands => ?_
    exact ⟨hstands.1, hstanding history w hstands.2⟩

/-- Every call keeps to the history. -/
theorem Serving.handled
    (h : Serving config o history ledger start d.wal.files d.snap.files s)
    (hheld : Held config o history ledger start d.wal.files d.snap.files)
    (hgrown : Extends history pending ledger) (hserves : a.Serves) (hfits : a.Fits o history s.partition)
    (hleaves : a.Leaves (some s) d d') :
    Handled config o history (leftBehind pending s.partition (a.entry s.partition)) s a d d' := by
  have hleft := h.extends_left hgrown (a.entry s.partition)
  have hseq (e : Entry) (he : e ∈ history) : e.seq < 2 ^ 64 :=
    hheld.lawful.seq_lt e (hgrown.front.subset he)
  have hroom : o.count + history.length < 2 ^ 32 := by
    have := hfits.room
    omega
  cases a with
  | create d config => cases hserves
  | bulkLoad d config vectors keys index => cases hserves
  | «open» d => cases hserves
  | upsert wal opId key vector payload =>
    obtain ⟨_, hs, rfl, rfl⟩ := hleaves
    cases hs
    exact h.upserts hheld hgrown hfits
  | delete wal opId key =>
    obtain ⟨_, hs, rfl, rfl⟩ := hleaves
    cases hs
    exact h.deletes hheld hgrown hfits
  | snapshot snap =>
    obtain ⟨_, hs, rfl, rfl⟩ := hleaves
    cases hs
    refine h.stores rfl hheld hleft
      (rebased_of_snapshot h.follows h.configured hheld.rooted hroom hseq) rfl fun s' hstep => ?_
    cases hstep
    rfl
  | truncateWal wal =>
    obtain ⟨_, hs, rfl, rfl⟩ := hleaves
    cases hs
    exact h.truncates hheld hleft
  | captureCompaction =>
    cases hleaves
    refine .idle ⟨ledger, start, hheld, hleft⟩ fun s' hstep => ?_
    cases hstep with
    | captureCompaction ok =>
      refine .kept rfl hheld hleft ?_ fun pair hpair => by cases hpair
      refine ⟨h.follows, h.configured, h.bounded, h.writer, fun input hinput => ?_⟩
      rcases List.mem_cons.1 hinput with rfl | hinput
      · refine ⟨history.length, s.partition, le_rfl, ?_, .refl _, captured_of_captureCompaction ok⟩
        rw [List.take_length]
        exact h.follows
      · exact h.captured input hinput
  | finishCompaction e input index =>
    obtain ⟨_, hs, rfl, hinput, hbuilds, rfl⟩ := hleaves
    cases hs
    obtain ⟨hwal, hr⟩ := rebased_of_finishCompaction h.follows h.configured hheld.lawful hgrown.front
      hheld.room hheld.remains hheld.rooted (h.captured input hinput) hbuilds
    refine h.stores hwal hheld hleft hr rfl fun s' hstep => ?_
    cases hstep
    rfl
  | setRamBudget budget =>
    cases hleaves
    refine .idle ⟨ledger, start, hheld, hleft⟩ fun s' hstep => ?_
    cases hstep
    refine .kept rfl hheld hleft ?_ fun pair hpair => by cases hpair
    refine h.still ⟨⟨rfl, rfl⟩, rfl, rfl, rfl, rfl, rfl⟩ rfl ?_ rfl rfl
    exact h.configured.same ⟨rfl, rfl⟩
  | setFailpoint failpoint =>
    cases hleaves
    refine .idle ⟨ledger, start, hheld, hleft⟩ fun s' hstep => ?_
    cases hstep
    refine .kept rfl hheld hleft ?_ fun pair hpair => by cases hpair
    exact h.still ⟨⟨rfl, rfl⟩, rfl, rfl, rfl, rfl, rfl⟩ rfl h.configured rfl rfl

end Handle

end Serving

end Partition

end Index

end DistrHnsw
