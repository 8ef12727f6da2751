import DistrHnsw.Partition.Stored

/-!
# Replaying a ledger

The ledger of a partition is everything it logged since it was created, also what was removed from
its directory since.  A state that follows the ledger up to some entry skips the entries that it
has, takes in those behind it, and follows the ledger up to the last one that was read.
-/

namespace DistrHnsw

namespace Index

open Wal (Entry Operation Contiguous SegmentRead)

/-- What a partition of this configuration can have logged. -/
structure Ledger (config : PartitionConfig) (es : List Entry) : Prop where
  contiguous : Contiguous 1 es
  valid : ∀ e ∈ es, e.Valid
  acceptable : ∀ e ∈ es, Partition.Acceptable config.dims e.operation
  spaced : Spaced config.idempotencyWindow es

section Ledger

variable {config : PartitionConfig} {es : List Entry} {e : Entry} {n : ℕ}

theorem ledger_nil : Ledger config [] :=
  ⟨trivial, fun _ h => absurd h List.not_mem_nil, fun _ h => absurd h List.not_mem_nil, spaced_nil⟩

theorem Ledger.concat (h : Ledger config es) (hvalid : e.Valid) (hseq : e.seq = es.length + 1)
    (haccept : Partition.Acceptable config.dims e.operation)
    (hfresh : Fresh config.idempotencyWindow es e.opId) : Ledger config (es ++ [e]) where
  contiguous := Wal.contiguous_append.2 ⟨h.contiguous, by omega, trivial⟩
  valid x hx := by
    rcases List.mem_append.1 hx with hx | hx
    · exact h.valid x hx
    · rw [List.mem_singleton.1 hx]
      exact hvalid
  acceptable x hx := by
    rcases List.mem_append.1 hx with hx | hx
    · exact h.acceptable x hx
    · rw [List.mem_singleton.1 hx]
      exact haccept
  spaced := spaced_concat.2 ⟨h.spaced, hfresh⟩

theorem Ledger.of_append {fs : List Entry} (h : Ledger config (es ++ fs)) : Ledger config es where
  contiguous := (Wal.contiguous_append.1 h.contiguous).1
  valid x hx := h.valid x (List.mem_append_left fs hx)
  acceptable x hx := h.acceptable x (List.mem_append_left fs hx)
  spaced := by
    have htake := h.spaced.take es.length
    rwa [List.take_left] at htake

theorem Ledger.seq_eq (h : Ledger config es) (hat : es[n]? = some e) : e.seq = n + 1 := by
  obtain ⟨hlt, rfl⟩ := List.getElem?_eq_some_iff.1 hat
  rw [h.contiguous.getElem hlt, Nat.add_comm]

theorem Ledger.seq_lt (h : Ledger config es) : ∀ e ∈ es, e.seq < 2 ^ 64 :=
  fun e he => (h.valid e he).seq_lt

end Ledger

namespace Partition

/-- The configuration of the manifest, with any budget. -/
def Configured (config : PartitionConfig) (p : Partition) : Prop :=
  p.config = { config with ramBudgetBytes := p.config.ramBudgetBytes }

section Replay

variable {config : PartitionConfig} {o : Origin} {ledger es : List Entry} {e : Entry} {p p' : Partition}
  {n first : ℕ}

theorem Configured.dims (h : p.Configured config) : p.config.dims = config.dims := by
  rw [show p.config = _ from h]

theorem Configured.window (h : p.Configured config) :
    p.config.idempotencyWindow = config.idempotencyWindow := by
  rw [show p.config = _ from h]

theorem Configured.of_apply (h : p.Configured config) (hok : p.apply e = .ok p') :
    p'.Configured config := by
  unfold Configured
  rw [(same_of_apply hok).2.1]
  exact h

/-- The next entry of the ledger comes next. -/
theorem Ledger.next (hl : Ledger config ledger) (hconfig : p.Configured config)
    (hroom : o.count + ledger.length < 2 ^ 32) (hat : ledger[n]? = some e) :
    p.Next o (ledger.take n) e := by
  have hlt := (List.getElem?_eq_some_iff.1 hat).1
  refine ⟨hl.valid e (List.mem_of_getElem? hat), ?_, ?_, ?_⟩
  · rw [hl.seq_eq hat, List.length_take, Nat.min_eq_left hlt.le]
  · rw [hconfig.window]
    exact hl.spaced n e hat
  · rw [List.length_take]
    omega

theorem take_concat {α : Type} {l : List α} {a : α} (hat : l[n]? = some a) :
    l.take n ++ [a] = l.take (n + 1) := by
  rw [List.take_add_one, hat]
  rfl

theorem Follows.of_apply_ledger (h : p.Follows o (ledger.take n)) (hl : Ledger config ledger)
    (hconfig : p.Configured config) (hroom : o.count + ledger.length < 2 ^ 32)
    (hat : ledger[n]? = some e) (hok : p.apply e = .ok p') : p'.Follows o (ledger.take (n + 1)) := by
  have hfollows := h.of_apply (Ledger.next hl hconfig hroom hat) hok
  rwa [take_concat hat] at hfollows

theorem Follows.exists_apply_ledger (h : p.Follows o (ledger.take n)) (hl : Ledger config ledger)
    (hconfig : p.Configured config) (hroom : o.count + ledger.length < 2 ^ 32)
    (hat : ledger[n]? = some e) : ∃ p', p.apply e = .ok p' := by
  refine h.exists_apply (Ledger.next hl hconfig hroom hat) ?_
  rw [hconfig.dims]
  exact hl.acceptable e (List.mem_of_getElem? hat)

/-- What a replay leaves alone. -/
structure Steady (p p' : Partition) : Prop where
  config : p'.config = p.config
  wal : p'.wal = p.wal
  failpoint : p'.failpoint = p.failpoint
  snapshotHighWater : p'.snapshotHighWater = p.snapshotHighWater

theorem Steady.refl (p : Partition) : Steady p p := ⟨rfl, rfl, rfl, rfl⟩

theorem Steady.trans {q : Partition} (h : Steady p p') (h' : Steady p' q) : Steady p q where
  config := h'.config.trans h.config
  wal := h'.wal.trans h.wal
  failpoint := h'.failpoint.trans h.failpoint
  snapshotHighWater := h'.snapshotHighWater.trans h.snapshotHighWater

theorem steady_of_apply (hok : p.apply e = .ok p') : Steady p p' := by
  rw [eq_of_apply hok]
  exact ⟨rfl, rfl, rfl, rfl⟩

theorem Steady.configured (h : Steady p p') (hp : p.Configured config) : p'.Configured config := by
  unfold Configured
  rw [h.config]
  exact hp

theorem Follows.highWater_take (h : p.Follows o (ledger.take n)) (hn : n ≤ ledger.length) :
    p.highWater = n := by
  rw [h.highWater, List.length_take, Nat.min_eq_left hn]

/-- Entries at their place in the ledger. -/
theorem cons_prefix_drop (hfirst : 0 < first) (h : e :: es <+: ledger.drop (first - 1)) :
    ledger[first - 1]? = some e ∧ es <+: ledger.drop (first + 1 - 1) := by
  obtain ⟨rest, hrest⟩ := h
  have hhead : (ledger.drop (first - 1))[0]? = some e := by rw [← hrest]; rfl
  rw [List.getElem?_drop, Nat.add_zero] at hhead
  refine ⟨hhead, rest, ?_⟩
  have htail := congrArg (List.drop 1) hrest
  rw [List.drop_drop, show first - 1 + 1 = first + 1 - 1 by omega] at htail
  exact htail

/-- Replaying entries that continue the state brings it up to the last of them. -/
theorem Follows.replay_entries (h : p.Follows o (ledger.take n)) (hl : Ledger config ledger)
    (hconfig : p.Configured config) (hroom : o.count + ledger.length < 2 ^ 32)
    (hn : n ≤ ledger.length) (hfirst : 0 < first) (hle : first ≤ n + 1)
    (hes : es <+: ledger.drop (first - 1)) (path : ℕ) (report : RecoveryReport) :
    ∃ p' report', es.foldlM (replayEntry path) (p, report) = .ok (p', report') ∧
      p'.Follows o (ledger.take (max n (first - 1 + es.length))) ∧ Steady p p' ∧
      report'.snapshotHighWater = report.snapshotHighWater ∧
      report'.tornTailFound = report.tornTailFound := by
  induction es generalizing p n first report with
  | nil =>
    refine ⟨p, report, rfl, ?_, .refl p, rfl, rfl⟩
    rw [List.length_nil, Nat.add_zero, Nat.max_eq_left (by omega)]
    exact h
  | cons e es ih =>
    obtain ⟨hat, hrest⟩ := cons_prefix_drop hfirst hes
    have hseq := hl.seq_eq hat
    have hmark := h.highWater_take hn
    rw [List.foldlM_cons]
    by_cases hold : first ≤ n
    · have hskip : replayEntry path (p, report) e =
          .ok (p, { report with walEntriesSkipped := report.walEntriesSkipped + 1 }) := by
        unfold replayEntry
        dsimp only
        rw [if_pos (by omega)]
      rw [hskip, ok_bind]
      obtain ⟨p', report', hok, hfollows, hsteady, hsnapshot, htorn⟩ :=
        ih h hconfig hn (Nat.succ_pos first) (by omega) hrest
          { report with walEntriesSkipped := report.walEntriesSkipped + 1 }
      refine ⟨p', report', hok, ?_, hsteady, hsnapshot, htorn⟩
      rw [List.length_cons, show first - 1 + (es.length + 1) = first + 1 - 1 + es.length by omega]
      exact hfollows
    · have hnext : ledger[n]? = some e := by rwa [show n = first - 1 by omega]
      obtain ⟨q, happly⟩ := h.exists_apply_ledger hl hconfig hroom hnext
      have hq := h.of_apply_ledger hl hconfig hroom hnext happly
      have hstep : replayEntry path (p, report) e =
          .ok (q, { report with walEntriesReplayed := report.walEntriesReplayed + 1 }) := by
        unfold replayEntry
        dsimp only
        rw [if_neg (by omega), if_neg (by omega), happly]
        rfl
      rw [hstep, ok_bind]
      have hlt := (List.getElem?_eq_some_iff.1 hnext).1
      obtain ⟨p', report', hok, hfollows, hsteady, hsnapshot, htorn⟩ :=
        ih hq (hconfig.of_apply happly) hlt (Nat.succ_pos first) (by omega) hrest
          { report with walEntriesReplayed := report.walEntriesReplayed + 1 }
      refine ⟨p', report', hok, ?_, (steady_of_apply happly).trans hsteady, hsnapshot, htorn⟩
      rw [List.length_cons, show max n (first - 1 + (es.length + 1)) =
        max (n + 1) (first + 1 - 1 + es.length) by omega]
      exact hfollows

/-! ## Segments that were read -/

/-- Each segment is named by the number behind the one before. -/
def Named : ℕ → List (ℕ × SegmentRead) → Prop
  | _, [] => True
  | start, (first, read) :: log => first = start ∧ Named (start + read.entries.length) log

theorem named_append {log log' : List (ℕ × SegmentRead)} : Named first (log ++ log') ↔
    Named first log ∧ Named (first + (entriesRead log).length) log' := by
  induction log generalizing first with
  | nil => simp [Named, entriesRead]
  | cons segment log ih =>
    have hentries : entriesRead (segment :: log) = segment.2.entries ++ entriesRead log := rfl
    rw [List.cons_append, Named, Named, ih, hentries, List.length_append, ← Nat.add_assoc, and_assoc]

/-- A piece of the ledger that is continued by another. -/
theorem append_prefix_drop {es fs : List Entry} (h : es ++ fs <+: ledger.drop n) :
    es <+: ledger.drop n ∧ fs <+: ledger.drop (n + es.length) := by
  obtain ⟨rest, hrest⟩ := h
  rw [List.append_assoc] at hrest
  refine ⟨⟨fs ++ rest, hrest⟩, rest, ?_⟩
  rw [← List.drop_drop, ← hrest, List.drop_left]

/-- A piece of the ledger counts up from its place. -/
theorem Ledger.contiguous_piece (hl : Ledger config ledger) (hfirst : 0 < first)
    (hes : es <+: ledger.drop (first - 1)) : Wal.Contiguous first es := by
  rcases List.eq_nil_or_concat es with rfl | ⟨init, last, rfl⟩
  · trivial
  obtain ⟨rest, hrest⟩ := hes
  have hlen := congrArg List.length hrest
  simp only [List.length_append, List.length_concat, List.length_drop] at hlen
  have hsplit := hl.contiguous
  rw [← List.take_append_drop (first - 1) ledger, ← hrest, Wal.contiguous_append,
    Wal.contiguous_append, List.length_take] at hsplit
  rw [show 1 + min (first - 1) ledger.length = first by omega] at hsplit
  exact hsplit.2.1

/-- What replaying segments leaves: the state at the end of the last of them. -/
structure ReplayedTo (o : Origin) (ledger : List Entry) (last : ℕ) (state out : Replay) : Prop where
  follows : out.partition.Follows o (ledger.take last)
  steady : Steady state.partition out.partition

/-- One segment: its entries are replayed, and it is seen. -/
theorem replayRead_eq (state : Replay) (segment : ℕ × SegmentRead) : ∃ report,
    replayRead state segment =
      segment.2.entries.foldlM (replayEntry segment.1) (state.partition, report) >>= fun out =>
        .ok ⟨out.1, out.2,
          state.sawHistory || decide (segment.1 ≤ succ64 state.partition.highWater),
          some (match state.walEnd with
            | none => segment.2.lastSeq.getD (segment.1 - 1)
            | some seen => max seen (segment.2.lastSeq.getD (segment.1 - 1)))⟩ :=
  ⟨_, rfl⟩

/-- Replaying segments that continue the state brings it up to the end of the last of them. -/
theorem Follows.replay_reads {state : Replay} {log : List (ℕ × SegmentRead)}
    (h : state.partition.Follows o (ledger.take n)) (hl : Ledger config ledger)
    (hconfig : state.partition.Configured config) (hroom : o.count + ledger.length < 2 ^ 32)
    (hn : n ≤ ledger.length) (hfirst : 0 < first) (hle : first ≤ n + 1) (hnamed : Named first log)
    (hlog : entriesRead log <+: ledger.drop (first - 1)) :
    ∃ out, log.foldlM replayRead state = .ok out ∧
      ReplayedTo o ledger (max n (first - 1 + (entriesRead log).length)) state out ∧
      (log ≠ [] → out.sawHistory = true ∧
        ∃ seen, out.walEnd = some seen ∧ first - 1 + (entriesRead log).length ≤ seen) ∧
      (log = [] → out = state) := by
  induction log generalizing state n first with
  | nil =>
    refine ⟨state, rfl, ⟨?_, .refl _⟩, fun hne => absurd rfl hne, fun _ => rfl⟩
    rw [show (entriesRead []).length = 0 from rfl, Nat.add_zero, Nat.max_eq_left (by omega)]
    exact h
  | cons segment log ih =>
    obtain ⟨first', read⟩ := segment
    obtain ⟨rfl, hnamed⟩ := hnamed
    have hentries : entriesRead ((first', read) :: log) = read.entries ++ entriesRead log := rfl
    rw [hentries] at hlog ⊢
    obtain ⟨hpiece, hrest⟩ := append_prefix_drop hlog
    have hlen := hpiece.length_le
    rw [List.length_drop] at hlen
    have hlast := (Ledger.contiguous_piece hl hfirst hpiece).lastSeq read.tornTail
    obtain ⟨found, hstep⟩ := replayRead_eq state (first', read)
    obtain ⟨q, report, hok, hfollows, hsteady, -, -⟩ :=
      h.replay_entries hl hconfig hroom hn hfirst hle hpiece first' found
    have hmark := h.highWater_take hn
    have hsaw : decide (first' ≤ succ64 state.partition.highWater) = true := by
      rw [hmark, succ64_of_lt (by omega)]
      exact decide_eq_true hle
    dsimp only at hstep
    rw [hok, ok_bind, hsaw, Bool.or_true] at hstep
    rw [show first' - 1 + read.entries.length = first' + read.entries.length - 1 by omega] at hrest
    generalize hnext : Replay.mk _ _ _ _ = next at hstep
    have hnextFollows :
        next.partition.Follows o (ledger.take (max n (first' - 1 + read.entries.length))) := by
      rw [← hnext]
      exact hfollows
    have hnextConfig : next.partition.Configured config := by
      rw [← hnext]
      exact hsteady.configured hconfig
    obtain ⟨out, hfold, hreplayed, hseen, hnil⟩ := ih hnextFollows hnextConfig (by omega) (by omega)
      (by omega) hnamed hrest
    have hsteady' : Steady state.partition next.partition := by
      rw [← hnext]
      exact hsteady
    have hend : first' - 1 + read.entries.length ≤ (match state.walEnd with
        | none => read.lastSeq.getD (first' - 1)
        | some seen => max seen (read.lastSeq.getD (first' - 1))) := by
      have hlast : read.lastSeq.getD (first' - 1) = first' + read.entries.length - 1 := hlast
      rw [hlast]
      split <;> omega
    refine ⟨out, ?_, ⟨?_, hsteady'.trans hreplayed.steady⟩, fun _ => ?_, fun hne => by cases hne⟩
    · rw [List.foldlM_cons, hstep]
      exact hfold
    · have hto := hreplayed.follows
      have hmax : max n (first' - 1 + (read.entries.length + (entriesRead log).length)) =
          max (max n (first' - 1 + read.entries.length))
            (first' + read.entries.length - 1 + (entriesRead log).length) := by omega
      rw [List.length_append, hmax]
      exact hto
    · by_cases hne : log = []
      · subst hne
        obtain rfl := hnil rfl
        rw [← hnext]
        exact ⟨rfl, _, rfl, by simpa [entriesRead] using hend⟩
      · obtain ⟨hsaw', seen, hseen, hle'⟩ := hseen hne
        refine ⟨hsaw', seen, hseen, ?_⟩
        rw [List.length_append]
        omega

end Replay

end Partition

end Index

end DistrHnsw
