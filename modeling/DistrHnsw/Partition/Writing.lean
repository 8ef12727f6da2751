import DistrHnsw.Partition.Runs
import DistrHnsw.Partition.Surviving

/-!
# Serving a ledger

What each operation of a running partition does to its directories and to the ledger: a mutation adds
one entry to the log before it is applied, a snapshot and a compaction store a state that follows the
ledger, and the segments that are removed are covered by a snapshot.
-/

namespace DistrHnsw

namespace Index

open Wal (Entry Operation WalWriter Remains Standing NearEnd Clear)

namespace Partition

section Mutation

variable [Digests] {id : Uuid} {start : ℕ} {log : List Entry} {w : WalWriter} {p : Partition}
  {wal : Device} {e : Entry}

/-- The outcomes of logging an entry: it is refused; or it may be in the log, and the writer is poisoned;
or it is in the log and applied. -/
inductive Logged (id : Uuid) (start : ℕ) (log : List Entry) (p : Partition) (wal : Device) (e : Entry) :
    Except PartitionError Applied × Partition × Device → Prop
  | refused (error : PartitionError) : Logged id start log p wal e (.error error, p, wal)
  | poisoned {error : PartitionError} {w : WalWriter} {wal' : Device} (stopped : w.poisoned = true)
      (near : NearEnd w.path wal'.files) :
      Logged id start log p wal e (.error error, { p with wal := some w }, wal')
  | applied {result : Except PartitionError Applied} {q : Partition} {w : WalWriter} {wal' : Device}
      (apply : p.apply e = .ok q) (valid : e.Valid)
      (standing : Standing id start (log ++ [e]) w wal'.files)
      (ok : ∀ applied, result = .ok applied → applied = ⟨e.seq, false⟩) :
      Logged id start log p wal e (result, { q with wal := some w }, wal')

omit [Digests] in
/-- Syncing and applying an entry leaves the directory as it is. -/
theorem syncAndApply_spec (p : Partition) (w : WalWriter) (wal : Device) (e : Entry) :
    (∃ error w' wal', ({ p with wal := some w } : Partition).syncAndApply wal e =
        (.error error, { p with wal := some w' }, wal') ∧ w'.path = w.path ∧
      wal'.files = wal.files ∧ wal'.moments = wal.moments) ∨
    ∃ q wal', p.apply e = .ok q ∧ ({ p with wal := some w } : Partition).syncAndApply wal e =
        (.ok (), { q with wal := some w }, wal') ∧
      wal'.files = wal.files ∧ wal'.moments = wal.moments := by
  obtain ⟨hfiles, hmoments⟩ := w.sync_files wal
  have hwriter := w.sync_writer wal
  unfold syncAndApply
  dsimp only
  split
  · exact .inl ⟨_, w, wal, rfl, rfl, rfl, rfl⟩
  generalize hsync : w.sync wal = synced at hfiles hmoments hwriter
  obtain ⟨result, w', wal'⟩ := synced
  have hpath : w'.path = w.path := by
    rcases hwriter with hw | hw
    · rw [show w' = w from hw]
    · rw [show w' = w.poison from hw]
      rfl
  cases result with
  | error error => exact .inl ⟨_, w', wal', rfl, hpath, hfiles, hmoments⟩
  | ok _ =>
    dsimp only
    split
    · exact .inl ⟨_, w', wal', rfl, hpath, hfiles, hmoments⟩
    · rw [apply_wal]
      obtain ⟨wal'', hok⟩ | ⟨_, _, _, herror⟩ := w.sync_cases wal
      · rw [hsync] at hok
        cases hok
        cases happly : p.apply e with
        | error error => exact .inl ⟨_, w, _, rfl, rfl, hfiles, hmoments⟩
        | ok q => exact .inr ⟨q, _, rfl, rfl, hfiles, hmoments⟩
      · rw [hsync] at herror
        cases herror

/-- A mutation of a partition whose writer stands at the end of its log. -/
theorem logged_of_mutate {opId : OpId} {operation : Operation}
    (h : Standing id start log w wal.files) (hwal : p.wal = some w)
    (hroom : w.nextSeq + 1 < 2 ^ 64) (he : e = ⟨w.nextSeq, opId, operation⟩) (hclear : Clear e) :
    wal.Through (fun m => Remains id start log m ∨ e.Valid ∧ Remains id start (log ++ [e]) m)
        (p.mutate wal opId operation).2.2 ∧
      Logged id start log p wal e (p.mutate wal opId operation) := by
  have hgrown := Wal.appendUnsynced_grown h hroom (he ▸ hclear)
  rw [← he] at hgrown
  obtain ⟨hthrough, hok, hfailed⟩ := hgrown
  unfold mutate
  rw [hwal]
  dsimp only
  generalize w.appendUnsynced wal opId operation = appended at hthrough hok hfailed
  obtain ⟨result, w', wal'⟩ := appended
  cases result with
  | error error =>
    refine ⟨hthrough, ?_⟩
    rcases hfailed error rfl with ⟨hsame, -⟩ | ⟨hstopped, hnear⟩
    · cases hsame
      have hp : { p with wal := some w } = p := by rw [← hwal]
      dsimp only
      rw [hp]
      exact .refused _
    · exact .poisoned hstopped hnear
  | ok seq =>
    obtain ⟨hseq, hvalid, hstanding⟩ := hok seq rfl
    dsimp only at hthrough hstanding ⊢
    rw [show Entry.mk seq opId operation = e by rw [hseq, he]]
    obtain ⟨error, w'', wal'', heq, hpath, hfiles, hmoments⟩ |
      ⟨q, wal'', happly, heq, hfiles, hmoments⟩ :=
      syncAndApply_spec p w' wal' e
    · rw [heq]
      refine ⟨hthrough.trans (.unchanged hthrough.files hfiles hmoments), .poisoned rfl ?_⟩
      show NearEnd w''.path wal''.files
      rw [hpath, hfiles]
      exact hstanding.near
    · rw [heq]
      have hstanding : Standing id start (log ++ [e]) w' wal''.files := hfiles ▸ hstanding
      have hthrough := hthrough.trans (.unchanged hthrough.files hfiles hmoments)
      dsimp only
      split
      · exact ⟨hthrough, .applied happly hvalid hstanding fun _ h => by cases h⟩
      · refine ⟨hthrough, .applied happly hvalid hstanding fun applied h => ?_⟩
        cases h
        rw [hseq]

end Mutation

/-! ## Removing segments -/

section Truncate

variable {mark path : ℕ} {names : List ℕ}

/-- Segments that the mark does not reach stay. -/
theorem removeCovered_idle {current : Option ℕ} {removed : ℕ} {wal : Device}
    (hsorted : names.Pairwise (· < ·)) (hlate : ∀ next ∈ names.tail, mark + 1 < next) :
    removeCovered mark current names removed wal = (.ok removed, wal) := by
  induction names with
  | nil => rfl
  | cons first names ih =>
    cases names with
    | nil => rfl
    | cons next rest =>
      rw [removeCovered, if_neg fun h => ?_]
      · refine ih hsorted.of_cons fun later hlater => ?_
        exact hlate later (List.mem_cons_of_mem _ hlater)
      · have := hlate next List.mem_cons_self
        omega

variable [Digests] {id : Uuid} {start : ℕ} {ledger : List Entry}

/-- What may have been removed: segments in front of one that the mark reaches. -/
def Shortened (id : Uuid) (mark start : ℕ) (ledger : List Entry) (files : Dir Bytes) (start' : ℕ) :
    Prop :=
  0 < start' ∧ (start' = start ∨ start' ≤ mark + 1) ∧
    Remains id start' (ledger.drop (start' - 1)) files

theorem Shortened.from {files : Dir Bytes} {start' next : ℕ}
    (h : Shortened id mark next ledger files start')
    (hreached : next ≤ mark + 1) : Shortened id mark start ledger files start' := by
  obtain ⟨hpos, hshort, hrest⟩ := h
  refine ⟨hpos, .inr ?_, hrest⟩
  rcases hshort with rfl | hshort
  · exact hreached
  · exact hshort

/-- The outcomes of removing segments: the rest of the ledger remains at every moment. -/
structure Truncated (id : Uuid) (mark path start : ℕ) (ledger : List Entry) (wal : Device)
    (out : Except PartitionError ℕ × Device) : Prop where
  through : wal.Through (fun m => ∃ start', Shortened id mark start ledger m start') out.2
  rest : ∃ start', Shortened id mark start ledger out.2.files start' ∧ NearEnd path out.2.files ∧
    ∀ (log : List Entry) (w : WalWriter), Standing id start (log.drop (start - 1)) w wal.files →
      Standing id start' (log.drop (start' - 1)) w out.2.files

theorem Truncated.unchanged {wal wal' : Device} {result : Except PartitionError ℕ} (hpos : 0 < start)
    (h : Remains id start (ledger.drop (start - 1)) wal.files) (hnear : NearEnd path wal.files)
    (hfiles : wal'.files = wal.files) (hmoments : wal'.moments = wal.moments) :
    Truncated id mark path start ledger wal (result, wal') where
  through := .unchanged ⟨start, hpos, .inl rfl, h⟩ hfiles hmoments
  rest := by
    refine ⟨start, ⟨hpos, .inl rfl, ?_⟩, ?_, fun log w hw => ?_⟩
    · rw [hfiles]
      exact h
    · rw [hfiles]
      exact hnear
    · rw [hfiles]
      exact hw

omit [Digests] in
theorem drop_drop_sub {log : List Entry} {next : ℕ} (hpos : 0 < start) (hle : start ≤ next) :
    (log.drop (start - 1)).drop (next - start) = log.drop (next - 1) := by
  rw [List.drop_drop]
  congr 1
  omega

omit [Digests] in
theorem files_of_names {files : Dir Bytes} {first next : ℕ} {rest : List ℕ}
    (h : files.names = first :: next :: rest) : ∃ content content' others,
      files.files = (first, content) :: (next, content') :: others ∧ rest = others.map Prod.fst := by
  rw [Dir.names, List.map_eq_cons_iff] at h
  obtain ⟨file, others, hfiles, rfl, h⟩ := h
  obtain ⟨file', others, rfl, rfl, rfl⟩ := List.map_eq_cons_iff.1 h
  exact ⟨_, _, _, hfiles, rfl⟩

omit [Digests] in
/-- A current segment in front of another is the last but one. -/
theorem near_alone {files : Dir Bytes} {file : ℕ × Bytes} {content : Bytes} {others : List (ℕ × Bytes)}
    (h : NearEnd path files) (hfiles : files.files = (path, content) :: file :: others) :
    others = [] := by
  obtain ⟨front, current, back, heq, hback, -⟩ := h
  have hsorted := files.sorted
  rw [hfiles] at heq hsorted
  cases front with
  | nil =>
    obtain ⟨-, hrest⟩ := List.cons.inj heq
    have hlen := congrArg List.length hrest
    rw [List.length_cons] at hlen
    exact List.length_eq_zero_iff.1 (by omega)
  | cons head front =>
    obtain ⟨rfl, hrest⟩ := List.cons.inj heq
    have hmem : (path, current) ∈ file :: others := by
      rw [hrest]
      exact List.mem_append_right _ List.mem_cons_self
    exact absurd ((List.pairwise_cons.1 hsorted).1 _ hmem) (Nat.lt_irrefl path)

theorem removeCovered_truncated {removed : ℕ} {wal : Device} (hnames : wal.files.names = names)
    (hpos : 0 < start) (h : Remains id start (ledger.drop (start - 1)) wal.files)
    (hnear : NearEnd path wal.files) :
    Truncated id mark path start ledger wal (removeCovered mark (some path) names removed wal) := by
  induction names generalizing start removed wal with
  | nil => exact .unchanged hpos h hnear rfl rfl
  | cons first names ih =>
    cases names with
    | nil => exact .unchanged hpos h hnear rfl rfl
    | cons next rest =>
      have hsorted := wal.files.sorted_names
      rw [hnames] at hsorted
      obtain ⟨content, content', others, hfiles, hrest⟩ := files_of_names hnames
      rw [removeCovered]
      by_cases hcovered : next ≤ mark + 1 ∧ some first ≠ some path
      · rw [if_pos hcovered]
        obtain ⟨hreached, hother⟩ := hcovered
        have hne : first ≠ path := fun heq => hother (congrArg some heq)
        obtain ⟨hle, herased⟩ := h.erase_first hnear hfiles hne
        rw [drop_drop_sub hpos hle] at herased
        have hswap := wal.swaps_remove first
        have hremoved : wal.Through (fun m => ∃ start', Shortened id mark start ledger m start')
            (wal.remove first).2 :=
          .swap hswap ⟨start, hpos, .inl rfl, h⟩ ⟨next, hpos.trans_le hle, .inr hreached, herased⟩
        refine Device.orFail_rule (Q := Truncated id mark path start ledger wal) (fun hno => ?_)
          fun hdone => ?_
        · rcases hswap with ⟨-, hsame, hmoments⟩ | ⟨hok, -⟩
          · exact .unchanged hpos h hnear hsame hmoments
          · rw [hok] at hno
            cases hno
        · have herase : (wal.remove first).2.files = wal.files.erase first := by
            rcases hswap with ⟨hno, -⟩ | ⟨-, herase, -⟩
            · rw [hdone] at hno
              cases hno
            · exact herase
          have hnext : (wal.remove first).2.files.names = next :: rest := by
            rw [herase, Dir.names, Dir.files_erase_first hfiles, hrest]
            rfl
          rw [← herase] at herased
          obtain ⟨hthrough, start', hshort, hnear', hstanding⟩ :=
            ih hnext (hpos.trans_le hle) herased (herase ▸ hnear.erase_first hfiles hne)
          refine ⟨hremoved.trans ⟨⟨start', hshort.from hreached⟩, fun m hm => ?_⟩, start',
            hshort.from hreached, hnear', fun log w hw => ?_⟩
          · refine (hthrough.moments m hm).imp_right fun hmoment => ?_
            obtain ⟨start', hshort⟩ := hmoment
            exact ⟨start', hshort.from hreached⟩
          · refine hstanding log w ?_
            rw [herase, ← drop_drop_sub hpos hle]
            exact hw.erase_first hfiles
      · rw [if_neg hcovered]
        rw [removeCovered_idle hsorted.of_cons fun later hlater => ?_]
        · exact .unchanged hpos h hnear rfl rfl
        · by_cases hreached : next ≤ mark + 1
          · -- the first segment is the current one, and at most one is behind it
            obtain rfl : first = path := by
              by_contra hne
              exact hcovered ⟨hreached, fun heq => hne (Option.some.inj heq)⟩
            rw [near_alone hnear hfiles, List.map_nil] at hrest
            rw [hrest] at hlater
            cases hlater
          · have := (List.pairwise_cons.1 hsorted.of_cons).1 later hlater
            omega

end Truncate

section Truncate

variable [Digests] {id : Uuid} {start : ℕ} {ledger : List Entry} {p : Partition} {wal : Device}
  {w : WalWriter}

theorem truncated_of_truncateWal (hwal : p.wal = some w) (hpos : 0 < start)
    (h : Remains id start (ledger.drop (start - 1)) wal.files) (hnear : NearEnd w.path wal.files) :
    Truncated id p.snapshotHighWater w.path start ledger wal (p.truncateWalBelowSnapshot wal) := by
  have htruncated : Truncated id p.snapshotHighWater w.path start ledger wal
      (removeCovered p.snapshotHighWater (some w.path) wal.files.names 0 wal) :=
    removeCovered_truncated rfl hpos h hnear
  unfold truncateWalBelowSnapshot
  rw [hwal, Option.map_some]
  generalize removeCovered p.snapshotHighWater (some w.path) wal.files.names 0 wal = out at htruncated
  obtain ⟨result, wal'⟩ := out
  cases result with
  | error e => exact ⟨htruncated.through, htruncated.rest⟩
  | ok removed =>
    dsimp only
    have hfiles : wal'.touch.2.files = wal'.files := wal'.touch_files
    split
    · have hsynced (result : Except PartitionError ℕ) :
          Truncated id p.snapshotHighWater w.path start ledger wal (result, wal'.touch.2) := by
        refine ⟨htruncated.through.trans (.touch htruncated.through.files), ?_⟩
        dsimp only
        rw [hfiles]
        exact htruncated.rest
      exact Device.orFail_rule (Q := Truncated id p.snapshotHighWater w.path start ledger wal)
        (fun _ => hsynced _) fun _ => hsynced _
    · exact ⟨htruncated.through, htruncated.rest⟩

end Truncate

/-! ## Storing a state -/

section Store

variable [Digests] {config : PartitionConfig} {o : Origin} {history es : List Entry} {start : ℕ}
  {snap : Dir Bytes} {p q : Partition}

theorem Rooted.grow (h : Rooted config o history start snap) :
    Rooted config o (history ++ es) start snap where
  image n bytes hfile := by
    obtain ⟨hn, himage⟩ := h.image n bytes hfile
    rw [List.length_append, List.take_append_of_le_length hn]
    exact ⟨by omega, himage⟩
  covered := h.covered
  origin := h.origin

theorem Rooted.moved {start' : ℕ} (h : Rooted config o history start snap)
    (hcovered : start' = start ∨ start' = 1 ∨ ∃ n ∈ snap.names, start' ≤ n + 1) :
    Rooted config o history start' snap where
  image := h.image
  covered := by
    rcases hcovered with rfl | hcovered
    · exact h.covered
    · exact hcovered
  origin := h.origin

omit [Digests] in
theorem names_subset_put {name : ℕ} {bytes : Bytes} : snap.names ⊆ (snap.put name bytes).names := by
  intro n hn
  obtain ⟨content, hn⟩ := Dir.mem_names.1 hn
  by_cases hname : n = name
  · exact Dir.mem_names.2 ⟨bytes, Dir.mem_put.2 (.inl ⟨hname, rfl⟩)⟩
  · exact Dir.mem_names.2 ⟨content, Dir.mem_put.2 (.inr ⟨hname, hn⟩)⟩

/-- A snapshot of a state that follows the whole history. -/
theorem Rooted.put (h : Rooted config o history start snap) (hq : q.Follows o history)
    (hconfig : q.Configured config) {bytes : Bytes} (hencode : encode q.snapshotInput = .ok bytes) :
    Rooted config o history start (snap.put q.highWater bytes) where
  image n content hfile := by
    rcases Dir.mem_put.1 hfile with ⟨rfl, rfl⟩ | ⟨-, hfile⟩
    · rw [hq.highWater, List.take_length]
      exact ⟨le_rfl, q, hq, hconfig, hencode⟩
    · exact h.image n content hfile
  covered := h.covered.imp_right fun ⟨n, hn, hle⟩ => ⟨n, names_subset_put hn, hle⟩
  origin hnil := by
    have hmem : (q.highWater, bytes) ∈ (snap.put q.highWater bytes).files :=
      Dir.mem_put.2 (.inl ⟨rfl, rfl⟩)
    rw [hnil] at hmem
    cases hmem

/-- A state that was stored, and perhaps exchanged: it serves the same. -/
structure Rebased (config : PartitionConfig) (o : Origin) (history : List Entry) (start : ℕ)
    (p : Partition) (snap : Device) (p' : Partition) (snap' : Device) : Prop where
  through : snap.Through (fun m => Rooted config o history start m ∧ snap.files.names ⊆ m.names) snap'
  follows : p'.Follows o history
  same : SameConfig p' p
  wal : p'.wal = p.wal
  bounded : p'.snapshotHighWater = p.snapshotHighWater ∨ p'.snapshotHighWater ∈ snap'.files.names

theorem snapshotted_rooted {snap : Device} (hp : p.Follows o history) (hconfig : p.Configured config)
    (hrooted : Rooted config o history start snap.files) (hroom : o.count + history.length < 2 ^ 32)
    (hseq : ∀ e ∈ history, e.seq < 2 ^ 64) :
    Snapshotted (fun m => Rooted config o history start m ∧ snap.files.names ⊆ m.names) p snap
      (p.snapshot snap) :=
  hp.snapshotted hroom hseq ⟨hrooted, List.Subset.refl _⟩
    fun _ hencode => ⟨hrooted.put hp hconfig hencode, names_subset_put⟩

omit [Digests] in
theorem Snapshotted.follows {P : Dir Bytes → Prop} {snap : Device}
    {out : Except PartitionError ℕ × Partition × Device} (h : Snapshotted P p snap out)
    (hp : p.Follows o history) :
    out.2.1.Follows o history ∧ SameConfig out.2.1 p ∧ out.2.1.wal = p.wal ∧
      out.2.1.idempotency = p.idempotency := by
  rcases h.partition with heq | ⟨vectors, mark, hrows, hdims, heq⟩
  · rw [heq]
    exact ⟨hp, .refl p, rfl, rfl⟩
  · rw [heq]
    exact ⟨hp.remapped hrows hdims mark, ⟨rfl, rfl⟩, rfl, rfl⟩

theorem rebased_of_snapshot {snap : Device} (hp : p.Follows o history) (hconfig : p.Configured config)
    (hrooted : Rooted config o history start snap.files) (hroom : o.count + history.length < 2 ^ 32)
    (hseq : ∀ e ∈ history, e.seq < 2 ^ 64) :
    Rebased config o history start p snap (p.snapshot snap).2.1 (p.snapshot snap).2.2 := by
  have h := snapshotted_rooted hp hconfig hrooted hroom hseq
  obtain ⟨hfollows, hsame, hwal, -⟩ := h.follows hp
  refine ⟨h.through, hfollows, hsame, hwal, h.bounded.imp_right fun ⟨hmark, hname⟩ => ?_⟩
  rw [hmark]
  exact hname

end Store

/-! ## Catching up -/

section CatchUp

variable {config : PartitionConfig} {o : Origin} {ledger : List Entry} {p p' : Partition} {e : Entry}

/-- An entry of the ledger is at the place of its number. -/
theorem Ledger.at_seq (hl : Ledger config ledger) (he : e ∈ ledger) : ledger[e.seq - 1]? = some e := by
  obtain ⟨i, hi, rfl⟩ := List.mem_iff_getElem.1 he
  rw [hl.contiguous.getElem hi, Nat.add_sub_cancel_left, List.getElem?_eq_getElem hi]

/-- A state that follows the ledger up to some entry. -/
def Catching (config : PartitionConfig) (o : Origin) (ledger : List Entry) (state : Partition × ℕ) :
    Prop :=
  state.1.Configured config ∧ ∃ n ≤ ledger.length, state.1.Follows o (ledger.take n)

theorem Catching.entry {rebuildPoint highWater path : ℕ} {state state' : Partition × ℕ}
    (h : Catching config o ledger state) (hl : Ledger config ledger)
    (hroom : o.count + ledger.length < 2 ^ 32) (he : e ∈ ledger)
    (hok : catchUpEntry rebuildPoint highWater path state e = .ok state') :
    Catching config o ledger state' := by
  obtain ⟨hconfig, n, hn, hfollows⟩ := h
  unfold catchUpEntry at hok
  split at hok
  · cases hok
    exact ⟨hconfig, n, hn, hfollows⟩
  · obtain ⟨hseq, hok⟩ := guard_eq_ok.1 hok
    obtain ⟨q, happly, hok⟩ := bind_eq_ok.1 hok
    cases hok
    have hat := Ledger.at_seq hl he
    rw [not_not.1 hseq, hfollows.highWater_take hn, Nat.add_sub_cancel] at hat
    exact ⟨hconfig.of_apply happly, n + 1, (List.getElem?_eq_some_iff.1 hat).1,
      hfollows.of_apply_ledger hl hconfig hroom hat happly⟩

variable [Digests]

/-- Catching up from the log that remains keeps to the ledger. -/
theorem Catching.segments {start rebuildPoint highWater : ℕ} {wal : Dir Bytes}
    {state state' : Partition × ℕ} (h : Catching config o ledger state) (hl : Ledger config ledger)
    (hroom : o.count + ledger.length < 2 ^ 32)
    (hremains : Remains config.id start (ledger.drop (start - 1)) wal)
    (hok : (enumerate wal.files).foldlM
      (catchUpSegment config.id (wal.files.length - 1) rebuildPoint highWater) state = .ok state') :
    Catching config o ledger state' := by
  obtain ⟨reads, hreads⟩ := Remains.readable hremains
  refine foldlM_ok_mem (fun segment hsegment state state' hstate hstep => ?_) h hok
  unfold catchUpSegment at hstep
  obtain ⟨position, first, bytes⟩ := segment
  dsimp only at hstep
  split at hstep
  · cases hstep
    exact hstate
  · obtain ⟨read, hread, hstep⟩ := bind_eq_ok.1 hstep
    refine foldlM_ok_mem (fun e he state state' hstate hstep => ?_) hstate hstep
    refine hstate.entry hl hroom ?_ hstep
    have hmem : e ∈ entriesRead reads := by
      obtain ⟨segment, hmem, hat⟩ := mapM_ok_of_mem hreads.readLog _ hsegment
      rw [readAt, mapError_eq_ok.1 hread] at hat
      cases hat
      exact List.mem_flatMap.2 ⟨_, hmem, he⟩
    rw [hreads.entries] at hmem
    exact List.mem_of_mem_drop hmem

end CatchUp

section Configured

variable {config : PartitionConfig} {p q : Partition}

theorem Configured.same (h : p.Configured config) (hsame : SameConfig q p) : q.Configured config := by
  unfold Configured at h ⊢
  rw [hsame.config, h]

/-- Two states of one configuration. -/
theorem Configured.sameConfig (h : p.Configured config) (hq : q.Configured config) (hrep : p.Rep)
    (hqrep : q.Rep) : SameConfig q p := by
  unfold Configured at h hq
  constructor
  · have hmetric := hrep.metricOf
    have hmetric' := hqrep.metricOf
    rw [h] at hmetric
    rw [hq] at hmetric'
    exact Except.ok.inj (hmetric'.symm.trans hmetric)
  · rw [h]
    exact hq

end Configured

section Compact

variable [Digests] {config : PartitionConfig} {o : Origin} {history ledger : List Entry} {start : ℕ}
  {p q : Partition} {d : Disk} {input : CompactionInput} {index : Hnsw}

/-- Captured from a state that followed the history up to some entry. -/
def Pends (o : Origin) (history : List Entry) (p : Partition) (input : CompactionInput) : Prop :=
  ∃ n q, n ≤ history.length ∧ q.Follows o (history.take n) ∧ SameConfig p q ∧ q.Captured input

omit [Digests] in
theorem Pends.staged (h : Pends o history p input) (hp : p.Rep)
    (hbuilds : BuildsParallel input.vectors input.metric input.params index) :
    ∃ n ≤ history.length, (p.staged (build input index)).Follows o (history.take n) := by
  obtain ⟨n, q, hn, hq, hsame, hcaptured⟩ := h
  obtain ⟨-, -, -, -, hm, hm0, -⟩ := PartitionConfig.validate_eq_ok hq.rep.config
  have hlen : input.vectors.len ≤ 2 ^ 32 := by
    rw [hcaptured.length_rows, hcaptured.length_slots, length_liveSlots]
    exact (List.length_filter_le _ _).trans hq.rep.slots_le
  have hparams : input.params = q.config.params := hcaptured.params
  have hbuilt := builtOver_of_buildsParallel (by rw [hparams]; exact hm.trans hm0)
    (by rw [hparams]; exact hm0) hlen hbuilds
  exact ⟨n, hn, hcaptured.follows hq hp hsame hbuilt⟩

theorem Rebased.kept {snap snap' : Device} (hp : p.Follows o history)
    (hthrough : snap.Through
      (fun m => Rooted config o history start m ∧ snap.files.names ⊆ m.names) snap') :
    Rebased config o history start p snap p snap' :=
  ⟨hthrough, hp, .refl p, rfl, .inl rfl⟩

/-- A compaction swaps in a state that serves the same, or leaves the one there is. -/
theorem rebased_of_finishCompaction (hp : p.Follows o history) (hconfig : p.Configured config)
    (hl : Ledger config ledger) (hgrown : history <+: ledger)
    (hroom : o.count + ledger.length < 2 ^ 32)
    (hremains : Remains config.id start (ledger.drop (start - 1)) d.wal.files)
    (hrooted : Rooted config o history start d.snap.files) (hpends : Pends o history p input)
    (hbuilds : BuildsParallel input.vectors input.metric input.params index) :
    (p.finishCompaction d (build input index)).2.2.wal = d.wal ∧
      Rebased config o history start p d.snap (p.finishCompaction d (build input index)).2.1
        (p.finishCompaction d (build input index)).2.2.snap := by
  have hstay : d.snap.Through
      (fun m => Rooted config o history start m ∧ d.snap.files.names ⊆ m.names) d.snap :=
    .unchanged ⟨hrooted, List.Subset.refl _⟩ rfl rfl
  have hid : p.config.id = config.id := by rw [show p.config = _ from hconfig]
  have hle := hgrown.length_le
  unfold finishCompaction
  dsimp only
  split
  · exact ⟨rfl, .kept hp hstay⟩
  · rename_i staged replayed hcatch
    split
    · exact ⟨rfl, .kept hp hstay⟩
    · rename_i hmark
      have hmark : staged.highWater = p.highWater := not_not.1 hmark
      obtain ⟨n, hn, hstart⟩ := hpends.staged hp.rep hbuilds
      have htake : history = ledger.take history.length := List.prefix_iff_eq_take.1 hgrown
      rw [htake, List.take_take, Nat.min_eq_left hn] at hstart
      have hstarting : Catching config o ledger (p.staged (build input index), 0) :=
        ⟨hconfig, n, hn.trans hle, hstart⟩
      rw [hid] at hcatch
      obtain ⟨hconfig', m, hm, hcaught⟩ := hstarting.segments hl hroom hremains hcatch
      have hreached : m = history.length := by
        rw [← hcaught.highWater_take hm, ← hp.highWater]
        exact hmark
      rw [hreached, ← htake] at hcaught
      have hseq (e : Entry) (he : e ∈ history) : e.seq < 2 ^ 64 := hl.seq_lt e (hgrown.subset he)
      have hsnapshot := snapshotted_rooted hcaught hconfig' hrooted (by omega) hseq
      obtain ⟨hfollows, hsame, -, -⟩ := hsnapshot.follows hcaught
      have hnamed := hsnapshot.named
      have hthrough := hsnapshot.through
      dsimp only at hfollows hsame hnamed hthrough
      generalize staged.snapshot d.snap = out at hfollows hsame hnamed hthrough
      obtain ⟨result, rebuilt, snap'⟩ := out
      cases result with
      | error error => exact ⟨rfl, .kept hp hthrough⟩
      | ok path =>
        dsimp only
        split
        · exact ⟨rfl, .kept hp hthrough⟩
        · have hsame' : SameConfig p rebuilt :=
            (hconfig'.same hsame).sameConfig hconfig hfollows.rep hp.rep
          refine ⟨rfl, hthrough, hfollows.frame ⟨⟨hsame'.metric, hsame'.config⟩, rfl, rfl, rfl, rfl, ?_⟩ rfl,
            ⟨rfl, rfl⟩, rfl, .inr ?_⟩
          · exact hp.highWater.trans hfollows.highWater.symm
          · rw [← hmark]
            exact hnamed path rfl

end Compact

end Partition

end Index

end DistrHnsw
