import DistrHnsw.Partition.Creation

/-!
# The life of a partition

A partition is created or bulk loaded, serves calls on devices of which any step may fail, stops at any
step, also in the middle of a call, and is opened again.  Its history is what it has applied since it was
created; the entry that was being logged when a call failed or the process stopped may be in the log
behind it.
-/

namespace DistrHnsw

namespace Index

open Wal (Entry Remains Standing Crashed)

namespace Partition

variable [Digests]

/-- A partition at some point of its life. -/
structure Life where
  wal : Dir Bytes
  snap : Dir Bytes
  process : Option Running
  /-- What was applied since the partition was created. -/
  history : List Entry
  /-- What may be in the log behind the history. -/
  pending : Option Entry
  answered : List (OpId × ℕ)
  /-- Whether every entry of the history was synced before it was applied. -/
  synced : Bool

namespace Life

variable (l : Life)

/-- The directories on devices of which some steps may fail. -/
def disk (config : PartitionConfig) (walFaults snapFaults : List (Option ℕ)) : Disk :=
  ⟨some config, ⟨l.wal, walFaults, []⟩, ⟨l.snap, snapFaults, []⟩⟩

/-- After a call, whether it succeeded or failed. -/
def called (s : Running) (a : Action) (s' : Running) (d' : Disk) : Life where
  wal := d'.wal.files
  snap := d'.snap.files
  process := some s'
  history := if s'.partition.highWater = s.partition.highWater then l.history
    else l.history ++ (a.entry s.partition).toList
  pending := if s'.partition.highWater = s.partition.highWater then
      leftBehind l.pending s.partition (a.entry s.partition)
    else none
  answered := l.answered ++ (a.answer s.partition).toList
  synced := l.synced

/-- After a call that did not return. -/
def interrupted (s : Running) (a : Action) (wal snap : Dir Bytes) : Life :=
  { l with
    wal, snap
    process := none
    pending := leftBehind l.pending s.partition (a.entry s.partition) }

/-- What a process that opens takes over of the entry behind the history. -/
def adopted (p : Partition) : List Entry :=
  if p.highWater = l.history.length then [] else l.pending.toList

/-- After opening. -/
def opened (p : Partition) (d' : Disk) : Life where
  wal := d'.wal.files
  snap := d'.snap.files
  process := some ⟨p, []⟩
  history := l.history ++ l.adopted p
  pending := none
  answered := l.answered
  synced := l.synced && (l.adopted p).isEmpty

/-- What is left of the log when everything stops: the process alone, or the machine with it.  The machine
takes with it what was not synced; opening does not sync an entry that it takes over. -/
def Stops (config : PartitionConfig) (wal : Dir Bytes) : Prop :=
  wal = l.wal ∨ l.synced = true ∧ Crashed config.id (l.history.length + 1) l.wal wal

end Life

/-- The directories before, while and after something was done. -/
structure Passes (d d' : Disk) (wal snap : Dir Bytes) : Prop where
  wal : wal ∈ d.wal.files :: d'.wal.files :: d'.wal.moments
  snap : snap ∈ d.snap.files :: d'.snap.files :: d'.snap.moments

/-- New directories on devices of which some steps may fail. -/
def unused (walFaults snapFaults : List (Option ℕ)) : Disk :=
  ⟨none, ⟨Dir.empty, walFaults, []⟩, ⟨Dir.empty, snapFaults, []⟩⟩

/-- The lives of a partition of some configuration that starts from some contents. -/
inductive Lives (config : PartitionConfig) : Origin → Life → Prop
  | created {walFaults snapFaults : List (Option ℕ)} {p : Partition} {d' : Disk}
      (plain : config.baseSnapshot = false)
      (ok : create (unused walFaults snapFaults) config = (.ok p, d')) :
      Lives config ⟨[], 0⟩ ⟨d'.wal.files, d'.snap.files, some ⟨p, []⟩, [], none, [], true⟩
  | uncreated {walFaults snapFaults : List (Option ℕ)} {wal snap : Dir Bytes} {d' : Disk}
      (plain : config.baseSnapshot = false)
      (left : (create (unused walFaults snapFaults) config).2 = d') (manifest : d'.manifest = some config)
      (passes : Passes (unused walFaults snapFaults) d' wal snap) :
      Lives config ⟨[], 0⟩ ⟨wal, snap, none, [], none, [], true⟩
  | loaded {walFaults snapFaults : List (Option ℕ)} {given : PartitionConfig} {metric : Metric}
      {vectors : FlatVectors} {keys : List Bytes} {index : Hnsw} {p : Partition} {path : ℕ} {d' : Disk}
      (based : config = { given with baseSnapshot := true }) (metricOf : given.metricOf = .ok metric)
      (builds : BuildsParallel vectors metric given.params index) (room : vectors.len < 2 ^ 32)
      (ok : bulkLoad (unused walFaults snapFaults) given vectors keys index = (.ok (p, path), d')) :
      Lives config ⟨bulkContents vectors keys, vectors.len⟩
        ⟨d'.wal.files, d'.snap.files, some ⟨p, []⟩, [], none, [], true⟩
  | called {o : Origin} {l : Life} {s s' : Running} {a : Action} {d' : Disk}
      {walFaults snapFaults : List (Option ℕ)} (before : Lives config o l)
      (running : l.process = some s) (serves : a.Serves) (fits : a.Fits o l.history s.partition)
      (step : Step (some s) a s') (leaves : a.Leaves (some s) (l.disk config walFaults snapFaults) d') :
      Lives config o (l.called s a s' d')
  | interrupted {o : Origin} {l : Life} {s : Running} {a : Action} {d' : Disk}
      {walFaults snapFaults : List (Option ℕ)} {wal snap : Dir Bytes} (before : Lives config o l)
      (running : l.process = some s) (serves : a.Serves) (fits : a.Fits o l.history s.partition)
      (leaves : a.Leaves (some s) (l.disk config walFaults snapFaults) d')
      (passes : Passes (l.disk config walFaults snapFaults) d' wal snap) :
      Lives config o (l.interrupted s a wal snap)
  | stopped {o : Origin} {l : Life} {wal : Dir Bytes} (before : Lives config o l)
      (stops : l.Stops config wal) : Lives config o { l with wal, process := none }
  | opened {o : Origin} {l : Life} {p : Partition} {report : RecoveryReport} {d' : Disk}
      {walFaults snapFaults : List (Option ℕ)} (before : Lives config o l) (idle : l.process = none)
      (ok : «open» (l.disk config walFaults snapFaults) = (.ok (p, report), d')) :
      Lives config o (l.opened p d')
  | unopened {o : Origin} {l : Life} {walFaults snapFaults : List (Option ℕ)} {wal snap : Dir Bytes}
      (before : Lives config o l) (idle : l.process = none)
      (passes : Passes (l.disk config walFaults snapFaults)
        («open» (l.disk config walFaults snapFaults)).2 wal snap) :
      Lives config o { l with wal, snap }

/-- What holds of a partition all its life. -/
structure Endures (config : PartitionConfig) (o : Origin) (l : Life) : Prop where
  valid : config.validate = .ok ()
  metric : ∃ metric, config.metricOf = .ok metric
  held : ∃ ledger start, Held config o l.history ledger start l.wal l.snap ∧
    Extends l.history l.pending ledger ∧
    ∀ s, l.process = some s → Serving config o l.history ledger start l.wal l.snap s
  answered (pair : OpId × ℕ) : pair ∈ l.answered → ∃ e ∈ l.history, (e.opId, e.seq) = pair

section Lives

variable {config : PartitionConfig} {o : Origin} {l : Life} {s s' : Running} {a : Action} {d d' : Disk}
  {wal snap : Dir Bytes} {history : List Entry} {pending : Option Entry} {p : Partition}

theorem Endures.extended (h : Endures config o l) : Extended config o l.history l.pending l.wal l.snap := by
  obtain ⟨ledger, start, hheld, hgrown, -⟩ := h.held
  exact ⟨ledger, start, hheld, hgrown⟩

/-- A process that is gone leaves the directories. -/
theorem Endures.idle (h : Endures config o l) {left : Option Entry}
    (hextended : Extended config o l.history left wal snap) :
    Endures config o { l with wal, snap, process := none, pending := left } := by
  obtain ⟨ledger, start, hheld, hgrown⟩ := hextended
  exact ⟨h.valid, h.metric, ⟨ledger, start, hheld, hgrown, fun s hs => by cases hs⟩, h.answered⟩

/-- A machine that stops leaves the directories of the ledger, or of the history. -/
theorem Extended.stops {wal' : Dir Bytes} (h : Extended config o history pending wal snap)
    (hcrashed : Crashed config.id (history.length + 1) wal wal') :
    Extended config o history pending wal' snap := by
  obtain ⟨ledger, start, hheld, hgrown⟩ := h
  have hstart := hheld.start_le
  have hpos := hheld.pos
  obtain ⟨more, rfl⟩ := hgrown.front
  have hremains := hheld.remains
  rw [List.drop_append_of_le_length (by omega)] at hremains
  have hnext : start + (history.drop (start - 1)).length = history.length + 1 := by
    rw [List.length_drop]
    omega
  rw [← hnext] at hcrashed
  rcases hremains.crashed hpos hcrashed with hremains | hremains
  · have hroom := hheld.room
    rw [List.length_append] at hroom
    exact ⟨history, start, ⟨hheld.lawful.of_append, by omega, hpos, hheld.rooted, hremains⟩, .inl rfl⟩
  · refine ⟨_, start, ⟨hheld.lawful, hheld.room, hpos, hheld.rooted, ?_⟩, hgrown⟩
    rwa [List.drop_append_of_le_length (by omega)]

/-- The directories at every moment of a call. -/
theorem Handled.passes {left : Option Entry} (h : Handled config o history left s a d d')
    (hold : Extended config o history left d.wal.files d.snap.files) (hwal : d.wal.moments = [])
    (hsnap : d.snap.moments = []) (hpasses : Passes d d' wal snap) :
    Extended config o history left wal snap := by
  rcases h.apart with hsame | hsame
  · have hstill : wal = d.wal.files := by
      have hmem := hpasses.wal
      rw [hsame, hwal] at hmem
      simpa using hmem
    rw [hstill]
    exact h.snap.passes hold hsnap hpasses.snap
  · have hstill : snap = d.snap.files := by
      have hmem := hpasses.snap
      rw [hsame, hsnap] at hmem
      simpa using hmem
    rw [hstill]
    exact h.wal.passes hold hwal hpasses.wal

theorem Endures.called {walFaults snapFaults : List (Option ℕ)} (h : Endures config o l)
    (hrunning : l.process = some s) (hserves : a.Serves) (hfits : a.Fits o l.history s.partition)
    (hstep : Step (some s) a s') (hleaves : a.Leaves (some s) (l.disk config walFaults snapFaults) d') :
    Endures config o (l.called s a s' d') := by
  obtain ⟨ledger, start, hheld, hgrown, hserving⟩ := h.held
  have hhandled := (hserving s hrunning).handled (d := l.disk config walFaults snapFaults) hheld hgrown
    hserves hfits hleaves
  cases hhandled.calls s' hstep with
  | @kept ledger start mark held grown serving answered =>
    have hhistory : (l.called s a s' d').history = l.history := if_pos mark
    have hpending : (l.called s a s' d').pending =
        leftBehind l.pending s.partition (a.entry s.partition) := if_pos mark
    refine ⟨h.valid, h.metric, ⟨ledger, start, ?_, ?_, fun s'' hs => ?_⟩, fun pair hpair => ?_⟩
    · rw [hhistory]
      exact held
    · rw [hhistory, hpending]
      exact grown
    · cases hs
      rw [hhistory]
      exact serving
    · rw [hhistory]
      rcases List.mem_append.1 hpair with hpair | hpair
      · exact h.answered pair hpair
      · exact answered pair (Option.mem_toList.1 hpair)
  | @grown e start logged mark held serving answered =>
    have hgone : ¬ s'.partition.highWater = s.partition.highWater := by omega
    have hhistory : (l.called s a s' d').history = l.history ++ [e] := by
      rw [Life.called, if_neg hgone, logged]
      rfl
    refine ⟨h.valid, h.metric, ⟨l.history ++ [e], start, ?_, .inl hhistory.symm, fun s'' hs => ?_⟩,
      fun pair hpair => ?_⟩
    · rw [hhistory]
      exact held
    · cases hs
      rw [hhistory]
      exact serving
    · rw [hhistory]
      rcases List.mem_append.1 hpair with hpair | hpair
      · obtain ⟨x, hx, heq⟩ := h.answered pair hpair
        exact ⟨x, List.mem_append_left _ hx, heq⟩
      · exact ⟨e, List.mem_append_right _ List.mem_cons_self,
          (answered pair (Option.mem_toList.1 hpair)).symm⟩

omit [Digests] in
/-- The entry behind the history that was found is taken over. -/
theorem opened_history {ledger : List Entry} (hgrown : Extends l.history l.pending ledger)
    (hfollows : p.Follows o ledger) (d' : Disk) : (l.opened p d').history = ledger := by
  have hmark := hfollows.highWater
  show l.history ++ l.adopted p = ledger
  rcases hgrown with rfl | ⟨e, hpending, rfl⟩
  · rw [Life.adopted, if_pos hmark, List.append_nil]
  · rw [List.length_append, List.length_singleton] at hmark
    rw [Life.adopted, if_neg (by omega), hpending]
    rfl

/-- Opening serves the ledger, and cuts what is behind it. -/
theorem Endures.opening (h : Endures config o l) (walFaults snapFaults : List (Option ℕ)) :
    ∃ ledger start, Held config o l.history ledger start l.wal l.snap ∧
      Extends l.history l.pending ledger ∧
      Opened config o ledger start (l.disk config walFaults snapFaults)
        («open» (l.disk config walFaults snapFaults)) := by
  obtain ⟨ledger, start, hheld, hgrown, -⟩ := h.held
  obtain ⟨metric, hmetric⟩ := h.metric
  refine ⟨ledger, start, hheld, hgrown, ?_⟩
  have hrooted : Rooted config o ledger start l.snap := by
    obtain ⟨more, rfl⟩ := hgrown.front
    exact hheld.rooted.grow
  exact Rooted.opened (d := l.disk config walFaults snapFaults) hrooted h.valid hmetric rfl hheld.lawful
    hheld.room hheld.pos hheld.remains

theorem Endures.opened {report : RecoveryReport} {walFaults snapFaults : List (Option ℕ)}
    (h : Endures config o l)
    (hok : «open» (l.disk config walFaults snapFaults) = (.ok (p, report), d')) :
    Endures config o (l.opened p d') := by
  obtain ⟨ledger, start, hheld, hgrown, hopened⟩ := h.opening walFaults snapFaults
  rw [hok] at hopened
  obtain ⟨hfollows, hconfig, hbounded, w, hwal, hstanding⟩ := hopened.ok p report rfl
  have hsnap : d'.snap.files = l.snap := congrArg Device.files hopened.snap
  have hhistory := opened_history hgrown hfollows d'
  refine ⟨h.valid, h.metric, ⟨ledger, start, ?_, .inl hhistory.symm, fun s hs => ?_⟩,
    fun pair hpair => ?_⟩
  · rw [hhistory]
    obtain ⟨more, rfl⟩ := hgrown.front
    refine ⟨hheld.lawful, hheld.room, hheld.pos, ?_, hstanding.remains⟩
    show Rooted config o (l.history ++ more) start d'.snap.files
    rw [hsnap]
    exact hheld.rooted.grow
  · cases hs
    rw [hhistory]
    refine ⟨hfollows, ?_, ?_, ⟨w, hwal, hstanding.near, .inr ⟨rfl, hstanding⟩⟩, fun input hinput => ?_⟩
    · show p.config = _
      rw [hconfig]
    · show p.snapshotHighWater = 0 ∨ p.snapshotHighWater ∈ d'.snap.files.names
      rw [hsnap]
      exact hbounded
    · cases hinput
  · rw [hhistory]
    obtain ⟨e, he, heq⟩ := h.answered pair hpair
    exact ⟨e, hgrown.front.subset he, heq⟩

/-- Opening that did not return leaves the ledger. -/
theorem Endures.unopened {walFaults snapFaults : List (Option ℕ)} (h : Endures config o l)
    (hpasses : Passes (l.disk config walFaults snapFaults)
      («open» (l.disk config walFaults snapFaults)).2 wal snap) :
    Extended config o l.history l.pending wal snap := by
  obtain ⟨ledger, start, hheld, hgrown, hopened⟩ := h.opening walFaults snapFaults
  have hstill : snap = l.snap := by
    have hmem := hpasses.snap
    rw [hopened.snap] at hmem
    simpa [Life.disk] using hmem
  have hremains : Remains config.id start (ledger.drop (start - 1)) wal :=
    hopened.through.passes hheld.remains rfl hpasses.wal
  rw [hstill]
  exact ⟨ledger, start, ⟨hheld.lawful, hheld.room, hheld.pos, hheld.rooted, hremains⟩, hgrown⟩

theorem endures_created {walFaults snapFaults : List (Option ℕ)} (hplain : config.baseSnapshot = false)
    (hok : create (unused walFaults snapFaults) config = (.ok p, d')) :
    Endures config ⟨[], 0⟩ ⟨d'.wal.files, d'.snap.files, some ⟨p, []⟩, [], none, [], true⟩ := by
  obtain ⟨-, hwritten⟩ := manifest_of_create hok
  have hcreated :
      Created config (unused walFaults snapFaults) (create (unused walFaults snapFaults) config) :=
    created_of_create rfl rfl (by rw [hok]; exact hwritten)
  rw [hok] at hcreated
  obtain ⟨metric, w, hmetric, rfl, hstanding⟩ := hcreated.ok p rfl
  refine ⟨hcreated.valid, hcreated.metric, ⟨[], 1, ?_, .inl rfl, fun s hs => ?_⟩,
    fun pair hpair => by cases hpair⟩
  · show Held config ⟨[], 0⟩ [] [] 1 d'.wal.files d'.snap.files
    rw [show d'.snap = (unused walFaults snapFaults).snap from hcreated.snap]
    exact held_new hplain hstanding.remains
  · cases hs
    exact serving_new hcreated.valid hmetric hstanding

theorem endures_uncreated {walFaults snapFaults : List (Option ℕ)} (hplain : config.baseSnapshot = false)
    (hleft : (create (unused walFaults snapFaults) config).2 = d') (hmanifest : d'.manifest = some config)
    (hpasses : Passes (unused walFaults snapFaults) d' wal snap) :
    Endures config ⟨[], 0⟩ ⟨wal, snap, none, [], none, [], true⟩ := by
  have hcreated := created_of_create (d := unused walFaults snapFaults) rfl rfl (hleft ▸ hmanifest)
  have hwal := hcreated.wal
  have hsnap := hcreated.snap
  rw [hleft] at hwal hsnap
  have hremains : Remains config.id 1 [] wal :=
    hwal.passes (.none rfl rfl rfl) rfl hpasses.wal
  have hstill : snap = Dir.empty := by
    have hmem := hpasses.snap
    rw [hsnap] at hmem
    simpa [unused] using hmem
  rw [hstill]
  exact ⟨hcreated.valid, hcreated.metric,
    ⟨[], 1, held_new hplain hremains, .inl rfl, fun s hs => by cases hs⟩, fun pair hpair => by cases hpair⟩

/-- It holds all its life. -/
theorem endures_of_lives (h : Lives config o l) : Endures config o l := by
  induction h with
  | created plain ok => exact endures_created plain ok
  | uncreated plain left manifest passes => exact endures_uncreated plain left manifest passes
  | loaded based metricOf builds room ok =>
    obtain ⟨hcreated, hheld, hserving⟩ := serving_bulkLoad metricOf builds room rfl rfl ok
    rw [based]
    refine ⟨hcreated.valid, hcreated.metric, ⟨[], 1, hheld, .inl rfl, fun s hs => ?_⟩,
      fun pair hpair => by cases hpair⟩
    cases hs
    exact hserving
  | called before running serves fits step leaves ih => exact ih.called running serves fits step leaves
  | @interrupted o l s a d' walFaults snapFaults wal snap before running serves fits leaves passes ih =>
    obtain ⟨ledger, start, hheld, hgrown, hserving⟩ := ih.held
    have hhandled := (hserving s running).handled (d := l.disk config walFaults snapFaults) hheld hgrown
      serves fits leaves
    have hleft := (hserving s running).extends_left hgrown (a.entry s.partition)
    exact ih.idle (hhandled.passes ⟨ledger, start, hheld, hleft⟩ rfl rfl passes)
  | @stopped o l wal before stops ih =>
    rcases stops with rfl | ⟨-, hcrashed⟩
    · exact ih.idle ih.extended
    · exact ih.idle (ih.extended.stops hcrashed)
  | opened before idle ok ih => exact ih.opened ok
  | @unopened o l walFaults snapFaults wal snap before idle passes ih =>
    have hendures := ih.idle (ih.unopened passes)
    rw [← idle] at hendures
    exact hendures

end Lives

end Partition

end Index

end DistrHnsw
