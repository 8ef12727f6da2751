import DistrHnsw.Index.Interleaved
import DistrHnsw.Index.Insert

/-!
# The ends of a greedy descent

Over the lists of a graph, and over lists that other threads change between any two reads, the loop of a
descent ends.  Every move comes strictly closer by distance and then by slot; what is returned is no
worse than the start, and the list that was read last names nothing that is closer.
-/

namespace DistrHnsw

namespace Index

open Hnsw (distanceAt returns_distanceTo)

/-! ## A graph -/

/-- What a descent over fixed lists returns: nothing that its list names is closer. -/
def Hnsw.Closest (g : Hnsw) (f : Slot → F32) (level : ℕ) (start result : Slot) : Prop :=
  (result = start ∨ Far.closer ⟨f result, result⟩ ⟨f start, start⟩ = true) ∧
    ∃ list, g.neighbours result level = .ok list ∧
      ∀ n ∈ list, Far.closer ⟨f n, n⟩ ⟨f result, result⟩ = false

/-- The slots are inside the graph, and their lists can be read and name such slots only. -/
def Hnsw.Closed (g : Hnsw) (level : ℕ) (good : Slot → Prop) : Prop :=
  ∀ s, good s → s.toNat < g.len ∧ Returns (g.neighbours s level) fun list => ∀ n ∈ list, good n

theorem Hnsw.Closed.returns_greedyClosest {g : Hnsw} {level : ℕ} {good : Slot → Prop}
    (h : g.Closed level good) {dist : Slot → Checked F32} {f : Slot → F32}
    (hdist : ∀ s, good s → Returns (dist s) (· = f s)) {start : Slot} (hstart : good start) :
    Returns (greedyClosest (g.neighbours · level) dist g.len start) fun result =>
      good result ∧ g.Closest f level start result := by
  have hreads (s : Slot) (hs : good s) : Returns (g.neighbours s level) fun list =>
      g.neighbours s level = .ok list ∧ ∀ n ∈ list, good n := by
    obtain ⟨list, hlist, hmem⟩ := (h s hs).2
    exact returns_iff.2 ⟨list, hlist, hlist, hmem⟩
  have hwalk : Returns (greedyClosest (g.neighbours · level) dist g.len start) fun result =>
      good result ∧ Walk.Ends f (fun s list => g.neighbours s level = .ok list) start result :=
    returns_greedyClosest_ends (fun s hs => (h s hs).1) hreads hdist hstart
  exact hwalk.mono fun result ⟨hgood, hends⟩ => ⟨hgood, hends.result⟩

/-! ## A builder thread -/

namespace BuildCore

variable {core : BuildCore} {levels : List UInt8}

/-- Lists that other threads may change as they like, as long as they name slots of the level. -/
def readings (core : BuildCore) (levels : List UInt8) (level : ℕ) : Program.Custom core.world where
  Inv links := ∀ slot, On levels level slot →
    Returns (LockedLinks.list links slot level) fun list => ∀ n ∈ list, On levels level n
  Allowed _ := False
  keeps _ hwrite := hwrite.elim

theorem lasting_snapshot {level : ℕ} {slot : Slot} (hon : On levels level slot) :
    (core.snapshot slot level).Lasting (core.readings levels level) fun list =>
      ∀ n ∈ list, On levels level n := by
  refine Program.Lasting.bind fun links hlinks => ?_
  obtain ⟨list, hlist, hmem⟩ := hlinks slot hon
  show Program.Lasting _ (check (LockedLinks.list links slot level)) _
  rw [hlist]
  exact hmem

/-- A descent among other threads is a run of the loop, over some lists. -/
theorem lasting_greedyClosest (hrows : core.vectors.len = levels.length) (query : List F32) {level : ℕ}
    {start : Slot} (hstart : On levels level start) :
    Program.Lasting (core.readings levels level)
      (greedyClosest (core.snapshot · level) (core.dist query) core.vectors.len start) fun result =>
        On levels level result ∧
          Walk.Ends (distanceAt core.metric core.vectors query) (fun _ _ => True) start result := by
  let _ := (core.readings levels level).returns
  have hin (s : Slot) (hs : On levels level s) : s.toNat < core.vectors.len := by
    rw [hrows]
    exact hs.1
  have hreads (s : Slot) (hs : On levels level s) : Returns (core.snapshot s level) fun list =>
      (fun _ _ => True) s list ∧ ∀ n ∈ list, On levels level n :=
    (lasting_snapshot hs).mono fun _ h => ⟨trivial, h⟩
  exact returns_greedyClosest_ends hin hreads
    (fun s hs => returns_check (returns_distanceTo (hin s hs))) hstart

end BuildCore

/-! ## Both -/

/-- A greedy descent ends.  The loop cannot go on forever, whatever lists it reads, and each of its moves
is strictly closer; over a graph it returns a slot whose list names nothing closer; a builder thread
returns a slot that is no worse than its start, however the lists change between its reads. -/
theorem greedy_descent_ends :
    (∀ f lists, WellFounded fun w' w => Walk.Step f lists w w') ∧
    (∀ f lists w w', Walk.Step f lists w w' → w'.current = w.current ∨
      Far.closer ⟨f w'.current, w'.current⟩ ⟨f w.current, w.current⟩ = true) ∧
    (∀ (g : Hnsw) (level : ℕ) (good : Slot → Prop) (dist : Slot → Checked F32) (f : Slot → F32)
      (start : Slot), g.Closed level good → (∀ s, good s → Returns (dist s) (· = f s)) → good start →
        ∃ result, greedyClosest (g.neighbours · level) dist g.len start = .ok result ∧ good result ∧
          g.Closest f level start result) ∧
    ∀ (core : BuildCore) (levels : List UInt8) (query : List F32) (level : ℕ) (start : Slot),
      core.vectors.len = levels.length → BuildCore.On levels level start →
        Program.Lasting (core.readings levels level)
          (greedyClosest (core.snapshot · level) (core.dist query) core.vectors.len start) fun result =>
            BuildCore.On levels level result ∧ (result = start ∨
              Far.closer ⟨distanceAt core.metric core.vectors query result, result⟩
                ⟨distanceAt core.metric core.vectors query start, start⟩ = true) := by
  refine ⟨Walk.wellFounded_step, fun _ _ _ _ => Walk.Step.closer, ?_, ?_⟩
  · intro g level good dist f start hclosed hdist hstart
    exact hclosed.returns_greedyClosest hdist hstart
  · intro core levels query level start hrows hstart
    exact (BuildCore.lasting_greedyClosest hrows query hstart).mono fun result ⟨hon, hends⟩ =>
      ⟨hon, hends.result.1⟩

end Index

end DistrHnsw
