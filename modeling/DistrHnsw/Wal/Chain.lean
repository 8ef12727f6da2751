import DistrHnsw.Lib.Dir
import DistrHnsw.Wal.Log

/-!
# Logs spread over segments

A chain of segments starts at `start` and each segment begins where the one before it ended; a
directory `Holds` a log when its files are the segments of a chain with those entries.
-/

namespace DistrHnsw

namespace Wal

/-- Each segment is well formed and named by the sequence number that follows the one before. -/
def Chain : ℕ → List (ℕ × List Entry) → Prop
  | _, [] => True
  | start, (first, es) :: segs =>
    first = start ∧ WellFormed first es ∧ Chain (start + es.length) segs

/-- The entries of the segments in order. -/
def entriesOf (segs : List (ℕ × List Entry)) : List Entry := segs.flatMap Prod.snd

@[simp] theorem entriesOf_nil : entriesOf [] = [] := rfl

@[simp] theorem entriesOf_cons (seg : ℕ × List Entry) (segs : List (ℕ × List Entry)) :
    entriesOf (seg :: segs) = seg.2 ++ entriesOf segs := rfl

@[simp] theorem entriesOf_append (segs segs' : List (ℕ × List Entry)) :
    entriesOf (segs ++ segs') = entriesOf segs ++ entriesOf segs' := List.flatMap_append

theorem chain_append {start : ℕ} {segs segs' : List (ℕ × List Entry)} :
    Chain start (segs ++ segs') ↔
      Chain start segs ∧ Chain (start + (entriesOf segs).length) segs' := by
  induction segs generalizing start with
  | nil => simp [Chain]
  | cons seg segs ih =>
    simp only [List.cons_append, Chain, ih, entriesOf_cons, List.length_append, and_assoc,
      Nat.add_assoc]

theorem chain_singleton {start first : ℕ} {es : List Entry} :
    Chain start [(first, es)] ↔ first = start ∧ WellFormed first es := by
  simp [Chain]

theorem Chain.contiguous {start : ℕ} {segs : List (ℕ × List Entry)} (h : Chain start segs) :
    Contiguous start (entriesOf segs) := by
  induction segs generalizing start with
  | nil => trivial
  | cons seg segs ih =>
    obtain ⟨rfl, hseg, hsegs⟩ := h
    exact contiguous_append.2 ⟨hseg.contiguous, ih hsegs⟩

theorem Chain.valid {start : ℕ} {segs : List (ℕ × List Entry)} (h : Chain start segs) :
    ∀ e ∈ entriesOf segs, e.Valid := by
  induction segs generalizing start with
  | nil => simp
  | cons seg segs ih =>
    obtain ⟨rfl, hseg, hsegs⟩ := h
    intro e he
    rcases List.mem_append.1 he with he | he
    · exact hseg.valid e he
    · exact ih hsegs e he

/-- Every segment starts within the log. -/
theorem Chain.first_le {start : ℕ} {segs : List (ℕ × List Entry)} (h : Chain start segs)
    {seg : ℕ × List Entry} (hseg : seg ∈ segs) :
    start ≤ seg.1 ∧ seg.1 + seg.2.length ≤ start + (entriesOf segs).length := by
  obtain ⟨front, back, rfl⟩ := List.append_of_mem hseg
  obtain ⟨-, hchain⟩ := chain_append.1 h
  have hfirst : seg.1 = start + (entriesOf front).length := hchain.1
  simp only [entriesOf_append, entriesOf_cons, List.length_append]
  omega

/-- A segment can take one more entry. -/
theorem WellFormed.snoc {first : ℕ} {es : List Entry} (h : WellFormed first es) {e : Entry}
    (hvalid : e.Valid) (hseq : e.seq = first + es.length) : WellFormed first (es ++ [e]) where
  first_lt := h.first_lt
  valid x hx := by
    rcases List.mem_append.1 hx with hx | hx
    · exact h.valid x hx
    · rw [List.mem_singleton.1 hx]
      exact hvalid
  contiguous := contiguous_append.2 ⟨h.contiguous, hseq, trivial⟩

/-- A chain can take one more entry at its end. -/
theorem Chain.snoc {start first : ℕ} {init : List (ℕ × List Entry)} {es : List Entry}
    (h : Chain start (init ++ [(first, es)])) {e : Entry} (hvalid : e.Valid)
    (hseq : e.seq = start + (entriesOf (init ++ [(first, es)])).length) :
    Chain start (init ++ [(first, es ++ [e])]) := by
  obtain ⟨hinit, hlast⟩ := chain_append.1 h
  obtain ⟨hfirst, hes⟩ := chain_singleton.1 hlast
  refine chain_append.2 ⟨hinit, chain_singleton.2 ⟨hfirst, hes.snoc hvalid ?_⟩⟩
  rw [hseq, hfirst]
  simp [Nat.add_assoc]

/-- A chain can be followed by a new empty segment. -/
theorem Chain.rotate {start : ℕ} {segs : List (ℕ × List Entry)} (h : Chain start segs)
    (hlt : start + (entriesOf segs).length < 2 ^ 64) :
    Chain start (segs ++ [(start + (entriesOf segs).length, [])]) :=
  chain_append.2 ⟨h, chain_singleton.2 ⟨rfl, hlt, by simp, trivial⟩⟩

section

variable [Digests]

/-- The files of a chain of segments. -/
def filesOf (id : Uuid) (segs : List (ℕ × List Entry)) : List (ℕ × Bytes) :=
  segs.map fun seg => (seg.1, segmentBytes id seg.1 seg.2)

@[simp] theorem filesOf_append (id : Uuid) (segs segs' : List (ℕ × List Entry)) :
    filesOf id (segs ++ segs') = filesOf id segs ++ filesOf id segs' := List.map_append

@[simp] theorem filesOf_singleton (id : Uuid) (first : ℕ) (es : List Entry) :
    filesOf id [(first, es)] = [(first, segmentBytes id first es)] := rfl

theorem segmentBytes_snoc (id : Uuid) (first : ℕ) (es : List Entry) (e : Entry) :
    segmentBytes id first (es ++ [e]) = segmentBytes id first es ++ frameOf e.body := by
  simp [segmentBytes]

/-- The directory holds exactly the entries of `log`, numbered from `start`. -/
def Holds (id : Uuid) (start : ℕ) (log : List Entry) (files : Dir Bytes) : Prop :=
  ∃ segs, Chain start segs ∧ entriesOf segs = log ∧ files.files = filesOf id segs

end

end Wal

end DistrHnsw
