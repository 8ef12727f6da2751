import DistrHnsw.Wal.WriterProof

/-!
# Runs of the log writer

A writer is opened on a log and called any number of times; every call has failures of its own.
The ghost arguments of `WriterRun` are the entries the writer has counted and those whose sequence
number it has returned.
-/

namespace DistrHnsw

namespace Wal

variable [Digests]

namespace WalWriter

/-- The entry a call logs when the writer counts it. -/
def counted (w w' : WalWriter) (c : Call) : List Entry :=
  if w'.nextSeq = w.nextSeq then []
  else (c.request.map fun (opId, operation) => ⟨w.nextSeq, opId, operation⟩).toList

/-- The entry whose sequence number a call returned. -/
def returned (result : Except WalError (Option ℕ)) (c : Call) : List Entry :=
  match result, c.request with
  | .ok (some seq), some (opId, operation) => [⟨seq, opId, operation⟩]
  | _, _ => []

end WalWriter

/-- The writer opened on a log of `id` that starts at `start`, after some calls. -/
inductive WriterRun (id : Uuid) (start : ℕ) :
    List Entry → List Entry → WalWriter → Dir Bytes → Prop
  | opened {log : List Entry} {files : Dir Bytes} {last : ℕ} {faults : List (Option ℕ)}
      {w : WalWriter} (holds : Holds id start log files) (last_eq : start + log.length = last + 1)
      (room : last + 1 < 2 ^ 64) (ok : (WalWriter.open ⟨files, faults, []⟩ id last).1 = .ok w) :
      WriterRun id start log [] w (WalWriter.open ⟨files, faults, []⟩ id last).2.files
  | call {log acked : List Entry} {w : WalWriter} {files : Dir Bytes}
      (run : WriterRun id start log acked w files) (room : w.nextSeq + 1 < 2 ^ 64)
      (c : WalWriter.Call) (faults : List (Option ℕ)) :
      WriterRun id start (log ++ w.counted (w.call ⟨files, faults, []⟩ c).2.1 c)
        (acked ++ WalWriter.returned (w.call ⟨files, faults, []⟩ c).1 c)
        (w.call ⟨files, faults, []⟩ c).2.1 (w.call ⟨files, faults, []⟩ c).2.2.files

/-! ## One call -/

section Call

variable {id : Uuid} {start : ℕ} {log : List Entry} {w : WalWriter} {d : Device}

/-- A call keeps the invariant for the log it leaves, and passes through the log it met. -/
theorem call_spec (hw : WriterInv id start log w d.files) (hroom : w.nextSeq + 1 < 2 ^ 64)
    (c : WalWriter.Call) :
    d.Through (LogShape id start log) (w.call d c).2.2 ∧
      WriterInv id start (log ++ w.counted (w.call d c).2.1 c) (w.call d c).2.1
        (w.call d c).2.2.files ∧
      ∀ e ∈ WalWriter.returned (w.call d c).1 c, e ∈ w.counted (w.call d c).2.1 c := by
  have happend (opId : OpId) (operation : Operation) (hreq : c.request = some (opId, operation))
      (out : Except WalError ℕ × WalWriter × Device)
      (happ : Appended id start log ⟨w.nextSeq, opId, operation⟩ w d out) :
      d.Through (LogShape id start log) out.2.2 ∧
        WriterInv id start (log ++ w.counted out.2.1 c) out.2.1 out.2.2.files ∧
        ∀ e ∈ WalWriter.returned (out.1.map some) c, e ∈ w.counted out.2.1 c := by
    obtain ⟨grown, hgrown, hinv, hok⟩ := happ.inv
    have hcounted : w.counted out.2.1 c = grown := by
      rcases hgrown with ⟨rfl, hnext⟩ | ⟨rfl, hnext⟩
      · simp [WalWriter.counted, hnext]
      · simp [WalWriter.counted, hnext, hreq]
    rw [hcounted]
    refine ⟨happ.through, hinv, fun e he => ?_⟩
    cases hout : out.1 with
    | error _ => simp [WalWriter.returned, hout, Except.map] at he
    | ok seq =>
      obtain ⟨rfl, rfl⟩ := hok seq hout
      simpa [WalWriter.returned, hout, hreq, Except.map] using he
  cases c with
  | appendUnsynced opId operation =>
    exact happend opId operation rfl _ (appendUnsynced_spec hw hroom opId operation)
  | append opId operation => exact happend opId operation rfl _ (append_spec hw hroom opId operation)
  | sync =>
    obtain ⟨hsync, hnext⟩ := sync_spec hw
    obtain ⟨hfiles, hmoments⟩ := w.sync_files d
    have hcounted : w.counted (w.sync d).2.1 .sync = [] := by simp [WalWriter.counted, hnext]
    refine ⟨.unchanged hw.shape hfiles hmoments, ?_, fun e he => ?_⟩
    · simpa [WalWriter.call, hcounted] using hsync
    · simp [WalWriter.call, WalWriter.returned, WalWriter.Call.request] at he
  | poison =>
    have hcounted : w.counted w.poison .poison = [] := by
      simp [WalWriter.counted, WalWriter.poison]
    refine ⟨.unchanged hw.shape rfl rfl, ?_, fun e he => ?_⟩
    · simpa [WalWriter.call, hcounted] using hw.poison hw.shape
    · simp [WalWriter.call, WalWriter.returned] at he

/-- A poisoned writer touches nothing. -/
theorem call_of_poisoned (hp : w.poisoned = true) (c : WalWriter.Call) :
    (w.call d c).2.1.poisoned = true ∧ (w.call d c).2.2 = d := by
  cases c <;> simp [WalWriter.call, WalWriter.append, WalWriter.appendUnsynced, WalWriter.sync,
    WalWriter.poison, hp]

/-- An entry outside the limits touches nothing. -/
theorem call_of_not_fits {c : WalWriter.Call} {opId : OpId} {operation : Operation}
    (hreq : c.request = some (opId, operation)) (hfits : ¬ operation.Fits) :
    (w.call d c).2 = (w, d) := by
  have hunsynced : (w.appendUnsynced d opId operation).2 = (w, d) ∧
      ∀ seq, (w.appendUnsynced d opId operation).1 ≠ .ok seq := by
    unfold WalWriter.appendUnsynced
    split
    · exact ⟨rfl, nofun⟩
    · cases hencode : Entry.encode ⟨w.nextSeq, opId, operation⟩ with
      | error e => exact ⟨rfl, nofun⟩
      | ok frame => exact absurd ((Entry.encode_ok_iff _ _).1 hencode).1 hfits
  obtain ⟨hsame, herror⟩ := hunsynced
  cases c with
  | sync | poison => cases hreq
  | appendUnsynced opId' operation' =>
    cases hreq
    exact hsame
  | append opId' operation' =>
    cases hreq
    simp only [WalWriter.call, WalWriter.append]
    generalize w.appendUnsynced d opId operation = out at hsame herror
    obtain ⟨result, w', d'⟩ := out
    cases result with
    | error e => exact hsame
    | ok seq => exact absurd rfl (herror seq)

end Call

/-! ## Runs -/

variable {id : Uuid} {start : ℕ} {log acked : List Entry} {w : WalWriter} {files : Dir Bytes}

theorem WriterRun.inv (run : WriterRun id start log acked w files) :
    WriterInv id start log w files ∧ ∀ e ∈ acked, e ∈ log := by
  induction run with
  | opened holds last_eq room ok => exact ⟨(open_spec holds last_eq room ok).1, by simp⟩
  | call run room c faults ih =>
    obtain ⟨hinv, hacked⟩ := ih
    obtain ⟨-, hinv', hreturned⟩ := call_spec (d := ⟨_, faults, []⟩) hinv room c
    refine ⟨hinv', fun e he => ?_⟩
    rcases List.mem_append.1 he with he | he
    · exact List.mem_append_left _ (hacked e he)
    · exact List.mem_append_right _ (hreturned e he)

/-- The log is well formed at every moment of every run.  Between two calls the segments hold
exactly the entries below the next sequence number, followed by at most a piece of one frame or of
one header, and every entry whose number was returned is among them.  The same holds at every
moment of the next call; a poisoned writer changes no file any more; an entry outside the field
limits changes neither the files nor the next sequence number. -/
theorem log_stays_well_formed (run : WriterRun id start log acked w files) :
    (w.nextSeq = start + log.length ∧ LogShape id start log files ∧ ∀ e ∈ acked, e ∈ log) ∧
    ∀ (c : WalWriter.Call) (faults : List (Option ℕ)), w.nextSeq + 1 < 2 ^ 64 →
      (∀ m ∈ (w.call ⟨files, faults, []⟩ c).2.2.moments, LogShape id start log m) ∧
      (w.poisoned = true → (w.call ⟨files, faults, []⟩ c).2.1.poisoned = true ∧
        (w.call ⟨files, faults, []⟩ c).2.2.files = files ∧
        (w.call ⟨files, faults, []⟩ c).2.2.moments = []) ∧
      ∀ opId operation, c.request = some (opId, operation) → ¬ operation.Fits →
        (w.call ⟨files, faults, []⟩ c).2.2.files = files ∧
        (w.call ⟨files, faults, []⟩ c).2.2.moments = [] ∧
        (w.call ⟨files, faults, []⟩ c).2.1.nextSeq = w.nextSeq := by
  obtain ⟨hinv, hacked⟩ := run.inv
  refine ⟨⟨hinv.next, hinv.shape, hacked⟩, fun c faults hroom => ⟨fun m hm => ?_, ?_, ?_⟩⟩
  · have hthrough := (call_spec (d := ⟨files, faults, []⟩) hinv hroom c).1
    exact (hthrough.moments m hm).resolve_left (by simp)
  · intro hp
    obtain ⟨hstays, hd⟩ := call_of_poisoned (d := ⟨files, faults, []⟩) hp c
    exact ⟨hstays, by rw [hd], by rw [hd]⟩
  · intro opId operation hreq hfits
    rw [call_of_not_fits hreq hfits]
    exact ⟨rfl, rfl, rfl⟩

omit [Digests] in
/-- An empty directory, opened, after one append whose write stops after three bytes. -/
theorem log_stays_well_formed_torn_append :
    letI := Digests.standard
    let id : Uuid := ⟨List.replicate 16 7, by simp⟩
    let opened := WalWriter.open (Device.reliable Dir.empty) id 0
    let w : WalWriter := ⟨id, 1, 1, headerLen, 1, false⟩
    let out := w.call ⟨opened.2.files, [some 3], []⟩ (.append id (.delete [1]))
    opened.1 = .ok w ∧ out.2.1.poisoned = true ∧
      LogShape id 1 (w.counted out.2.1 (.append id (.delete [1]))) out.2.2.files := by
  intro id opened w out
  let _ := Digests.standard
  have hopen : opened.1 = .ok w := by rfl
  have run : WriterRun id 1 _ _ out.2.1 out.2.2.files :=
    .call (.opened ⟨[], trivial, rfl, rfl⟩ rfl (by decide) hopen) (by decide) _ _
  exact ⟨hopen, by rfl, (log_stays_well_formed run).1.2.1⟩

end Wal

end DistrHnsw
