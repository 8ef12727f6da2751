import DistrHnsw.Lib.Bytes
import DistrHnsw.Lib.Result

/-!
# Readers that invert writers

A reader takes a value off the front of a byte string.  `Inverts` says that it accepts exactly what a
writer produces, and returns what was written; formats are put together from readers that do, and
then encode and decode are inverse by construction.
-/

namespace DistrHnsw

/-- A value off the front, and the rest. -/
abbrev Reader (ε α : Type) := Bytes → Except ε (α × Bytes)

namespace Reader

variable {ε α β : Type}

/-- The reader accepts what the writer produces of values that fit, and nothing else. -/
def Inverts (read : Reader ε α) (Fits : α → Prop) (write : α → Bytes) : Prop :=
  ∀ bytes a rest, read bytes = .ok (a, rest) ↔ Fits a ∧ bytes = write a ++ rest

section

variable {read : Reader ε α} {Fits : α → Prop} {write : α → Bytes}

theorem Inverts.read_write (h : Inverts read Fits write) {a : α} (ha : Fits a) (rest : Bytes) :
    read (write a ++ rest) = .ok (a, rest) := (h _ a rest).2 ⟨ha, rfl⟩

/-- Reading first is writing first. -/
theorem Inverts.bind_eq_ok (h : Inverts read Fits write) {bytes : Bytes} {next : α × Bytes → Except ε β}
    {b : β} : (read bytes >>= next) = .ok b ↔
      ∃ a rest, (Fits a ∧ bytes = write a ++ rest) ∧ next (a, rest) = .ok b := by
  rw [DistrHnsw.bind_eq_ok]
  constructor
  · rintro ⟨⟨a, rest⟩, hread, hnext⟩
    exact ⟨a, rest, (h bytes a rest).1 hread, hnext⟩
  · rintro ⟨a, rest, hwrite, hnext⟩
    exact ⟨(a, rest), (h bytes a rest).2 hwrite, hnext⟩

/-- A reader whose value is converted. -/
def convert (read : Reader ε α) (f : α → Except ε β) : Reader ε β := fun bytes => do
  let (a, rest) ← read bytes
  let b ← f a
  return (b, rest)

/-- The conversion accepts exactly what its inverse produces. -/
theorem Inverts.convert (h : Inverts read Fits write) {f : α → Except ε β} {g : β → α}
    {Fits' : β → Prop} (hf : ∀ a b, Fits a → (f a = .ok b ↔ Fits' b ∧ a = g b))
    (hg : ∀ b, Fits' b → Fits (g b)) :
    Inverts (convert read f) Fits' fun b => write (g b) := by
  intro bytes b rest
  unfold Reader.convert
  rw [h.bind_eq_ok]
  constructor
  · rintro ⟨a, rest', ⟨ha, rfl⟩, hnext⟩
    obtain ⟨b', hb', heq⟩ := DistrHnsw.bind_eq_ok.1 hnext
    cases heq
    obtain ⟨hfits, rfl⟩ := (hf a b ha).1 hb'
    exact ⟨hfits, rfl⟩
  · rintro ⟨hb, rfl⟩
    refine ⟨g b, rest, ⟨hg b hb, rfl⟩, DistrHnsw.bind_eq_ok.2 ⟨b, ?_, rfl⟩⟩
    exact (hf (g b) b (hg b hb)).2 ⟨hb, rfl⟩

end

/-! ## Bytes and words -/

/-- The next `n` bytes. -/
def take (truncated : ε) (n : ℕ) : Reader ε Bytes := fun bytes =>
  match takeBytes n bytes with
  | some out => .ok out
  | none => .error truncated

theorem inverts_take (truncated : ε) (n : ℕ) :
    Inverts (take truncated n) (fun front => front.length = n) id := by
  intro bytes front rest
  unfold take
  constructor
  · intro h
    split at h
    · next out hout =>
      cases h
      obtain ⟨rfl, hlen⟩ := takeBytes_eq_some hout
      exact ⟨hlen, rfl⟩
    · cases h
  · rintro ⟨hlen, rfl⟩
    rw [id, takeBytes_append_of_length hlen]

/-- The next `n` bytes, as many as that. -/
def array (truncated : ε) (n : ℕ) : Reader ε (Fixed n) :=
  convert (take truncated n) fun front =>
    if h : front.length = n then .ok ⟨front, h⟩ else .error truncated

theorem inverts_array (truncated : ε) (n : ℕ) :
    Inverts (array truncated n) (fun _ => True) Subtype.val := by
  refine (inverts_take truncated n).convert (fun front fixed hlen => ?_) fun fixed _ => fixed.2
  rw [dif_pos hlen]
  constructor
  · intro h
    cases h
    exact ⟨trivial, rfl⟩
  · rintro ⟨-, rfl⟩
    rfl

/-- One byte. -/
def u8 (truncated : ε) : Reader ε UInt8 :=
  convert (take truncated 1) fun front => (front.head?.map Except.ok).getD (.error truncated)

theorem inverts_u8 (truncated : ε) :
    Inverts (u8 truncated) (fun _ => True) fun byte => [byte] := by
  refine (inverts_take truncated 1).convert (fun front byte hlen => ?_) fun _ _ => rfl
  obtain ⟨first, rfl⟩ := List.length_eq_one_iff.1 hlen
  constructor
  · intro h
    cases h
    exact ⟨trivial, rfl⟩
  · rintro ⟨-, h⟩
    cases h
    rfl

/-- Eight bytes of an unsigned number. -/
def u64ToLe (n : UInt64) : Bytes := toLeBytes 8 n.toNat

def u64 (truncated : ε) : Reader ε UInt64 :=
  convert (take truncated 8) fun front => .ok (UInt64.ofNat (fromLeBytes front))

theorem inverts_u64 (truncated : ε) : Inverts (u64 truncated) (fun _ => True) u64ToLe := by
  refine (inverts_take truncated 8).convert (fun front n hlen => ?_) fun _ _ => length_toLeBytes _ _
  have hlt : fromLeBytes front < 2 ^ 64 := by
    have := fromLeBytes_lt front
    rwa [hlen] at this
  constructor
  · intro h
    cases h
    refine ⟨trivial, ?_⟩
    rw [UInt64.toNat_ofNat_of_lt' hlt, ← hlen, toLeBytes_fromLeBytes]
  · rintro ⟨-, rfl⟩
    rw [fromLeBytes_toLeBytes n.toNat_lt, UInt64.ofNat_toNat]

/-- Eight bytes of a signed number, in two's complement. -/
def i64ToLe (n : Int64) : Bytes := u64ToLe n.toUInt64

def i64 (truncated : ε) : Reader ε Int64 :=
  convert (u64 truncated) fun n => .ok n.toInt64

theorem inverts_i64 (truncated : ε) : Inverts (i64 truncated) (fun _ => True) i64ToLe := by
  refine (inverts_u64 truncated).convert (fun n m _ => ?_) fun _ _ => trivial
  constructor
  · intro h
    cases h
    exact ⟨trivial, rfl⟩
  · rintro ⟨-, rfl⟩
    rfl

/-- Four bytes of an unsigned number. -/
def u32ToLe (n : UInt32) : Bytes := toLeBytes 4 n.toNat

def u32 (truncated : ε) : Reader ε UInt32 :=
  convert (take truncated 4) fun front => .ok (UInt32.ofNat (fromLeBytes front))

theorem inverts_u32 (truncated : ε) : Inverts (u32 truncated) (fun _ => True) u32ToLe := by
  refine (inverts_take truncated 4).convert (fun front n hlen => ?_) fun _ _ => length_toLeBytes _ _
  have hlt : fromLeBytes front < 2 ^ 32 := by
    have := fromLeBytes_lt front
    rwa [hlen] at this
  constructor
  · intro h
    cases h
    refine ⟨trivial, ?_⟩
    rw [UInt32.toNat_ofNat_of_lt' hlt, ← hlen, toLeBytes_fromLeBytes]
  · rintro ⟨-, rfl⟩
    rw [fromLeBytes_toLeBytes n.toNat_lt, UInt32.ofNat_toNat]

/-- Two bytes of an unsigned number. -/
def u16ToLe (n : UInt16) : Bytes := toLeBytes 2 n.toNat

def u16 (truncated : ε) : Reader ε UInt16 :=
  convert (take truncated 2) fun front => .ok (UInt16.ofNat (fromLeBytes front))

theorem inverts_u16 (truncated : ε) : Inverts (u16 truncated) (fun _ => True) u16ToLe := by
  refine (inverts_take truncated 2).convert (fun front n hlen => ?_) fun _ _ => length_toLeBytes _ _
  have hlt : fromLeBytes front < 2 ^ 16 := by
    have := fromLeBytes_lt front
    rwa [hlen] at this
  constructor
  · intro h
    cases h
    refine ⟨trivial, ?_⟩
    rw [UInt16.toNat_ofNat_of_lt' hlt, ← hlen, toLeBytes_fromLeBytes]
  · rintro ⟨-, rfl⟩
    rw [fromLeBytes_toLeBytes n.toNat_lt, UInt16.ofNat_toNat]

/-- An unsigned number of `w` bytes. -/
def word (truncated : ε) (w : ℕ) : Reader ε ℕ :=
  convert (take truncated w) fun front => .ok (fromLeBytes front)

theorem inverts_word (truncated : ε) (w : ℕ) :
    Inverts (word truncated w) (fun n => n < 256 ^ w) (toLeBytes w) := by
  refine (inverts_take truncated w).convert (fun front n hlen => ?_) fun n _ => length_toLeBytes w n
  constructor
  · intro h
    cases h
    refine ⟨?_, ?_⟩
    · rw [← hlen]
      exact fromLeBytes_lt front
    · rw [← hlen, toLeBytes_fromLeBytes]
  · rintro ⟨hn, rfl⟩
    rw [fromLeBytes_toLeBytes hn]

/-! ## Text -/

/-- The bytes of a text. -/
def utf8Bytes (text : String) : Bytes := text.toByteArray.data.toList

def fromUtf8 (bytes : Bytes) : Option String := String.fromUTF8? ⟨bytes.toArray⟩

theorem fromUtf8_eq_some {bytes : Bytes} {text : String} :
    fromUtf8 bytes = some text ↔ bytes = utf8Bytes text := by
  unfold fromUtf8 String.fromUTF8? utf8Bytes
  constructor
  · intro h
    split at h
    · cases h
      rfl
    · cases h
  · rintro rfl
    have hsame : (⟨text.toByteArray.data.toList.toArray⟩ : ByteArray) = text.toByteArray := by
      rw [Array.toArray_toList]
    rw [hsame, dif_pos text.isValidUTF8]
    rfl

/-! ## Repetition -/

/-- A number of values. -/
def many (read : Reader ε α) : ℕ → Reader ε (List α)
  | 0, bytes => .ok ([], bytes)
  | n + 1, bytes => do
    let (a, rest) ← read bytes
    let (l, rest) ← many read n rest
    return (a :: l, rest)

theorem Inverts.many {read : Reader ε α} {Fits : α → Prop} {write : α → Bytes}
    (h : Inverts read Fits write) (n : ℕ) :
    Inverts (many read n) (fun l => l.length = n ∧ ∀ a ∈ l, Fits a) (·.flatMap write) := by
  induction n with
  | zero =>
    intro bytes l rest
    constructor
    · intro heq
      cases heq
      exact ⟨⟨rfl, fun _ h => absurd h List.not_mem_nil⟩, rfl⟩
    · rintro ⟨⟨hlen, -⟩, rfl⟩
      rw [List.length_eq_zero_iff.1 hlen]
      rfl
  | succ n ih =>
    intro bytes l rest
    unfold Reader.many
    rw [h.bind_eq_ok]
    constructor
    · rintro ⟨a, rest', ⟨ha, rfl⟩, hnext⟩
      obtain ⟨l', rest'', ⟨⟨hlen, hl'⟩, rfl⟩, heq⟩ := ih.bind_eq_ok.1 hnext
      cases heq
      refine ⟨⟨congrArg (· + 1) hlen, fun b hb => ?_⟩, (List.append_assoc _ _ _).symm⟩
      rcases List.mem_cons.1 hb with rfl | hb
      · exact ha
      · exact hl' b hb
    · rintro ⟨⟨hlen, hl⟩, rfl⟩
      cases l with
      | nil => cases hlen
      | cons a l =>
        refine ⟨a, l.flatMap write ++ rest, ⟨hl a List.mem_cons_self, List.append_assoc _ _ _⟩, ?_⟩
        exact ih.bind_eq_ok.2 ⟨l, rest, ⟨⟨Nat.succ.inj hlen, fun b hb =>
          hl b (List.mem_cons_of_mem _ hb)⟩, rfl⟩, rfl⟩

/-- Values that are read back one by one are read back together. -/
theorem many_append {read : Reader ε α} {write : α → Bytes} {l : List α}
    (h : ∀ a ∈ l, ∀ rest, read (write a ++ rest) = .ok (a, rest)) (rest : Bytes) :
    Reader.many read l.length (l.flatMap write ++ rest) = .ok (l, rest) := by
  induction l with
  | nil => rfl
  | cons a l ih =>
    rw [List.length_cons, Reader.many, List.flatMap_cons, List.append_assoc,
      h a List.mem_cons_self, ok_bind]
    dsimp only
    rw [ih fun b hb => h b (List.mem_cons_of_mem _ hb), ok_bind]
    rfl

/-- The number of values that were read. -/
theorem length_of_many {read : Reader ε α} {n : ℕ} {bytes rest : Bytes} {l : List α}
    (h : Reader.many read n bytes = .ok (l, rest)) : l.length = n := by
  induction n generalizing bytes l with
  | zero =>
    cases h
    rfl
  | succ n ih =>
    obtain ⟨first, -, h⟩ := DistrHnsw.bind_eq_ok.1 h
    obtain ⟨more, hmore, h⟩ := DistrHnsw.bind_eq_ok.1 h
    cases h
    exact congrArg (· + 1) (ih hmore)

/-- What every value that is read has, all of them have. -/
theorem mem_of_many {read : Reader ε α} {P : α → Prop}
    (hread : ∀ {bytes a rest}, read bytes = .ok (a, rest) → P a) {n : ℕ} {bytes rest : Bytes}
    {l : List α} (h : Reader.many read n bytes = .ok (l, rest)) : ∀ a ∈ l, P a := by
  induction n generalizing bytes l with
  | zero =>
    cases h
    exact fun _ ha => absurd ha List.not_mem_nil
  | succ n ih =>
    obtain ⟨first, hfirst, h⟩ := DistrHnsw.bind_eq_ok.1 h
    obtain ⟨more, hmore, h⟩ := DistrHnsw.bind_eq_ok.1 h
    cases h
    intro a ha
    rcases List.mem_cons.1 ha with rfl | ha
    · exact hread hfirst
    · exact ih hmore a ha

theorem lt_of_word {e : ε} {w n : ℕ} {bytes rest : Bytes} (h : word e w bytes = .ok (n, rest)) :
    n < 256 ^ w := ((inverts_word e w bytes n rest).1 h).1

theorem length_of_take {e : ε} {n : ℕ} {bytes front rest : Bytes}
    (h : take e n bytes = .ok (front, rest)) : front.length = n :=
  ((inverts_take e n bytes front rest).1 h).1

end Reader

end DistrHnsw
