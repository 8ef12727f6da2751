import DistrHnsw.Lib.Bytes
import Mathlib.Data.List.GetD
import Mathlib.Data.List.Nodup

/-!
# Bytes as text

Hexadecimal digits, and base64 in its URL-safe alphabet without padding.  Decoding is strict: a text
is accepted exactly when it is the encoding of some bytes.
-/

namespace DistrHnsw

/-- The digits of a number system, each of them once. -/
structure Alphabet where
  digits : List Char
  nodup : digits.Nodup

namespace Alphabet

variable (alphabet : Alphabet)

def digit (n : ℕ) : Char := alphabet.digits.getD n ' '

def value (c : Char) : Option ℕ :=
  if c ∈ alphabet.digits then some (alphabet.digits.idxOf c) else none

variable {alphabet} {c : Char} {n : ℕ}

theorem value_digit (h : n < alphabet.digits.length) : alphabet.value (alphabet.digit n) = some n := by
  have hdigit : alphabet.digit n = alphabet.digits[n] := List.getD_eq_getElem _ _ h
  unfold value
  rw [hdigit, if_pos (List.getElem_mem h), alphabet.nodup.idxOf_getElem n h]

theorem value_eq_some (h : alphabet.value c = some n) :
    n < alphabet.digits.length ∧ c = alphabet.digit n := by
  unfold value at h
  split at h
  · next hmem =>
    cases h
    have hlt := List.idxOf_lt_length_iff.2 hmem
    exact ⟨hlt, ((List.getD_eq_getElem _ _ hlt).trans (List.getElem_idxOf hlt)).symm⟩
  · cases h

end Alphabet

/-- What follows the last separator, and what precedes it. -/
theorem append_cons_inj {α : Type} {sep : α} {front front' rest rest' : List α} (h : sep ∉ rest)
    (h' : sep ∉ rest') (heq : front ++ sep :: rest = front' ++ sep :: rest') :
    front = front' ∧ rest = rest' := by
  rcases List.append_eq_append_iff.1 heq with ⟨middle, hfront, hrest⟩ | ⟨middle, hfront, hrest⟩
  · cases middle with
    | nil => exact ⟨by simpa using hfront.symm, (List.cons.inj hrest).2⟩
    | cons c middle =>
      have hmem : sep ∈ rest := by simp [(List.cons.inj hrest).2]
      exact absurd hmem h
  · cases middle with
    | nil => exact ⟨by simpa using hfront, (List.cons.inj hrest).2.symm⟩
    | cons c middle =>
      have hmem : sep ∈ rest' := by simp [(List.cons.inj hrest).2]
      exact absurd hmem h'

/-! ## Hexadecimal -/

namespace Hex

def lower : Alphabet := ⟨"0123456789abcdef".toList, by decide⟩

def upper : Alphabet := ⟨"0123456789ABCDEF".toList, by decide⟩

instance (text : List Char) : Decidable (∀ c ∈ text, c ∈ lower.digits) := List.decidableBAll _ text

/-- Two digits for each byte, in lower case. -/
def encode (bytes : Bytes) : List Char :=
  bytes.flatMap fun byte => [lower.digit (byte.toNat / 16), lower.digit (byte.toNat % 16)]

/-- A digit in either case. -/
def value (c : Char) : Option ℕ := (lower.value c).or (upper.value c)

def decode : List Char → Option Bytes
  | [] => some []
  | [_] => none
  | high :: low :: rest => do
    let high ← value high
    let low ← value low
    let bytes ← decode rest
    return UInt8.ofNat (16 * high + low) :: bytes

theorem length_encode (bytes : Bytes) : (encode bytes).length = 2 * bytes.length := by
  induction bytes with
  | nil => rfl
  | cons byte bytes ih =>
    unfold encode at ih ⊢
    rw [List.flatMap_cons, List.length_append, ih, List.length_cons]
    show 2 + 2 * bytes.length = 2 * (bytes.length + 1)
    omega

theorem encode_digits (bytes : Bytes) : ∀ c ∈ encode bytes, c ∈ lower.digits := by
  have hdigit {n : ℕ} (h : n < 16) : lower.digit n ∈ lower.digits := by
    unfold Alphabet.digit
    rw [List.getD_eq_getElem _ _ h]
    exact List.getElem_mem h
  intro c hc
  obtain ⟨byte, -, hc⟩ := List.mem_flatMap.1 hc
  have hlt := byte.toNat_lt
  rcases List.mem_cons.1 hc with rfl | hc
  · exact hdigit (by omega)
  · rw [List.mem_singleton.1 hc]
    exact hdigit (by omega)

theorem decode_encode (bytes : Bytes) : decode (encode bytes) = some bytes := by
  have hvalue {n : ℕ} (h : n < 16) : value (lower.digit n) = some n := by
    unfold value
    rw [Alphabet.value_digit h]
    rfl
  induction bytes with
  | nil => rfl
  | cons byte bytes ih =>
    have hlt := byte.toNat_lt
    show decode (lower.digit (byte.toNat / 16) :: lower.digit (byte.toNat % 16) :: encode bytes) = _
    unfold decode
    rw [hvalue (show byte.toNat / 16 < 16 by omega), hvalue (show byte.toNat % 16 < 16 by omega), ih]
    show some (UInt8.ofNat (16 * (byte.toNat / 16) + byte.toNat % 16) :: bytes) = _
    rw [Nat.div_add_mod, UInt8.ofNat_toNat]

/-- A text in lower case is the encoding of what it decodes to. -/
theorem encode_decode {text : List Char} (h : ∀ c ∈ text, c ∈ lower.digits)
    (heven : text.length % 2 = 0) : ∃ bytes, decode text = some bytes ∧ encode bytes = text := by
  have hvalue {c : Char} (hc : c ∈ lower.digits) :
      ∃ n, value c = some n ∧ n < 16 ∧ c = lower.digit n := by
    have hlower : lower.value c = some (lower.digits.idxOf c) := if_pos hc
    obtain ⟨hlt, heq⟩ := Alphabet.value_eq_some hlower
    exact ⟨_, by unfold value; rw [hlower]; rfl, hlt, heq⟩
  fun_induction decode text with
  | case1 => exact ⟨[], rfl, rfl⟩
  | case2 c => cases heven
  | case3 high low rest ih =>
    obtain ⟨n, hn, hnlt, hhigh⟩ := hvalue (h high List.mem_cons_self)
    obtain ⟨m, hm, hmlt, hlow⟩ := hvalue (h low (by simp))
    obtain ⟨bytes, hbytes, hrest⟩ := ih (fun c hc => h c (by simp [hc]))
      (by simp only [List.length_cons] at heven; omega)
    refine ⟨UInt8.ofNat (16 * n + m) :: bytes, by rw [hn, hm, hbytes]; rfl, ?_⟩
    show lower.digit ((UInt8.ofNat (16 * n + m)).toNat / 16) ::
      lower.digit ((UInt8.ofNat (16 * n + m)).toNat % 16) :: encode bytes = _
    rw [UInt8.toNat_ofNat_of_lt' (show 16 * n + m < 256 by omega),
      show (16 * n + m) / 16 = n by omega, show (16 * n + m) % 16 = m by omega, hrest, ← hhigh, ← hlow]

end Hex

/-! ## Base64 -/

namespace Base64

def urlSafe : Alphabet :=
  ⟨"ABCDEFGHIJKLMNOPQRSTUVWXYZabcdefghijklmnopqrstuvwxyz0123456789-_".toList, by decide⟩

/-- Four digits for each three bytes; what is left over gets two or three digits. -/
def encode : Bytes → List Char
  | [] => []
  | [a] => [urlSafe.digit (a.toNat / 4), urlSafe.digit (a.toNat % 4 * 16)]
  | [a, b] => [urlSafe.digit (a.toNat / 4), urlSafe.digit (a.toNat % 4 * 16 + b.toNat / 16),
      urlSafe.digit (b.toNat % 16 * 4)]
  | a :: b :: c :: rest => urlSafe.digit (a.toNat / 4) ::
      urlSafe.digit (a.toNat % 4 * 16 + b.toNat / 16) ::
      urlSafe.digit (b.toNat % 16 * 4 + c.toNat / 64) :: urlSafe.digit (c.toNat % 64) :: encode rest

/-- Unused bits have to be zero. -/
def decode : List Char → Option Bytes
  | [] => some []
  | [_] => none
  | [w, x] => do
    let w ← urlSafe.value w
    let x ← urlSafe.value x
    if x % 16 = 0 then some [UInt8.ofNat (w * 4 + x / 16)] else none
  | [w, x, y] => do
    let w ← urlSafe.value w
    let x ← urlSafe.value x
    let y ← urlSafe.value y
    if y % 4 = 0 then some [UInt8.ofNat (w * 4 + x / 16), UInt8.ofNat (x % 16 * 16 + y / 4)] else none
  | w :: x :: y :: z :: rest => do
    let w ← urlSafe.value w
    let x ← urlSafe.value x
    let y ← urlSafe.value y
    let z ← urlSafe.value z
    let bytes ← decode rest
    return UInt8.ofNat (w * 4 + x / 16) :: UInt8.ofNat (x % 16 * 16 + y / 4) ::
      UInt8.ofNat (y % 4 * 64 + z) :: bytes

theorem value_digit {n : ℕ} (h : n < 64) : urlSafe.value (urlSafe.digit n) = some n :=
  Alphabet.value_digit h

theorem decode_encode (bytes : Bytes) : decode (encode bytes) = some bytes := by
  have hbyte {n : ℕ} {a : UInt8} (h : n = a.toNat) : UInt8.ofNat n = a := by
    rw [h, UInt8.ofNat_toNat]
  fun_induction encode bytes with
  | case1 => rfl
  | case2 a =>
    have ha := a.toNat_lt
    unfold decode
    rw [value_digit (by omega), value_digit (by omega)]
    show (if a.toNat % 4 * 16 % 16 = 0 then _ else _) = _
    rw [if_pos (by omega), hbyte (a := a) (by omega)]
  | case3 a b =>
    have ha := a.toNat_lt
    have hb := b.toNat_lt
    unfold decode
    rw [value_digit (by omega), value_digit (by omega), value_digit (by omega)]
    show (if b.toNat % 16 * 4 % 4 = 0 then _ else _) = _
    rw [if_pos (by omega), hbyte (a := a) (by omega), hbyte (a := b) (by omega)]
  | case4 a b c rest ih =>
    have ha := a.toNat_lt
    have hb := b.toNat_lt
    have hc := c.toNat_lt
    unfold decode
    rw [value_digit (by omega), value_digit (by omega), value_digit (by omega),
      value_digit (by omega), ih]
    show some (_ :: _ :: _ :: rest) = _
    rw [hbyte (a := a) (by omega), hbyte (a := b) (by omega), hbyte (a := c) (by omega)]

theorem encode_decode {text : List Char} {bytes : Bytes} (h : decode text = some bytes) :
    encode bytes = text := by
  have hvalue {c : Char} {n : ℕ} (hc : urlSafe.value c = some n) : n < 64 ∧ urlSafe.digit n = c :=
    ⟨(Alphabet.value_eq_some hc).1, (Alphabet.value_eq_some hc).2.symm⟩
  fun_induction decode text generalizing bytes with
  | case1 =>
    cases h
    rfl
  | case2 c => cases h
  | case3 w x =>
    obtain ⟨n, hn, h₁⟩ := Option.bind_eq_some_iff.1 h
    obtain ⟨m, hm, h₂⟩ := Option.bind_eq_some_iff.1 h₁
    obtain ⟨hn, rfl⟩ := hvalue hn
    obtain ⟨hm, rfl⟩ := hvalue hm
    split at h₂
    · cases h₂
      unfold encode
      rw [UInt8.toNat_ofNat_of_lt' (show n * 4 + m / 16 < 256 by omega),
        show (n * 4 + m / 16) / 4 = n by omega, show (n * 4 + m / 16) % 4 * 16 = m by omega]
    · cases h₂
  | case4 w x y =>
    obtain ⟨n, hn, h₁⟩ := Option.bind_eq_some_iff.1 h
    obtain ⟨m, hm, h₂⟩ := Option.bind_eq_some_iff.1 h₁
    obtain ⟨k, hk, h₃⟩ := Option.bind_eq_some_iff.1 h₂
    obtain ⟨hn, rfl⟩ := hvalue hn
    obtain ⟨hm, rfl⟩ := hvalue hm
    obtain ⟨hk, rfl⟩ := hvalue hk
    split at h₃
    · cases h₃
      unfold encode
      rw [UInt8.toNat_ofNat_of_lt' (show n * 4 + m / 16 < 256 by omega),
        UInt8.toNat_ofNat_of_lt' (show m % 16 * 16 + k / 4 < 256 by omega),
        show (n * 4 + m / 16) / 4 = n by omega,
        show (n * 4 + m / 16) % 4 * 16 + (m % 16 * 16 + k / 4) / 16 = m by omega,
        show (m % 16 * 16 + k / 4) % 16 * 4 = k by omega]
    · cases h₃
  | case5 w x y z rest ih =>
    obtain ⟨n, hn, h₁⟩ := Option.bind_eq_some_iff.1 h
    obtain ⟨m, hm, h₂⟩ := Option.bind_eq_some_iff.1 h₁
    obtain ⟨k, hk, h₃⟩ := Option.bind_eq_some_iff.1 h₂
    obtain ⟨l, hl, h₄⟩ := Option.bind_eq_some_iff.1 h₃
    obtain ⟨tail, htail, h₅⟩ := Option.bind_eq_some_iff.1 h₄
    obtain ⟨hn, rfl⟩ := hvalue hn
    obtain ⟨hm, rfl⟩ := hvalue hm
    obtain ⟨hk, rfl⟩ := hvalue hk
    obtain ⟨hl, rfl⟩ := hvalue hl
    cases h₅
    unfold encode
    rw [UInt8.toNat_ofNat_of_lt' (show n * 4 + m / 16 < 256 by omega),
      UInt8.toNat_ofNat_of_lt' (show m % 16 * 16 + k / 4 < 256 by omega),
      UInt8.toNat_ofNat_of_lt' (show k % 4 * 64 + l < 256 by omega),
      show (n * 4 + m / 16) / 4 = n by omega,
      show (n * 4 + m / 16) % 4 * 16 + (m % 16 * 16 + k / 4) / 16 = m by omega,
      show (m % 16 * 16 + k / 4) % 16 * 4 + (k % 4 * 64 + l) / 64 = k by omega,
      show (k % 4 * 64 + l) % 64 = l by omega, ih htail]

/-- A text is accepted exactly when it is the encoding of some bytes. -/
theorem decode_eq_some_iff {text : List Char} {bytes : Bytes} :
    decode text = some bytes ↔ text = encode bytes :=
  ⟨fun h => (encode_decode h).symm, fun h => h ▸ decode_encode bytes⟩

theorem digit_mem {n : ℕ} (h : n < 64) : urlSafe.digit n ∈ urlSafe.digits := by
  have hlt : n < urlSafe.digits.length := h
  unfold Alphabet.digit
  rw [List.getD_eq_getElem _ _ hlt]
  exact List.getElem_mem hlt

theorem encode_digits (bytes : Bytes) : ∀ c ∈ encode bytes, c ∈ urlSafe.digits := by
  have hbyte (byte : UInt8) : byte.toNat < 256 := byte.toNat_lt
  intro c hc
  induction bytes using encode.induct with
  | case1 => exact absurd hc List.not_mem_nil
  | case2 a =>
    have ha := hbyte a
    simp only [encode, List.mem_cons, List.not_mem_nil, or_false] at hc
    rcases hc with rfl | rfl <;> exact digit_mem (by omega)
  | case3 a b =>
    have ha := hbyte a
    have hb := hbyte b
    simp only [encode, List.mem_cons, List.not_mem_nil, or_false] at hc
    rcases hc with rfl | rfl | rfl <;> exact digit_mem (by omega)
  | case4 a b d rest ih =>
    have ha := hbyte a
    have hb := hbyte b
    have hd := hbyte d
    simp only [encode, List.mem_cons] at hc
    rcases hc with rfl | rfl | rfl | rfl | hc
    · exact digit_mem (by omega)
    · exact digit_mem (by omega)
    · exact digit_mem (by omega)
    · exact digit_mem (by omega)
    · exact ih hc

end Base64

/-! ## White space -/

/-- The characters with the property `White_Space`. -/
def isWhitespace (c : Char) : Bool :=
  let n := c.toNat
  (9 ≤ n && n ≤ 13) || n = 0x20 || n = 0x85 || n = 0xA0 || n = 0x1680 ||
    (0x2000 ≤ n && n ≤ 0x200A) || n = 0x2028 || n = 0x2029 || n = 0x202F || n = 0x205F || n = 0x3000

/-- Without white space at both ends. -/
def trim (text : List Char) : List Char :=
  ((text.dropWhile isWhitespace).reverse.dropWhile isWhitespace).reverse

theorem dropWhile_none {text : List Char} (h : ∀ c ∈ text, isWhitespace c = false) :
    text.dropWhile isWhitespace = text := by
  cases text with
  | nil => rfl
  | cons c text => exact List.dropWhile_cons_of_neg (by rw [h c List.mem_cons_self]; decide)

theorem trim_none {text : List Char} (h : ∀ c ∈ text, isWhitespace c = false) : trim text = text := by
  unfold trim
  rw [dropWhile_none h, dropWhile_none fun c hc => h c (List.mem_reverse.1 hc), List.reverse_reverse]

theorem trim_base64 (bytes : Bytes) : trim (Base64.encode bytes) = Base64.encode bytes := by
  have hdigits : Base64.urlSafe.digits.all (fun c => !isWhitespace c) = true := by decide
  apply trim_none
  intro c hc
  simpa using List.all_eq_true.1 hdigits c (Base64.encode_digits bytes c hc)

end DistrHnsw
