import Mathlib

/-!
# UTF-8 text

Text is a list of characters; its bytes are their encodings. Decoding accepts any
bytes: what is not the encoding of a character becomes the replacement character.
-/

namespace Fastros.Lib.Utf8

open List

variable {s : List Char}

/-- The bytes of a text. -/
def encode (s : List Char) : List UInt8 := s.flatMap String.utf8EncodeChar

@[simp] theorem encode_nil : encode [] = [] := rfl

@[simp] theorem encode_cons (c : Char) (s : List Char) :
    encode (c :: s) = String.utf8EncodeChar c ++ encode s := by
  simp [encode]

@[simp] theorem encode_append (s t : List Char) : encode (s ++ t) = encode s ++ encode t := by
  simp [encode]

/-- What stands for bytes that are not text. -/
def replacement : Char := '�'

def isContinuation (b : Nat) : Bool := 0x80 ≤ b ∧ b ≤ 0xBF

/-- The bytes that may follow a first byte of three or four. -/
def isSecond (first b : Nat) : Bool :=
  (if first = 0xE0 then 0xA0 else if first = 0xF0 then 0x90 else 0x80) ≤ b ∧
    b ≤ (if first = 0xED then 0x9F else if first = 0xF4 then 0x8F else 0xBF)

/-- The character at the front of some bytes, and how many bytes after the first it takes.
Beyond the end the bytes count as zero. -/
def decodeFirst (first : Nat) (rest : List UInt8) : Char × Nat :=
  let b₁ := (rest.getD 0 0).toNat
  let b₂ := (rest.getD 1 0).toNat
  let b₃ := (rest.getD 2 0).toNat
  if first < 0x80 then (Char.ofNat first, 0)
  else if 0xC2 ≤ first ∧ first ≤ 0xDF then
    if isContinuation b₁ then (Char.ofNat ((first - 0xC0) * 64 + (b₁ - 0x80)), 1)
    else (replacement, 0)
  else if 0xE0 ≤ first ∧ first ≤ 0xEF then
    if !isSecond first b₁ then (replacement, 0)
    else if !isContinuation b₂ then (replacement, 1)
    else (Char.ofNat ((first - 0xE0) * 4096 + (b₁ - 0x80) * 64 + (b₂ - 0x80)), 2)
  else if 0xF0 ≤ first ∧ first ≤ 0xF4 then
    if !isSecond first b₁ then (replacement, 0)
    else if !isContinuation b₂ then (replacement, 1)
    else if !isContinuation b₃ then (replacement, 2)
    else (Char.ofNat ((first - 0xF0) * 262144 + (b₁ - 0x80) * 4096 + (b₂ - 0x80) * 64 + (b₃ - 0x80)), 3)
  else (replacement, 0)

def decodeUpTo : (fuel : Nat) → List UInt8 → List Char
  | 0, _ => []
  | _ + 1, [] => []
  | fuel + 1, b :: rest =>
    let (c, n) := decodeFirst b.toNat rest
    c :: decodeUpTo fuel (rest.drop n)

/-- Decode, with replacement characters for what is not text. -/
def decode (bytes : List UInt8) : List Char := decodeUpTo bytes.length bytes

theorem toNat_byte {n : Nat} (h : n < 256) : (UInt8.ofNat n).toNat = n := by
  rw [UInt8.toNat_ofNat', Nat.mod_eq_of_lt h]

theorem val_cases (c : Char) : c.toNat < 0xD800 ∨ 0xDFFF < c.toNat ∧ c.toNat < 0x110000 := c.valid

/-- The bytes of a character decode to it, and no byte after them is read. -/
theorem decodeFirst_encode (c : Char) (rest : List UInt8) :
    ∃ b tail, String.utf8EncodeChar c = b :: tail ∧
      decodeFirst b.toNat (tail ++ rest) = (c, tail.length) := by
  have hv := val_cases c
  have hofNat : Char.ofNat c.toNat = c := Char.ofNat_toNat c
  unfold String.utf8EncodeChar
  obtain ⟨v, hc⟩ : ∃ v, c.toNat = v := ⟨_, rfl⟩
  have hval : c.val.toNat = v := hc
  rw [hc] at hv hofNat
  simp only [hval]
  by_cases h1 : v ≤ 0x7F
  · refine ⟨_, _, if_pos h1, ?_⟩
    have h : (UInt8.ofNat v).toNat = v := toNat_byte (by omega)
    rw [h, decodeFirst, if_pos (by omega), hofNat]
    rfl
  by_cases h2 : v ≤ 0x7FF
  · refine ⟨_, _, by rw [if_neg h1, if_pos h2], ?_⟩
    rw [toNat_byte (by omega), decodeFirst, if_neg (by omega), if_pos (by omega)]
    simp only [cons_append, nil_append, getD_cons_zero,
      toNat_byte (show v % 64 + 0x80 < 256 by omega), isContinuation]
    rw [if_pos (by simp; omega), show (v / 64 % 32 + 0xC0 - 0xC0) * 64 + (v % 64 + 0x80 - 0x80) = v by omega,
      hofNat]
    rfl
  by_cases h3 : v ≤ 0xFFFF
  · refine ⟨_, _, by rw [if_neg h1, if_neg h2, if_pos h3], ?_⟩
    rw [toNat_byte (by omega), decodeFirst, if_neg (by omega), if_neg (by omega), if_pos (by omega)]
    simp only [cons_append, nil_append, getD_cons_zero, getD_cons_succ,
      toNat_byte (show v % 64 + 0x80 < 256 by omega),
      toNat_byte (show v / 64 % 64 + 0x80 < 256 by omega)]
    have hsecond : isSecond (v / 4096 % 16 + 0xE0) (v / 64 % 64 + 0x80) = true := by
      simp only [isSecond, decide_eq_true_eq]
      constructor <;> split_ifs <;> omega
    have hcont : isContinuation (v % 64 + 0x80) = true := by
      simp only [isContinuation, decide_eq_true_eq]
      omega
    rw [hsecond, hcont, show (v / 4096 % 16 + 0xE0 - 0xE0) * 4096 + (v / 64 % 64 + 0x80 - 0x80) * 64
      + (v % 64 + 0x80 - 0x80) = v by omega, hofNat]
    rfl
  refine ⟨_, _, by rw [if_neg h1, if_neg h2, if_neg h3], ?_⟩
  rw [toNat_byte (by omega), decodeFirst]
  repeat rw [if_neg (by omega)]
  rw [if_pos (by omega)]
  simp only [cons_append, nil_append, getD_cons_zero, getD_cons_succ,
    toNat_byte (show v % 64 + 0x80 < 256 by omega),
    toNat_byte (show v / 64 % 64 + 0x80 < 256 by omega),
    toNat_byte (show v / 4096 % 64 + 0x80 < 256 by omega)]
  have hsecond : isSecond (v / 262144 % 8 + 0xF0) (v / 4096 % 64 + 0x80) = true := by
    simp only [isSecond, decide_eq_true_eq]
    constructor <;> split_ifs <;> omega
  have hcont : isContinuation (v / 64 % 64 + 0x80) = true := by
    simp only [isContinuation, decide_eq_true_eq]
    omega
  have hcont' : isContinuation (v % 64 + 0x80) = true := by
    simp only [isContinuation, decide_eq_true_eq]
    omega
  rw [hsecond, hcont, hcont', show (v / 262144 % 8 + 0xF0 - 0xF0) * 262144
    + (v / 4096 % 64 + 0x80 - 0x80) * 4096 + (v / 64 % 64 + 0x80 - 0x80) * 64
    + (v % 64 + 0x80 - 0x80) = v by omega, hofNat]
  rfl

theorem decodeUpTo_encode (s : List Char) : ∀ fuel, (encode s).length ≤ fuel →
    decodeUpTo fuel (encode s) = s := by
  induction s with
  | nil =>
    intro fuel _
    cases fuel <;> rfl
  | cons c s ih =>
    intro fuel hfuel
    obtain ⟨b, tail, hb, hdec⟩ := decodeFirst_encode c (encode s)
    rw [encode_cons, hb, cons_append] at hfuel ⊢
    rw [length_cons, length_append] at hfuel
    obtain ⟨n, rfl⟩ : ∃ n, fuel = n + 1 := ⟨fuel - 1, by omega⟩
    simp only [decodeUpTo, hdec, drop_left]
    rw [ih n (by omega)]

/-- Decoding undoes encoding. -/
theorem decode_encode (s : List Char) : decode (encode s) = s :=
  decodeUpTo_encode s _ (Nat.le_refl _)

theorem zero_not_mem_encodeChar {c : Char} (hc : c ≠ '\x00') : (0 : UInt8) ∉ String.utf8EncodeChar c := by
  have : c.toNat ≠ 0 := by
    intro h
    apply hc
    rw [← Char.ofNat_toNat c, h]
  have hval : c.val.toNat = c.toNat := rfl
  have hne : ∀ n, 0 < n → n < 256 → (0 : UInt8) ≠ UInt8.ofNat n := by
    intro n h1 h2 he
    have hn := toNat_byte h2
    rw [← he] at hn
    have hz : (0 : UInt8).toNat = 0 := rfl
    omega
  unfold String.utf8EncodeChar
  simp only [hval]
  split
  · simp only [mem_singleton]
    exact hne _ (by omega) (by omega)
  split
  · simp only [mem_cons, not_mem_nil, or_false, not_or]
    exact ⟨hne _ (by omega) (by omega), hne _ (by omega) (by omega)⟩
  split
  · simp only [mem_cons, not_mem_nil, or_false, not_or]
    exact ⟨hne _ (by omega) (by omega), hne _ (by omega) (by omega), hne _ (by omega) (by omega)⟩
  · simp only [mem_cons, not_mem_nil, or_false, not_or]
    exact ⟨hne _ (by omega) (by omega), hne _ (by omega) (by omega), hne _ (by omega) (by omega),
      hne _ (by omega) (by omega)⟩

/-- A text without the character zero has no zero byte. -/
theorem zero_not_mem_encode (hs : '\x00' ∉ s) : (0 : UInt8) ∉ encode s := by
  rw [encode, mem_flatMap]
  rintro ⟨c, hc, h0⟩
  refine zero_not_mem_encodeChar ?_ h0
  rintro rfl
  exact hs hc

theorem encode_eq_nil : encode s = [] ↔ s = [] := by
  cases s with
  | nil => simp
  | cons c s =>
    simp [String.utf8EncodeChar_ne_nil]

theorem length_encode_pos (hs : s ≠ []) : 0 < (encode s).length :=
  length_pos_iff.mpr fun h => hs (encode_eq_nil.mp h)

end Fastros.Lib.Utf8
