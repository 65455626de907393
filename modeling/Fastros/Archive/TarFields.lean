import Fastros.Archive.Tar

/-!
# The fields of a tar header

What is written to a field is what is read from it: numbers as octal digits or, if they
are too large, in base 256, and texts up to a zero byte.
-/

namespace Fastros.Archive.Tar

open List

open Lib.Numeral (digits digits_lt length_digits_le length_digits_pos value value_append value_digits
  value_zeros value_cons le_value foldlM_push push)
open Lib.Utf8 (encode decode_encode zero_not_mem_encode toNat_byte)

variable {b n k v : Nat} {s : Text}
variable {x : UInt8}

theorem map_digit (hb : b ≤ 10) {ds : List Nat} (hd : ∀ d ∈ ds, d < b) :
    (ds.map fun d => UInt8.ofNat (0x30 + d)).map (fun x => x.toNat - 0x30) = ds := by
  rw [map_map]
  refine (map_congr_left fun d h => ?_).trans (map_id ds)
  have := hd d h
  rw [Function.comp_apply, toNat_byte (by omega), Nat.add_sub_cancel_left, id]

theorem map_digit_numeral (hb : 1 < b) (hb' : b ≤ 10) :
    (numeral b v).map (fun x => x.toNat - 0x30) = digits b v :=
  map_digit hb' fun _ hd => digits_lt hb hd

/-- A numeral is made of digit characters. -/
theorem mem_numeral (hb : 1 < b) (hb' : b ≤ 10) (hx : x ∈ numeral b v) :
    0x30 ≤ x.toNat ∧ x.toNat < 0x30 + b := by
  obtain ⟨d, hd, rfl⟩ := mem_map.mp hx
  have := digits_lt hb hd
  rw [toNat_byte (by omega)]
  omega

theorem length_numeral : (numeral b v).length = (digits b v).length := length_map _

theorem length_numeral_pos : 0 < (numeral b v).length := by
  rw [length_numeral]
  exact length_digits_pos

theorem numeral_ne_nil : numeral b v ≠ [] := length_pos_iff.mp length_numeral_pos

theorem foldlM_bytes (hb : 0 < b) {bytes : List UInt8} {ds : List Nat}
    (hds : bytes.map (fun x => x.toNat - 0x30) = ds) (hv : value b ds 0 < 2 ^ 64) :
    bytes.foldlM (fun v x => push 64 b v (x.toNat - 0x30)) 0 = some (value b ds 0) := by
  have h := foldlM_push hb ds 0 hv
  rw [← hds, foldlM_map] at h
  rw [← hds]
  exact h

theorem length_padded (h : (numeral 8 v).length ≤ n) : (padded n v).length = n := by
  rw [padded, length_append, length_replicate]
  omega

theorem le_length_padded : (numeral 8 v).length ≤ (padded n v).length := by
  rw [padded, length_append]
  omega

theorem mem_padded (hx : x ∈ padded n v) : 0x30 ≤ x.toNat ∧ x.toNat ≤ 0x37 := by
  rcases mem_append.mp hx with hx | hx
  · rw [eq_of_mem_replicate hx]
    decide
  · have := mem_numeral (by decide) (by decide) hx
    omega

theorem value_padded : value 8 ((padded n v).map fun x => x.toNat - 0x30) 0 = v := by
  rw [padded, map_append, map_digit_numeral (by decide) (by decide), map_replicate,
    value_append, show (ascii '0').toNat - 0x30 = 0 from rfl, value_zeros, value_digits]

theorem isOctal_of_mem_padded (hx : x ∈ padded n v) : isOctal x = true := by
  rw [isOctal, decide_eq_true_eq]
  exact mem_padded hx

theorem not_blank_of_octal (hx : isOctal x = true) : isBlank x = false := by
  rw [isOctal, decide_eq_true_eq] at hx
  rw [isBlank, decide_eq_false_iff_not]
  rintro (rfl | rfl)
  · exact absurd hx.1 (by decide)
  · exact absurd hx.1 (by decide)

theorem not_octal_of_blank (hx : isBlank x = true) : isOctal x = false := by
  by_contra h
  rw [not_blank_of_octal (by simpa using h)] at hx
  cases hx

/-- An octal field is read back, whatever blanks end it. -/
theorem parseNum_padded {tail : List UInt8} (hv : v < 2 ^ 64) (htail : tail.all isBlank = true) :
    parseNum (padded n v ++ tail) = .ok v := by
  have hpos : 0 < (padded n v).length := lt_of_lt_of_le length_numeral_pos le_length_padded
  obtain ⟨x, xs, hx⟩ := exists_cons_of_ne_nil (length_pos_iff.mp hpos)
  have hmem : x ∈ padded n v := by rw [hx]; exact mem_cons_self
  have := mem_padded hmem
  have hdrop : (padded n v ++ tail).dropWhile isBlank = padded n v ++ tail := by
    rw [hx, cons_append, dropWhile_cons_of_neg]
    rw [not_blank_of_octal (isOctal_of_mem_padded hmem)]
    decide
  have hall : ∀ y ∈ padded n v, isOctal y = true := fun y hy => isOctal_of_mem_padded hy
  have htake : (padded n v ++ tail).takeWhile isOctal = padded n v := by
    rw [takeWhile_append_of_pos hall]
    cases tail with
    | nil => simp
    | cons y ys =>
      rw [all_cons, Bool.and_eq_true] at htail
      rw [takeWhile_cons_of_neg (by rw [not_octal_of_blank htail.1]; decide), append_nil]
  have hrest : (padded n v ++ tail).dropWhile isOctal = tail := by
    rw [dropWhile_append_of_pos hall]
    cases tail with
    | nil => rfl
    | cons y ys =>
      rw [all_cons, Bool.and_eq_true] at htail
      rw [dropWhile_cons_of_neg (by rw [not_octal_of_blank htail.1]; decide)]
  have hhead : (padded n v ++ tail).headD 0 = x := by rw [hx]; rfl
  have hvalue : value 8 ((padded n v).map fun x => x.toNat - 0x30) 0 = v := value_padded
  rw [parseNum, hhead, if_neg (by omega)]
  simp only [hdrop, htake, hrest]
  rw [foldlM_bytes (by decide) rfl (by rw [hvalue]; exact hv)]
  simp only [hvalue, htail, if_true]

theorem putOctal_eq (hn : 2 ≤ n) : putOctal n v = if v < 8 ^ (n - 1) then some (padded (n - 1) v ++ [0])
    else none := by
  have hfit := length_digits_le (b := 8) (n := v) (by decide) (show 0 < n - 1 by omega)
  rw [← length_numeral] at hfit
  rw [putOctal]
  by_cases hv : v < 8 ^ (n - 1)
  · rw [if_pos hv, if_neg]
    rw [length_padded (hfit.mpr hv)]
    omega
  · rw [if_neg hv, if_pos]
    have := le_length_padded (n := n - 1) (v := v)
    omega

theorem parseBase256_eq : ∀ (bs : List UInt8) (v : Nat), value 256 (bs.map fun x => x.toNat) v < 2 ^ 64 →
    parseBase256 bs v = .ok (value 256 (bs.map fun x => x.toNat) v) := by
  intro bs
  induction bs with
  | nil => exact fun v _ => rfl
  | cons x xs ih =>
    intro v hv
    rw [map_cons, value_cons] at hv ⊢
    have := le_value (b := 256) (by decide) (xs.map fun x => x.toNat) (v * 256 + x.toNat)
    have hsmall : v / 2 ^ 56 = 0 := Nat.div_eq_of_lt (by omega)
    rw [parseBase256, if_neg (by rw [hsmall]; decide), ih _ hv]

theorem value_bytes (v : Nat) : ∀ (k acc : Nat), value 256 ((List.range k).reverse.map fun i =>
    v / 256 ^ i % 256) acc = acc * 256 ^ k + v % 256 ^ k := by
  intro k
  induction k with
  | zero =>
    intro acc
    simp [Nat.mod_one]
  | succ k ih =>
    intro acc
    rw [range_succ, reverse_append, reverse_singleton, singleton_append,
      map_cons, value_cons, ih, Nat.mod_pow_succ, pow_succ]
    ring

section

variable (hn : 2 ≤ n)
include hn

theorem length_putBase256 : (putBase256 n v).length = n := by
  rw [putBase256, length_modifyHead, length_append, length_replicate, length_map,
    length_reverse, length_range]
  omega

theorem parseNum_putBase256 (hv : v < 2 ^ 64) (hfit : v < 256 ^ (n - 1)) :
    parseNum (putBase256 n v) = .ok v := by
  obtain ⟨k, hk⟩ : ∃ k, k = min 8 (n - 1) := ⟨_, rfl⟩
  obtain ⟨z, hz⟩ : ∃ z, n - k = z + 1 := ⟨n - k - 1, by omega⟩
  have hbytes : putBase256 n v = 0x80 :: (replicate z 0 ++
      (range k).reverse.map fun i => UInt8.ofNat (v / 256 ^ i % 256)) := by
    rw [putBase256, ← hk, hz, replicate_succ, cons_append, modifyHead_cons]
    rfl
  have hsmall : v < 256 ^ k := by
    rcases le_total 8 (n - 1) with h | h
    · rw [hk, min_eq_left h]
      exact hv
    · rw [hk, min_eq_right h]
      exact hfit
  have hmap : ((range k).reverse.map fun i => UInt8.ofNat (v / 256 ^ i % 256)).map (fun x => x.toNat)
      = (range k).reverse.map fun i => v / 256 ^ i % 256 := by
    rw [map_map]
    refine map_congr_left fun i _ => ?_
    rw [Function.comp_apply, toNat_byte (by omega)]
  have hvalue : value 256 ((replicate z 0 ++ (range k).reverse.map fun i =>
      UInt8.ofNat (v / 256 ^ i % 256)).map fun x : UInt8 => x.toNat) 0 = v := by
    rw [map_append, hmap, map_replicate, value_append, show (0 : UInt8).toNat = 0 from rfl,
      value_zeros, value_bytes, zero_mul, zero_add, Nat.mod_eq_of_lt hsmall]
  have hparse := parseBase256_eq _ 0 (by rw [hvalue]; exact hv)
  rw [hvalue] at hparse
  rw [hbytes, parseNum, headD_cons, if_pos (by decide), if_neg (by decide)]
  exact hparse

theorem length_putNum : (putNum n v).length = n := by
  have hfit := length_digits_le (b := 8) (n := v) (by decide) (show 0 < n - 1 by omega)
  rw [← length_numeral] at hfit
  rw [putNum, putOctal_eq hn]
  split
  · next hv =>
    rw [Option.getD_some, length_append, length_padded (hfit.mpr hv), length_singleton]
    omega
  · exact length_putBase256 hn

/-- A number field is read back, octal or base 256. -/
theorem parseNum_putNum (hv : v < 2 ^ 64) (hfit : v < 256 ^ (n - 1)) :
    parseNum (putNum n v) = .ok v := by
  rw [putNum, putOctal_eq hn]
  split
  · exact parseNum_padded hv rfl
  · exact parseNum_putBase256 hn hv hfit

theorem putZero_eq : putZero n = putNum n 0 := by
  rw [putZero, putNum, putOctal_eq hn, if_pos (Nat.pow_pos (by decide))]
  rfl

/-- A number that fits the octal digits of a field is not taken for a negative one. -/
theorem headD_putNum (hv : v < 8 ^ (n - 1)) : (putNum n v).headD 0 ≠ 0xFF := by
  have hpos : 0 < (padded (n - 1) v).length := lt_of_lt_of_le length_numeral_pos le_length_padded
  obtain ⟨x, xs, hx⟩ := exists_cons_of_ne_nil (length_pos_iff.mp hpos)
  have hrange := mem_padded (show x ∈ padded (n - 1) v by rw [hx]; exact mem_cons_self)
  rw [putNum, putOctal_eq hn, if_pos hv, Option.getD_some, hx]
  rintro rfl
  exact absurd hrange.2 (by decide)

end

theorem parseU32_putNum (hv : v < 2 ^ 32) : parseU32 (putNum 8 v) = .ok v := by
  rw [parseU32, parseNum_putNum (by decide) (by omega) (by omega)]
  exact if_pos hv

theorem parseSigned_putNum (hv : v < 8 ^ 11) : parseSigned (putNum 12 v) = .ok (v : Int) := by
  rw [parseSigned, if_neg (headD_putNum (by decide) hv),
    parseNum_putNum (by decide) (by omega) (by omega)]
  exact if_pos (by omega)

theorem length_putStr : (putStr n s).length = n := by
  rw [putStr, length_append, length_replicate, length_take]
  omega

/-- A text that fits its field is read back up to the first zero byte. -/
theorem cstr_putStr (hlen : (encode s).length ≤ n) (hs : '\x00' ∉ s) : cstr (putStr n s) = s := by
  have hall : ∀ x ∈ encode s, decide (x ≠ 0) = true := by
    intro x hx
    rw [decide_eq_true_eq]
    rintro rfl
    exact zero_not_mem_encode hs hx
  have htake : (putStr n s).takeWhile (fun b => decide (b ≠ 0)) = encode s := by
    rw [putStr, take_of_length_le hlen, takeWhile_append_of_pos hall]
    cases n - (encode s).length with
    | zero => simp
    | succ k => simp [replicate_succ]
  rw [cstr, htake, decode_encode]

theorem truncateStr_eq : ∀ {s : Text} {n : Nat}, (encode s).length ≤ n → truncateStr n s = s := by
  intro s
  induction s with
  | nil => exact fun _ => rfl
  | cons c s ih =>
    intro n hlen
    rw [Lib.Utf8.encode_cons, length_append, String.length_utf8EncodeChar] at hlen
    rw [truncateStr, if_pos (by omega), ih (by omega)]

end Fastros.Archive.Tar
