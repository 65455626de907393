import Fastros.Archive.TarFields

/-!
# Pax records

A record states its own length, digits included. A list of records is read back as the
settings it was written from.
-/

namespace Fastros.Archive.Tar

open List hiding get set modify

open Lib.Numeral (digits digits_lt length_digits_le value value_digits)
open Lib.Texts (decimal decimalInt)
open Lib.Utf8 (encode decode_encode encode_eq_nil)

variable {n v : Nat} {p : Pax}

theorem exists_digits (n : Nat) : ∃ d, n + d < 10 ^ d := by
  have h := Nat.lt_pow_self (show 1 < 10 by decide) (n := n)
  refine ⟨n + 1, ?_⟩
  omega

/-- How many digits the length of a record has if the rest of it has `n` bytes. -/
def ownDigits (n : Nat) : Nat := Nat.find (exists_digits n)

/-- The length of a record whose other parts have `n` bytes. -/
def recordLength (n : Nat) : Nat := n + ownDigits n

theorem ownDigits_pos (hn : 0 < n) : 0 < ownDigits n := by
  by_contra h
  have hspec := Nat.find_spec (exists_digits n)
  rw [show Nat.find (exists_digits n) = 0 from Nat.eq_zero_of_not_pos h] at hspec
  omega

theorem length_numeral_le (hn : 0 < n) : (numeral 10 v).length ≤ n ↔ v < 10 ^ n := by
  rw [length_numeral]
  exact length_digits_le (by decide) hn

/-- The number of digits does not change any more once it is right. -/
theorem length_recordLength (hn : 0 < n) : (numeral 10 (recordLength n)).length = ownDigits n := by
  have hpos := ownDigits_pos hn
  have hspec : n + ownDigits n < 10 ^ ownDigits n := Nat.find_spec (exists_digits n)
  have := (length_numeral_le hpos).mpr hspec
  by_cases h1 : ownDigits n = 1
  · have := length_numeral_pos (b := 10) (v := recordLength n)
    rw [recordLength] at *
    omega
  have : ¬ n + (ownDigits n - 1) < 10 ^ (ownDigits n - 1) :=
    Nat.find_min (exists_digits n) (Nat.sub_one_lt_of_lt hpos)
  have : ¬ (numeral 10 (recordLength n)).length ≤ ownDigits n - 1 := by
    rw [length_numeral_le (by omega), recordLength]
    omega
  rw [recordLength] at *
  omega

/-- Each round gets closer to the right number of digits from below. -/
theorem settle_eq (hn : 0 < n) : ∀ (rounds d : Nat), 0 < d → d ≤ ownDigits n → ownDigits n ≤ d + rounds →
    settle n rounds (n + d) = recordLength n := by
  have : n + ownDigits n < 10 ^ ownDigits n := Nat.find_spec (exists_digits n)
  intro rounds
  induction rounds with
  | zero =>
    intro d _ h1 h2
    rw [settle, recordLength]
    omega
  | succ rounds ih =>
    intro d hd h1 h2
    rw [settle]
    by_cases he : d = ownDigits n
    · have hlen := length_recordLength hn
      rw [recordLength] at hlen
      rw [he, hlen, if_pos rfl, recordLength]
    have hmin : ¬ n + d < 10 ^ d := Nat.find_min (exists_digits n) (show d < ownDigits n by omega)
    have : ¬ (numeral 10 (n + d)).length ≤ d := by
      rw [length_numeral_le hd]
      exact hmin
    have hle : (numeral 10 (n + d)).length ≤ ownDigits n := by
      rw [length_numeral_le (by omega)]
      omega
    rw [if_neg (by omega)]
    exact ih _ (by omega) hle (by omega)

theorem settle_base (hn : 0 < n) : settle n n (n + 1) = recordLength n := by
  have : ownDigits n ≤ n + 1 := by
    apply Nat.find_min'
    have h := Nat.lt_pow_self (show 1 < 10 by decide) (n := n)
    omega
  exact settle_eq hn n 1 (by decide) (ownDigits_pos hn) (by omega)

/-- What is in a record besides its length: the key, the value and three separators. -/
def recordBase (key value : Text) : Nat := (encode key).length + (encode value).length + 3

theorem paxRecord_eq (key value : Text) : paxRecord key value
    = numeral 10 (recordLength (recordBase key value)) ++ ascii ' ' :: encode key
      ++ ascii '=' :: encode value ++ [ascii '\n'] := by
  have hpos : 0 < recordBase key value := Nat.succ_pos _
  rw [paxRecord, ← settle_base hpos]
  rfl

theorem length_paxRecord (key value : Text) :
    (paxRecord key value).length = recordLength (recordBase key value) := by
  have hpos : 0 < recordBase key value := Nat.succ_pos _
  have hlen := length_recordLength hpos
  rw [paxRecord_eq]
  simp only [length_append, length_cons, length_nil, hlen]
  rw [recordLength, recordBase]
  omega

theorem encode_decimal (n : Nat) : encode (decimal n) = numeral 10 n := by
  have hone : ∀ d < 10, String.utf8EncodeChar (Lib.Texts.digitChar d) = [UInt8.ofNat (0x30 + d)] := by
    decide
  have hall : ∀ d ∈ digits 10 n, d < 10 := fun d hd => digits_lt (by decide) hd
  rw [decimal, numeral]
  generalize digits 10 n = ds at hall
  induction ds with
  | nil => rfl
  | cons d ds ih =>
    rw [map_cons, Lib.Utf8.encode_cons, hone d (hall d mem_cons_self),
      ih fun x hx => hall x (mem_cons_of_mem d hx)]
    rfl

theorem isDigit_of_numeral {x : UInt8} (hx : x ∈ numeral 10 v) : isDigit x = true := by
  have h := mem_numeral (by decide) (by decide) hx
  rw [isDigit, decide_eq_true_eq]
  omega

theorem parseDecimal_numeral (hv : v < 2 ^ 64) : parseDecimal (numeral 10 v) = .ok v := by
  have : (numeral 10 v).length ≤ 20 := (length_numeral_le (by decide)).mpr (by omega)
  have hall : (numeral 10 v).all isDigit = true := all_eq_true.mpr fun x hx => isDigit_of_numeral hx
  have hfold := foldlM_bytes (b := 10) (by decide) (map_digit_numeral (b := 10) (by decide) (by decide))
    (by rw [value_digits]; exact hv)
  rw [value_digits] at hfold
  rw [parseDecimal, if_neg, hfold]
  rw [hall]
  rintro (h | h | h)
  · exact numeral_ne_nil h
  · omega
  · exact absurd h (by decide)

theorem findIdx?_eq_none_of_digits {x : UInt8} (hx : isDigit x = false) :
    (numeral 10 v).findIdx? (fun b => decide (b = x)) = none := by
  rw [findIdx?_eq_none_iff]
  intro y hy
  rw [decide_eq_false_iff_not]
  rintro rfl
  rw [isDigit_of_numeral hy] at hx
  cases hx

theorem parsePaxTime_decimalInt {z : Int} (h1 : -2 ^ 63 < z) (h2 : z < 2 ^ 63) :
    parsePaxTime (encode (decimalInt z)) = .ok z := by
  have hdot := findIdx?_eq_none_of_digits (v := z.natAbs) (x := ascii '.') (by decide)
  have hparse := parseDecimal_numeral (v := z.natAbs) (by omega)
  rw [decimalInt]
  by_cases hz : z < 0
  · have hbytes : encode ('-' :: decimal z.natAbs) = ascii '-' :: numeral 10 z.natAbs := by
      rw [Lib.Utf8.encode_cons, encode_decimal]
      rfl
    rw [if_pos hz, hbytes, parsePaxTime]
    simp only [head?_cons, tail_cons, decide_true, if_true, hdot, all_nil,
      Bool.not_true, Bool.false_eq_true, if_false, hparse, any_nil]
    show (if 2 ^ 63 ≤ z.natAbs then _ else Except.ok (-(z.natAbs : Int) - 0)) = Except.ok z
    rw [if_neg (by omega), show -(z.natAbs : Int) - 0 = z by omega]
  obtain ⟨x, xs, hx⟩ := exists_cons_of_ne_nil (numeral_ne_nil)
  have hminus : (numeral 10 z.natAbs).head? ≠ some (ascii '-') := by
    rw [hx, head?_cons]
    intro he
    have hd := isDigit_of_numeral (by rw [hx]; exact mem_cons_self)
    rw [Option.some.inj he] at hd
    exact absurd hd (by decide)
  rw [if_neg hz, encode_decimal, parsePaxTime]
  simp only [hminus, decide_false, Bool.false_eq_true, if_false, hdot, all_nil,
    Bool.not_true, hparse]
  show (if 2 ^ 63 ≤ z.natAbs then _ else Except.ok (z.natAbs : Int)) = Except.ok z
  rw [if_neg (by omega), show (z.natAbs : Int) = z by omega]

theorem findIdx?_append_cons {x : UInt8} {l r : List UInt8} (hx : x ∉ l) :
    (l ++ x :: r).findIdx? (fun b => decide (b = x)) = some l.length := by
  rw [findIdx?_eq_some_iff_getElem]
  refine ⟨by simp, by simp, ?_⟩
  intro j hj
  rw [getElem_append_left hj, decide_eq_true_eq]
  rintro rfl
  exact hx (getElem_mem hj)

/-- A record is read as the setting it was written from. -/
theorem parsePaxFrom_record {key value : Text} (rounds : Nat) (rest : List UInt8)
    (hkey : ascii '=' ∉ encode key) (hval : value ≠ [])
    (hlen : (paxRecord key value).length < 2 ^ 64) :
    parsePaxFrom (rounds + 1) p (paxRecord key value ++ rest)
      = (p.set (encode key) (encode value)).bind fun p => parsePaxFrom rounds p rest := by
  obtain ⟨len, hdef⟩ : ∃ len, len = recordLength (recordBase key value) := ⟨_, rfl⟩
  have htotal := length_paxRecord key value
  rw [← hdef] at htotal
  have : (numeral 10 len).length + recordBase key value = len := by
    have hnum := length_recordLength (n := recordBase key value) (Nat.succ_pos _)
    rw [hdef, hnum, recordLength]
    omega
  obtain ⟨body, hbody⟩ : ∃ body, body = encode key ++ ascii '=' :: encode value := ⟨_, rfl⟩
  have : body.length = recordBase key value - 2 := by
    rw [hbody, length_append, length_cons, recordBase]
    omega
  have : 3 ≤ recordBase key value := Nat.le_add_left 3 _
  have hsplit : paxRecord key value ++ rest
      = numeral 10 len ++ ascii ' ' :: (body ++ ascii '\n' :: rest) := by
    rw [paxRecord_eq, ← hdef, hbody]
    simp only [append_assoc, cons_append, nil_append]
  have hspace : ascii ' ' ∉ numeral 10 len := by
    intro hin
    exact absurd (isDigit_of_numeral hin) (by decide)
  have hfind : (paxRecord key value ++ rest).findIdx? (fun b => decide (b = ascii ' '))
      = some (numeral 10 len).length := by
    rw [hsplit]
    exact findIdx?_append_cons hspace
  have hzero : (paxRecord key value ++ rest).all (fun b => decide (b = 0)) = false := by
    rw [hsplit, all_append, all_cons]
    simp [show ascii ' ' ≠ 0 by decide]
  have hnum : (paxRecord key value ++ rest).take (numeral 10 len).length = numeral 10 len := by
    rw [hsplit, take_left]
  have hdrop : (paxRecord key value ++ rest).drop len = rest := by
    rw [← htotal, drop_left]
  have hfront : paxRecord key value ++ rest
      = (numeral 10 len ++ ascii ' ' :: body) ++ ascii '\n' :: rest := by
    rw [hsplit]
    simp only [append_assoc, cons_append]
  have hflen : (numeral 10 len ++ ascii ' ' :: body).length = len - 1 := by
    rw [length_append, length_cons]
    omega
  have hhead : (paxRecord key value ++ rest).take (len - 1) = numeral 10 len ++ ascii ' ' :: body := by
    rw [hfront, ← hflen, take_left]
  have hinner : ((paxRecord key value ++ rest).take (len - 1)).drop ((numeral 10 len).length + 1) = body := by
    rw [hhead, ← drop_drop, drop_left]
    rfl
  have hlast : (paxRecord key value ++ rest).getD (len - 1) 0 = ascii '\n' := by
    rw [hfront, ← hflen]
    simp
  have heq : body.findIdx? (fun b => decide (b = ascii '=')) = some (encode key).length := by
    rw [hbody]
    exact findIdx?_append_cons hkey
  have hk : body.take (encode key).length = encode key := by
    rw [hbody, take_left]
  have hv : body.drop ((encode key).length + 1) = encode value := by
    rw [hbody, ← drop_drop, drop_left]
    rfl
  have hne : encode value ≠ [] := fun h => hval (encode_eq_nil.mp h)
  have hok : ¬ (len ≤ (numeral 10 len).length + 1 ∨ (paxRecord key value ++ rest).length < len ∨
      (paxRecord key value ++ rest).getD (len - 1) 0 ≠ ascii '\n') := by
    rw [hlast, length_append]
    simp only [ne_eq, not_true_eq_false, or_false]
    omega
  rw [parsePaxFrom, hzero]
  simp only [Bool.false_eq_true, if_false, hfind, hnum, parseDecimal_numeral (v := len) (by omega)]
  show (if _ then _ else _) = _
  rw [if_neg hok]
  simp only [hinner, heq, hk, hv, hne, if_false, hdrop]
  rfl

/-- A list of records is read as the settings it was written from. -/
theorem parsePaxFrom_records (rs : List (Text × Text)) (hrs : ∀ r ∈ rs, ascii '=' ∉ encode r.1 ∧
    r.2 ≠ [] ∧ (paxRecord r.1 r.2).length < 2 ^ 64) : ∀ (p : Pax) (rounds : Nat),
    (rs.flatMap fun r => paxRecord r.1 r.2).length ≤ rounds →
    parsePaxFrom rounds p (rs.flatMap fun r => paxRecord r.1 r.2)
      = rs.foldlM (fun p r => p.set (encode r.1) (encode r.2)) p := by
  induction rs with
  | nil =>
    intro p rounds _
    cases rounds <;> rfl
  | cons r rs ih =>
    intro p rounds hrounds
    obtain ⟨hkey, hval, hlen⟩ := hrs r mem_cons_self
    have : 0 < (paxRecord r.1 r.2).length := by
      rw [length_paxRecord, recordLength, recordBase]
      omega
    rw [flatMap_cons, length_append] at hrounds
    obtain ⟨k, rfl⟩ : ∃ k, rounds = k + 1 := ⟨rounds - 1, by omega⟩
    rw [flatMap_cons, parsePaxFrom_record k _ hkey hval hlen, foldlM_cons]
    congr 1
    funext p'
    exact ih (fun x hx => hrs x (mem_cons_of_mem r hx)) p' k (by omega)

theorem set_path (s : Text) : p.set (encode keyPath) (encode s) = .ok { p with path := some s } := by
  rw [Pax.set, if_pos rfl, decode_encode]

theorem set_linkpath (s : Text) :
    p.set (encode keyLinkpath) (encode s) = .ok { p with linkpath := some s } := by
  rw [Pax.set, if_neg (by decide), if_pos rfl, decode_encode]

theorem set_size (hv : v < 2 ^ 64) :
    p.set (encode keySize) (encode (decimal v)) = .ok { p with size := some v } := by
  rw [Pax.set]
  repeat rw [if_neg (by decide)]
  rw [if_pos rfl, encode_decimal, parseDecimal_numeral hv]
  rfl

theorem parseId_decimal (hv : v < 2 ^ 32) (what : String) :
    parseId (encode (decimal v)) what = .ok v := by
  rw [parseId, encode_decimal, parseDecimal_numeral (by omega)]
  exact if_pos hv

theorem set_uid (hv : v < 2 ^ 32) :
    p.set (encode keyUid) (encode (decimal v)) = .ok { p with uid := some v } := by
  rw [Pax.set]
  repeat rw [if_neg (by decide)]
  rw [if_pos rfl, parseId_decimal hv]
  rfl

theorem set_gid (hv : v < 2 ^ 32) :
    p.set (encode keyGid) (encode (decimal v)) = .ok { p with gid := some v } := by
  rw [Pax.set]
  repeat rw [if_neg (by decide)]
  rw [if_pos rfl, parseId_decimal hv]
  rfl

theorem set_uname (s : Text) : p.set (encode keyUname) (encode s) = .ok { p with uname := some s } := by
  rw [Pax.set]
  repeat rw [if_neg (by decide)]
  rw [if_pos rfl, decode_encode]

theorem set_gname (s : Text) : p.set (encode keyGname) (encode s) = .ok { p with gname := some s } := by
  rw [Pax.set]
  repeat rw [if_neg (by decide)]
  rw [if_pos rfl, decode_encode]

theorem set_mtime {z : Int} (h1 : -2 ^ 63 < z) (h2 : z < 2 ^ 63) :
    p.set (encode keyMtime) (encode (decimalInt z)) = .ok { p with mtime := some z } := by
  rw [Pax.set]
  repeat rw [if_neg (by decide)]
  rw [if_pos rfl, parsePaxTime_decimalInt h1 h2]
  rfl

end Fastros.Archive.Tar
