import Mathlib

/-!
# CRC-32

`Crc32` takes eight bytes at a time through eight generated tables. A bit step is
linear over xor, so an entry of table `s` is its index after `8 (s + 1)` bit steps,
and the eight lookups add up to the steps of the eight bytes.
-/

namespace Fastros.Archive.Crc32

open List
open Function (iterate_add_apply iterate_succ_apply)
open BitVec (getLsbD_xor ushiftRight_xor_distrib xor_zero xor_assoc shiftRight_add)

abbrev Word := BitVec 32

def poly : Word := 0xEDB88320

/-- One round of the inner loop of `make_tables`: a bit of the reflected division. -/
def shift (c : Word) : Word := if c &&& 1 ≠ 0 then poly ^^^ (c >>> 1) else c >>> 1

/-- Entry `i` of table `s`, as `make_tables` fills them. -/
def table : Nat → Word → Word
  | 0, i => shift^[8] i
  | s + 1, i => (table s i >>> 8) ^^^ shift^[8] (table s i &&& 0xFF)

def byte (b : UInt8) : Word := b.toBitVec.setWidth 32

/-- The shifted bytes do not overlap, so xor joins them. -/
def fromLeBytes (a b c d : UInt8) : Word :=
  byte a ^^^ byte b <<< 8 ^^^ byte c <<< 16 ^^^ byte d <<< 24

/-- `update` on the state: whole groups of eight, then the bytes that are left. -/
def update (c : Word) : List UInt8 → Word
  | b0 :: b1 :: b2 :: b3 :: b4 :: b5 :: b6 :: b7 :: rest =>
    let lo := c ^^^ fromLeBytes b0 b1 b2 b3
    let hi := fromLeBytes b4 b5 b6 b7
    update (table 7 (lo &&& 0xFF) ^^^ table 6 (lo >>> 8 &&& 0xFF) ^^^ table 5 (lo >>> 16 &&& 0xFF)
      ^^^ table 4 (lo >>> 24) ^^^ table 3 (hi &&& 0xFF) ^^^ table 2 (hi >>> 8 &&& 0xFF)
      ^^^ table 1 (hi >>> 16 &&& 0xFF) ^^^ table 0 (hi >>> 24)) rest
  | rest => rest.foldl (fun c b => (c >>> 8) ^^^ table 0 ((c ^^^ byte b) &&& 0xFF)) c

def new : Word := 0xFFFFFFFF

def value (state : Word) : Word := ~~~state

/-- A byte of the message enters the register and is divided out bit by bit. -/
def takeByte (c : Word) (b : UInt8) : Word := shift^[8] (c ^^^ byte b)

/-- The reflected CRC-32, bit by bit. -/
def crc (data : List UInt8) : Word := ~~~data.foldl takeByte 0xFFFFFFFF

theorem shift_eq (c : Word) : shift c = (c >>> 1) ^^^ bif c.getLsbD 0 then poly else 0 := by
  unfold shift
  rw [show (1 : Word) = 1#32 from rfl, BitVec.and_one_eq_setWidth_ofBool_getLsbD]
  cases c.getLsbD 0 with
  | false => exact xor_zero.symm
  | true => exact BitVec.xor_comm _ _

theorem iterate_xor (k : Nat) (x y : Word) : shift^[k] (x ^^^ y) = shift^[k] x ^^^ shift^[k] y := by
  have hone : ∀ x y, shift (x ^^^ y) = shift x ^^^ shift y := by
    intro x y
    have hfeed : ∀ a b : Bool, (bif a ^^ b then poly else 0)
        = (bif a then poly else 0) ^^^ bif b then poly else 0 := by decide
    simp only [shift_eq, getLsbD_xor, ushiftRight_xor_distrib, hfeed]
    ac_rfl
  induction k generalizing x y with
  | zero => rfl
  | succ k ih => rw [iterate_succ_apply, hone, ih, ← iterate_succ_apply, ← iterate_succ_apply]

/-- Zeros fall out without a division. -/
theorem iterate_shift (k : Nat) {w : Word} (h : ∀ i < k, w.getLsbD i = false) : shift^[k] w = w >>> k := by
  induction k generalizing w with
  | zero => simp
  | succ k ih =>
    have hw : shift w = w >>> 1 := by
      rw [shift_eq, h 0 k.succ_pos]
      exact xor_zero
    rw [iterate_succ_apply, hw, ih, ← shiftRight_add, Nat.add_comm]
    intro i hi
    rw [BitVec.getLsbD_ushiftRight]
    exact h _ (by omega)

/-- Eight steps shift the upper bits down and divide the lowest eight. -/
theorem shift_byte (w : Word) : shift^[8] w = shift^[8] (w &&& 0xFF) ^^^ (w >>> 8) := by
  have hhigh := iterate_shift 8 (w := w ^^^ (w &&& 0xFF)) fun i hi => by
    have hone : ∀ i < 8, (0xFF : Word).getLsbD i = true := by decide
    rw [getLsbD_xor, BitVec.getLsbD_and, hone i hi, Bool.and_true, Bool.xor_self]
  rw [iterate_xor, ushiftRight_xor_distrib, BitVec.ushiftRight_and_distrib,
    show (0xFF : Word) >>> 8 = 0#32 from rfl, BitVec.and_zero, xor_zero] at hhigh
  rw [← hhigh, BitVec.xor_comm, xor_assoc, BitVec.xor_self, xor_zero]

theorem table_eq (s : Nat) (i : Word) : table s i = shift^[8 * (s + 1)] i := by
  induction s with
  | zero => rfl
  | succ s ih => rw [table, ih, BitVec.xor_comm, ← shift_byte, ← iterate_add_apply, Nat.add_comm, Nat.mul_succ 8 (s + 1)]

/-- The four lookups of a word, of which the last table has `s` words to go. -/
theorem table_word (s : Nat) (w : Word) :
    table (s + 3) (w &&& 0xFF) ^^^ table (s + 2) (w >>> 8 &&& 0xFF)
      ^^^ table (s + 1) (w >>> 16 &&& 0xFF) ^^^ table s (w >>> 24) = shift^[8 * (s + 4)] w := by
  have hbyte : ∀ t w, table (t + 1) (w &&& 0xFF) ^^^ table t (w >>> 8) = table (t + 1) w := by
    intro t w
    rw [table_eq, table_eq, table_eq, Nat.mul_succ 8 (t + 1), iterate_add_apply, iterate_add_apply,
      shift_byte w, iterate_xor]
  rw [xor_assoc, show w >>> 24 = w >>> 16 >>> 8 from shiftRight_add w 16 8, hbyte,
    xor_assoc, show w >>> 16 = w >>> 8 >>> 8 from shiftRight_add w 8 8, hbyte, hbyte]
  exact table_eq _ w

theorem iterate_byte (j : Nat) (b : UInt8) {k : Nat} (hk : k ≤ 24) :
    shift^[j + k] (byte b <<< k) = shift^[j] (byte b) := by
  have hback : byte b <<< k >>> k = byte b := by
    ext i hi
    by_cases h8 : i < 8
    · simp [byte, show k + i < 32 by omega]
    · simp [byte, BitVec.getLsbD_of_ge b.toBitVec i (by omega)]
  rw [iterate_add_apply, iterate_shift k (by simp +contextual), hback]

theorem shift_word (c : Word) (b0 b1 b2 b3 : UInt8) : shift^[32] (c ^^^ fromLeBytes b0 b1 b2 b3)
    = takeByte (takeByte (takeByte (takeByte c b0) b1) b2) b3 := by
  simp only [takeByte, fromLeBytes, iterate_xor, ← iterate_add_apply]
  rw [← iterate_byte 24 b1 (k := 8) (by decide), ← iterate_byte 16 b2 (k := 16) (by decide),
    ← iterate_byte 8 b3 (k := 24) (by decide)]
  simp only [xor_assoc]

theorem update_eq (c : Word) (data : List UInt8) : update c data = data.foldl takeByte c := by
  fun_induction update c data with
  | case1 c b0 b1 b2 b3 b4 b5 b6 b7 rest lo hi ih =>
    rw [ih]
    simp only [foldl_cons, ← shift_word]
    rw [iterate_xor 32, ← iterate_add_apply, ← table_word 4, ← table_word 0]
    simp only [xor_assoc]
    rfl
  | case2 c rest h =>
    congr 1
    funext c b
    have hzero : byte b >>> 8 = 0#32 := by
      ext i hi
      simp [byte]
    rw [takeByte, shift_byte, ushiftRight_xor_distrib, hzero, xor_zero, BitVec.xor_comm]
    rfl

/-- However the data is cut, the checksum is the bitwise one. -/
theorem updates_value (chunks : List (List UInt8)) :
    value (chunks.foldl update new) = crc chunks.flatten := by
  have hfold : update = foldl takeByte := funext fun c => funext fun data => update_eq c data
  rw [value, crc, foldl_flatten, hfold]
  rfl

end Fastros.Archive.Crc32
