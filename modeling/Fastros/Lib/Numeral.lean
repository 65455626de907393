import Fastros.Lib.Checked

/-!
# Numerals

The digits of a number in some base, most significant first, and the number that
digits stand for. Reading digits with arithmetic that stops on overflow gives the
number whenever it fits.
-/

namespace Fastros.Lib.Numeral

open List

variable {b n k w : Nat}

/-- The digits of a number; zero has one digit. -/
def digits (b n : Nat) : List Nat := if n = 0 then [0] else (Nat.digits b n).reverse

/-- The number that digits stand for, after a number that was read before them. -/
def value (b : Nat) (ds : List Nat) (v : Nat) : Nat := ds.foldl (fun v d => v * b + d) v

@[simp] theorem value_nil (v : Nat) : value b [] v = v := rfl

@[simp] theorem value_cons (d : Nat) (ds : List Nat) (v : Nat) :
    value b (d :: ds) v = value b ds (v * b + d) := rfl

theorem value_append (ds es : List Nat) (v : Nat) :
    value b (ds ++ es) v = value b es (value b ds v) := foldl_append ..

theorem value_zeros (b k : Nat) : value b (List.replicate k 0) 0 = 0 := by
  induction k with
  | zero => rfl
  | succ k ih => rw [replicate_succ, value_cons, zero_mul, ih]

theorem value_reverse (b : Nat) (ds : List Nat) : value b ds.reverse 0 = Nat.ofDigits b ds := by
  induction ds with
  | nil => rfl
  | cons d ds ih =>
    rw [reverse_cons, value_append, ih, value_cons, value_nil, Nat.ofDigits_cons, mul_comm,
      add_comm]

theorem value_digits (b n : Nat) : value b (digits b n) 0 = n := by
  rw [digits]
  split
  · next h => simp [h]
  · rw [value_reverse, Nat.ofDigits_digits]

theorem digits_lt (hb : 1 < b) {d : Nat} (hd : d ∈ digits b n) : d < b := by
  rw [digits] at hd
  split at hd
  · rw [mem_singleton] at hd
    omega
  · exact Nat.digits_lt_base hb (mem_reverse.mp hd)

theorem digits_ne_nil : digits b n ≠ [] := by
  rw [digits]
  split
  · simp
  · next h => simp [Nat.digits_ne_nil_iff_ne_zero.mpr h]

theorem length_digits_pos : 0 < (digits b n).length := length_pos_iff.mpr digits_ne_nil

/-- A positive number of digits is enough exactly if the number is below that power. -/
theorem length_digits_le (hb : 1 < b) (hk : 0 < k) : (digits b n).length ≤ k ↔ n < b ^ k := by
  rw [digits]
  split
  · next h =>
    subst h
    exact ⟨fun _ => Nat.pow_pos (by omega), fun _ => hk⟩
  · rw [length_reverse, Nat.digits_length_le_iff hb]

/-- The number read so far, with one more digit. -/
def push (w b v d : Nat) : Option Nat := (Checked.mul w v b).bind fun v => Checked.add w v d

theorem push_eq {v d : Nat} (h : v * b + d < 2 ^ w) : push w b v d = some (v * b + d) := by
  have hmul : v * b < 2 ^ w := by omega
  rw [push, Checked.mul, Checked.fit_eq_some.mpr ⟨hmul, rfl⟩, Option.bind_some, Checked.add_eq_some.mpr ⟨h, rfl⟩]

theorem le_value (hb : 0 < b) (ds : List Nat) : ∀ v, v ≤ value b ds v := by
  induction ds with
  | nil => exact fun v => le_refl v
  | cons d ds ih =>
    intro v
    have h := ih (v * b + d)
    have : v ≤ v * b := Nat.le_mul_of_pos_right v hb
    rw [value_cons]
    omega

/-- Reading digits does not stop if the number fits. -/
theorem foldlM_push (hb : 0 < b) (ds : List Nat) : ∀ v, value b ds v < 2 ^ w →
    ds.foldlM (push w b) v = some (value b ds v) := by
  induction ds with
  | nil => exact fun v _ => rfl
  | cons d ds ih =>
    intro v h
    rw [value_cons] at h
    have := le_value hb ds (v * b + d)
    rw [foldlM_cons, push_eq (by omega), value_cons]
    exact ih _ h

end Fastros.Lib.Numeral
