import Mathlib

/-!
# Arithmetic that stops on overflow

Unsigned machine arithmetic compiled with overflow checks: an operation whose
result does not fit stops the program, which is `none` here. Numbers are kept as
`Nat`; the width is an argument.
-/

namespace Fastros.Lib.Checked

variable {w m a b : Nat}

/-- A result of `w` bits, if it fits. -/
def fit (w n : Nat) : Option Nat := if n < 2 ^ w then some n else none

def add (w a b : Nat) : Option Nat := fit w (a + b)

def mul (w a b : Nat) : Option Nat := fit w (a * b)

def sub (a b : Nat) : Option Nat := if b ≤ a then some (a - b) else none

theorem fit_eq_some {n : Nat} : fit w n = some m ↔ n < 2 ^ w ∧ n = m := by
  simp [fit]

theorem add_eq_some : add w a b = some m ↔ a + b < 2 ^ w ∧ a + b = m := fit_eq_some

theorem sub_eq_some : sub a b = some m ↔ b ≤ a ∧ a - b = m := by
  simp [sub]

end Fastros.Lib.Checked
