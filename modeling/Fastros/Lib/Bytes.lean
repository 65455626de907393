import Mathlib

/-!
# Bytes in memory

Little-endian numbers, and the copying of bytes from and to a memory in which an
access may fault.
-/

namespace Fastros.Lib.Bytes

/-- The lowest `n` bytes of a number, the lowest first. -/
def toLeBytes (n v : Nat) : List UInt8 := (List.range n).map fun i => UInt8.ofNat (v / 256 ^ i)

def fromLeBytes : List UInt8 → Nat
  | [] => 0
  | b :: bs => b.toNat + 256 * fromLeBytes bs

variable (mem : Nat → Option UInt8) (addr : Nat)

/-- The `n` bytes at an address, if all of them can be read. -/
def fetch (n : Nat) : Option (List UInt8) := (List.range n).mapM fun i => mem (addr + i)

/-- Every byte that `n` bytes at an address would go to can be stored to. -/
abbrev Writable (writable : Nat → Bool) (n : Nat) : Prop :=
  ∀ i < n, (mem (addr + i)).isSome ∧ writable (addr + i)

/-- The memory after `src` is stored at an address. -/
def store (src : List UInt8) : Nat → Option UInt8 :=
  fun a => if addr ≤ a ∧ a < addr + src.length then some (src.getD (a - addr) 0) else mem a

end Fastros.Lib.Bytes
