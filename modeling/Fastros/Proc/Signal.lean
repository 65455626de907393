import Mathlib

/-!
# Signal numbers and dispositions
-/

namespace Fastros.Proc

def sigKill : Nat := 9
def sigSegv : Nat := 11
def sigChld : Nat := 17
def sigCont : Nat := 18
def sigStop : Nat := 19
def sigTstp : Nat := 20
def sigTtin : Nat := 21
def sigTtou : Nat := 22
def sigUrg : Nat := 23
def sigWinch : Nat := 28
def nsig : Nat := 64

def stopsByDefault (sig : Nat) : Bool :=
  sig == sigStop || sig == sigTstp || sig == sigTtin || sig == sigTtou

def ignoredByDefault (sig : Nat) : Bool :=
  sig == sigChld || sig == sigWinch || sig == sigUrg || sig == sigCont

def terminatesByDefault (sig : Nat) : Bool :=
  sig != 0 && !ignoredByDefault sig && !stopsByDefault sig

def sigDfl : UInt64 := 0
def sigIgn : UInt64 := 1

def saSiginfo : UInt64 := 0x00000004
def saOnstack : UInt64 := 0x08000000
def saNodefer : UInt64 := 0x40000000
def saResethand : UInt64 := 0x80000000

/-- The kernel's `rt_sigaction` record. -/
structure SigAction where
  handler : UInt64 := sigDfl
  flags : UInt64 := 0
  restorer : UInt64 := 0
  mask : UInt64 := 0
  deriving DecidableEq, Repr

/-- The bit of signal `sig` in a signal mask. -/
def sigBit (sig : Nat) : UInt64 := 1 <<< UInt64.ofNat (sig - 1)

end Fastros.Proc
