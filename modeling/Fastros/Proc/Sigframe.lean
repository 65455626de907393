import Fastros.Errno
import Fastros.Lib.Bytes
import Fastros.Lib.Stateful
import Fastros.Proc.Signal

/-!
# Returning from a signal handler

`rt_sigreturn`: the register image saved in the user's `ucontext` is read back,
further pending signals are delivered on top of it, and the result is loaded by
`iretq` at ring 0. User memory holds arbitrary bytes; a stop blocks the thread
while the rest of the system runs, so it may change everything but the thread's
own registers.
-/

namespace Fastros.Proc

open Lib.Stateful
open Lib.Bytes (fetch fromLeBytes store toLeBytes Writable)
open List (range replicate)

/-- The interrupted user registers. -/
structure Regs where
  r8 : UInt64 := 0
  r9 : UInt64 := 0
  r10 : UInt64 := 0
  r11 : UInt64 := 0
  r12 : UInt64 := 0
  r13 : UInt64 := 0
  r14 : UInt64 := 0
  r15 : UInt64 := 0
  rdi : UInt64 := 0
  rsi : UInt64 := 0
  rbp : UInt64 := 0
  rbx : UInt64 := 0
  rdx : UInt64 := 0
  rax : UInt64 := 0
  rcx : UInt64 := 0
  rsp : UInt64 := 0
  rip : UInt64 := 0
  rflags : UInt64 := 0
  deriving DecidableEq, Repr

/-- The thread in the system call, with the memory and the signal dispositions of
its process. `mem` is `none` where a read faults. -/
structure Thread where
  mem : Nat → Option UInt8
  writable : Nat → Bool := fun _ => true
  pending : UInt64 := 0
  blocked : UInt64 := 0
  sasSp : UInt64 := 0
  sasSize : UInt64 := 0
  sigactions : Nat → SigAction := fun _ => {}
  fpu : List UInt8 := []

/-- Why the kernel does not get back to the caller. -/
inductive Halt where
  | errno (e : Errno)
  | exit (sig : Nat)
  | panic
  deriving DecidableEq, Repr

abbrev TM := EStateM Halt Thread

def leBytes (n : Nat) (v : UInt64) : List UInt8 := toLeBytes n v.toNat

def fromLe (b : List UInt8) : UInt64 := UInt64.ofNat (fromLeBytes b)

/-- `uaccess::copy_from`. -/
def copyFrom (addr n : Nat) : TM (List UInt8) := fun t =>
  match fetch t.mem addr n with
  | some bytes => .ok bytes t
  | none => .error (.errno .efault) t

/-- `uaccess::copy_to`. -/
def copyTo (addr : Nat) (src : List UInt8) : TM Unit := fun t =>
  if Writable t.mem addr t.writable src.length then .ok () { t with mem := store t.mem addr src }
  else .error (.errno .efault) t

def ucSize : Nat := 512
def ucMctx : Nat := 40
def ucFpstate : Nat := 40 + 184
def ucSigmask : Nat := 40 + 256
def siginfoSize : Nat := 128
def fxsaveSize : Nat := 512

/-- The word at `off` of a buffer. -/
def getWord (b : List UInt8) (off : Nat) : UInt64 := fromLe ((b.drop off).take 8)

/-- The registers in the order of `struct sigcontext`. -/
def Regs.words (r : Regs) : List UInt64 :=
  [r.r8, r.r9, r.r10, r.r11, r.r12, r.r13, r.r14, r.r15, r.rdi, r.rsi, r.rbp, r.rbx, r.rdx, r.rax,
    r.rcx, r.rsp, r.rip, r.rflags]

/-- The `ucontext` that `setup_frame` builds: mcontext, fpstate pointer, mask. -/
def ucontextBytes (r : Regs) (fpstate oldMask : UInt64) : List UInt8 :=
  replicate ucMctx 0 ++ r.words.flatMap (leBytes 8) ++ replicate 40 0 ++
    leBytes 8 fpstate ++ replicate 64 0 ++ leBytes 8 oldMask ++ replicate 208 0

/-- The registers in a `ucontext` buffer. -/
def Regs.ofUcontext (b : List UInt8) : Regs :=
  let get := fun off => getWord b (ucMctx + off)
  { r8 := get 0, r9 := get 8, r10 := get 16, r11 := get 24, r12 := get 32, r13 := get 40
    r14 := get 48, r15 := get 56, rdi := get 64, rsi := get 72, rbp := get 80, rbx := get 88
    rdx := get 96, rax := get 104, rcx := get 112, rsp := get 120, rip := get 128
    rflags := get 136 }

def readMcontext (uc : Nat) : TM Regs := do
  let b ← copyFrom uc ucSize
  return Regs.ofUcontext b

def readSigmask (uc : Nat) : TM UInt64 := do
  let b ← copyFrom (uc + ucSigmask) 8
  return getWord b 0

/-- `FXRSTOR` faults when a reserved bit of the saved `MXCSR` is set. -/
def fxrstor (fx : List UInt8) : TM Unit := fun t =>
  if (fromLe ((fx.drop 24).take 4)) >>> 16 = 0 then .ok () { t with fpu := fx } else .error .panic t

/-- `restore_frame`: the saved registers and mask of the `ucontext` at `rsp`. -/
def restoreFrame (regs : Regs) : TM (Regs × UInt64) := do
  let uc := regs.rsp.toNat
  let saved ← readMcontext uc
  let mask ← readSigmask uc
  let fpptr ← copyFrom (uc + ucFpstate) 8
  let fpstate := getWord fpptr 0
  if fpstate ≠ 0 then
    let fx ← copyFrom fpstate.toNat fxsaveSize
    fxrstor fx
  return (saved, mask)

/-- `a - b` on `usize`, with the overflow check of the build. -/
def sub (a b : Nat) : TM Nat := if b ≤ a then pure (a - b) else throw .panic

/-- `sp + size` on `u64`, with the overflow check of the build. -/
def addU64 (a b : UInt64) : TM Nat :=
  if a.toNat + b.toNat < 2 ^ 64 then pure (a.toNat + b.toNat) else throw .panic

/-- The stack the handler runs on. -/
def handlerStack (regs : Regs) (act : SigAction) : TM Nat := do
  let t ← get
  let onAltstack ←
    if t.sasSize ≠ 0 ∧ regs.rsp ≥ t.sasSp then do
      let top ← addU64 t.sasSp t.sasSize
      pure (decide (regs.rsp.toNat < top))
    else pure false
  if act.flags &&& saOnstack ≠ 0 ∧ t.sasSize ≠ 0 ∧ onAltstack = false then addU64 t.sasSp t.sasSize
  else pure regs.rsp.toNat

/-- The frame below `sp`: siginfo, FPU state, ucontext, return address; and the
registers that enter the handler. -/
def pushFrame (sp : Nat) (regs : Regs) (sig : Nat) (act : SigAction) (oldMask : UInt64) : TM Regs := do
  let info ← sub sp siginfoSize
  let fpstate ← sub info fxsaveSize
  let uc ← sub fpstate ucSize
  let frame ← sub uc 8
  copyTo info (leBytes 4 (UInt64.ofNat sig) ++ replicate 124 0)
  let t ← get
  copyTo fpstate t.fpu
  copyTo uc (ucontextBytes regs (UInt64.ofNat fpstate) oldMask)
  copyTo frame (leBytes 8 act.restorer)
  let siginfo := act.flags &&& saSiginfo ≠ 0
  return { regs with
    rip := act.handler
    rsp := UInt64.ofNat frame
    rdi := UInt64.ofNat sig
    rsi := if siginfo then UInt64.ofNat info else 0
    rdx := if siginfo then UInt64.ofNat uc else 0
    rax := 0
    rflags := regs.rflags &&& ~~~0x400 }

/-- `setup_frame`, past the red zone of the chosen stack. -/
def setupFrame (regs : Regs) (sig : Nat) (act : SigAction) (oldMask : UInt64) : TM Regs := do
  let base ← handlerStack regs act
  if base < 128 then throw (.errno .efault)
  else pushFrame ((base - 128) / 16 * 16) regs sig act oldMask

/-- `Task::set_blocked`. -/
def setBlocked (mask : UInt64) : TM Unit :=
  modify fun t => { t with blocked := mask &&& ~~~(sigBit sigKill ||| sigBit sigStop) }

/-- `Task::clear_signal`. -/
def clearSignal (sig : Nat) : TM Unit :=
  modify fun t => { t with pending := t.pending &&& ~~~(sigBit sig) }

/-- The lowest signal of a nonempty mask. -/
def lowestSignal (mask : UInt64) : Nat :=
  ((range 64).find? fun i => mask &&& (1 <<< UInt64.ofNat i) != 0).getD 64 + 1

/-- Enter the handler of `sig`; a stack that cannot take the frame ends the process. -/
def enterHandler (regs : Regs) (sig : Nat) (act : SigAction) (blocked : UInt64) : TM Regs := fun t =>
  match setupFrame regs sig act blocked t with
  | .ok new t' =>
    let newmask := blocked ||| act.mask
    let newmask := if act.flags &&& saNodefer = 0 then newmask ||| sigBit sig else newmask
    let t' := stateOf (setBlocked newmask t')
    let t' :=
      if act.flags &&& saResethand ≠ 0 then
        { t' with sigactions := fun s => if s = sig then {} else t'.sigactions s }
      else t'
    .ok new t'
  | .error (.errno _) t' => .error (.exit sigSegv) t'
  | .error h t' => .error h t'

/-- What one turn of `deliver_user_signals` does with a signal that has been taken
off the pending set: `some` ends the loop. `stop` is what happens while the
thread is stopped. -/
def actOn (stop : Thread → Thread) (regs : Regs) (sig : Nat) (act : SigAction) (blocked : UInt64) :
    TM (Option Regs) :=
  if act.handler = sigIgn then pure none
  else if act.handler = sigDfl then
    if stopsByDefault sig then do
      modify stop
      pure none
    else if ignoredByDefault sig then pure none
    else if terminatesByDefault sig then throw (.exit sig)
    else pure none
  else if act.restorer = 0 then
    if terminatesByDefault sig then throw (.exit sig) else pure none
  else do
    let new ← enterHandler regs sig act blocked
    pure (some new)

/-- `deliver_user_signals` for a user process, with fuel for its loop. -/
def deliverUserSignals (stop : Thread → Thread) : Nat → Regs → TM (Option Regs)
  | 0, _ => pure none
  | fuel + 1, regs => do
    let t ← get
    let deliverable := t.pending &&& ~~~t.blocked
    if deliverable = 0 then pure (some regs)
    else if lowestSignal deliverable = sigKill then throw (.exit sigKill)
    else do
      clearSignal (lowestSignal deliverable)
      let entered ← actOn stop regs (lowestSignal deliverable)
        (t.sigactions (lowestSignal deliverable)) t.blocked
      match entered with
      | some new => pure (some new)
      | none => deliverUserSignals stop fuel regs

def userDs : UInt64 := 0x20 ||| 3
def userCs : UInt64 := 0x28 ||| 3

/-- What `iretq` and the moves before it load, and the privileged registers they
leave alone. -/
structure Cpu where
  regs : Regs
  cs : UInt64
  ss : UInt64
  cr3 : UInt64
  fsBase : UInt64
  deriving DecidableEq, Repr

/-- `sigreturn_resume`: every word of the image goes to its register, the selectors
are the user's. -/
def Cpu.resume (cpu : Cpu) (image : Regs) : Cpu :=
  { cpu with regs := image, cs := userCs, ss := userDs }

/-- `rt_sigreturn` with the registers of the system call's frame. A frame that
cannot be read ends the process. -/
def rtSigreturn (stop : Thread → Thread) (fuel : Nat) (frame : Regs) (cpu : Cpu) :
    TM (Option Cpu) := fun t =>
  match restoreFrame frame t with
  | .error (.errno _) t' => .error (.exit sigSegv) t'
  | .error h t' => .error h t'
  | .ok (regs, mask) t' =>
    match (do setBlocked mask; deliverUserSignals stop fuel regs : TM (Option Regs)) t' with
    | .ok (some image) t'' => .ok (some (cpu.resume image)) t''
    | .ok none t'' => .ok none t''
    | .error h t'' => .error h t''

end Fastros.Proc
