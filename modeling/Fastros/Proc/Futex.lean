import Fastros.Errno
import Fastros.Lib.Bytes
import Fastros.Mm.Separation

/-!
# Futexes

`futex` lets waiters and wakers meet in a bucket named by the physical address
of the word. The kernel runs on one CPU and is not preempted, so a call is cut
only where it can sleep: at the page faults of its accesses to user memory, and
in the wait queue. Between those cuts any other thread, any process and any
memory operation may run.
-/

namespace Fastros.Futex

open Mm Lib.Stateful Lib.Run
open Lib.Bytes (fromLeBytes)

variable {φ : Type} (A : FrameAllocator φ)

def physOf (s va : Nat) : KM φ (Option PhysAddr) := do
  let e ← leafEntry s va
  return if e.present then some (e.addr + va % pageSize) else none

/-- `phys_translate`: the physical address behind `va`, faulted in for a read. -/
def physTranslate (s va : Nat) : KM φ Nat := do
  let page := alignDown va
  faultIn A s page false
  match ← physOf s page with
  | none => throw (.errno .efault)
  | some base => return base + va % pageSize

/-- Every page of `[addr, addr + len)` is mapped readable. -/
def verify (s addr len : Nat) : KM φ Bool := do
  let regions := (← space s).regions
  let page := alignDown addr
  return userStart ≤ addr && addr + len ≤ userEnd &&
    (List.range (pagesIn page (addr + len))).all fun i =>
      (findRegion regions (page + i * pageSize)).any (·.prot.read)

/-- `AddressSpace::read`, a page at a time; each turn reads at least one byte, so
`len` turns are enough. -/
def readPages (s : Nat) : Nat → Nat → Nat → KM φ (List UInt8)
  | 0, _, _ => return []
  | turns + 1, va, len => do
    if len = 0 then return []
    else
      let page := alignDown va
      faultIn A s page false
      let n := min (pageSize - (va - page)) len
      let e ← leafEntry s va
      if e.present then
        let frame := (← get).mem e.addr
        let bytes := (List.range n).map fun i => frame (va - page + i)
        return bytes ++ (← readPages s turns (va + n) (len - n))
      else throw (.errno .efault)

/-- `uaccess::read_obj` for an object of `len` bytes. A kernel pointer handed in
by a user program fails like every address past `USER_END`. -/
def readObj (s addr len : Nat) : KM φ (List UInt8) := do
  if ← verify s addr len then readPages A s len addr len
  else throw (.errno .efault)

/-- `max(0)` of an `i64` given by its bits. -/
def clampI64 (n : Nat) : Nat := if n < 2 ^ 63 then n else 0

def saturate (n : Nat) : Nat := min n (2 ^ 64 - 1)

/-- `futex_deadline`: the absolute time a `struct timespec` stands for. -/
def futexDeadline (s ptr : Nat) (absolute : Bool) (now : Nat) : KM φ (Option Nat) := do
  if ptr = 0 then return none
  else
    let sec := fromLeBytes (← readObj A s ptr 8)
    let nsec := fromLeBytes (← readObj A s (ptr + 8) 8)
    let ns := saturate (saturate (clampI64 sec * 1000000000) + clampI64 nsec)
    return some (if absolute then ns else saturate (now + ns))

structure Bucket where
  generation : UInt64 := 0
  waiters : List Nat := []
  deriving DecidableEq

/-- What a `FUTEX_WAIT` in progress remembers: its arguments, the key of its
bucket and the generation it found there. -/
structure Wait where
  uaddr : Nat
  val : UInt32
  timeout : Nat
  absolute : Bool
  key : Nat
  generation : UInt64
  deriving DecidableEq

/-- Where a thread is in `futex`. `asleep` is a blocked task, `roused` one that
was made ready and has not run yet. -/
inductive Stage where
  | outside
  | loaded (w : Wait)
  | matched (w : Wait)
  | asleep (w : Wait) (deadline : Option Nat)
  | roused (w : Wait) (deadline : Option Nat)
  deriving DecidableEq

inductive Reply where
  | ok (n : Nat)
  | error (e : Fastros.Errno)
  deriving DecidableEq

structure Task where
  space : Nat
  stage : Stage := .outside
  returned : List Reply := []
  deriving DecidableEq

/-- `sched::wake`: a blocked task becomes ready, any other stays as it is. -/
def Task.wake (x : Task) : Task :=
  match x.stage with
  | .asleep w d => { x with stage := .roused w d }
  | _ => x

/-- The processes' memory, the threads and the table of buckets. -/
structure System (φ : Type) where
  procs : Procs φ
  tasks : Nat → Task
  buckets : Nat → Option Bucket

namespace System

variable (m : System φ)

def setTask (t : Nat) (x : Task) : System φ := { m with tasks := Function.update m.tasks t x }

def enter (t : Nat) (stage : Stage) : System φ := m.setTask t { m.tasks t with stage := stage }

/-- The call of thread `t` returns. -/
def reply (t : Nat) (r : Reply) : System φ :=
  m.setTask t { m.tasks t with stage := .outside, returned := (m.tasks t).returned ++ [r] }

/-- The entry `futex_bucket` finds or makes. -/
def bucket (key : Nat) : Bucket := (m.buckets key).getD {}

def setBucket (key : Nat) (b : Bucket) : System φ :=
  { m with buckets := Function.update m.buckets key (some b) }

def setKernel (k : Kernel φ) : System φ := { m with procs := { m.procs with kernel := k } }

/-- `wake_all` on a list taken from the queue. -/
def wakeList (ts : List Nat) : System φ :=
  { m with tasks := fun t => if t ∈ ts then (m.tasks t).wake else m.tasks t }

/-- The waking half of `futex`: only an existing bucket is bumped and emptied. -/
def wakeKey (key : Nat) : System φ :=
  match m.buckets key with
  | none => m
  | some b => (m.setBucket key { generation := b.generation + 1, waiters := [] }).wakeList b.waiters

/-- One turn of `WaitQueue::wait` with the condition of `futex`. -/
def waitTurn (t : Nat) (w : Wait) (deadline : Option Nat) (now : Nat) (signal : Bool) : System φ :=
  let b := m.bucket w.key
  if b.generation ≠ w.generation then m.reply t (.ok 0)
  else if signal then m.reply t (.error .eintr)
  else if deadline.any (· ≤ now) then m.reply t (.error .etimedout)
  else (m.setBucket w.key { b with waiters := b.waiters ++ [t] }).enter t (.asleep w deadline)

/-- A task that runs again takes itself off the queue. -/
def retain (t key : Nat) : System φ :=
  m.setBucket key { m.bucket key with waiters := (m.bucket key).waiters.filter (· ≠ t) }

end System

def replyError : Mm.Errno → Fastros.Errno
  | .einval => .einval
  | .eexist => .eexist
  | .enomem => .enomem
  | .efault => .efault
  | .eio => .eio
  | .ebadf => .ebadf

/-- An access to user memory within the call of thread `t`: an error code ends
the call, a panic the run. -/
def System.access {α : Type} (m : System φ) (t : Nat) (x : KM φ α)
    (next : α → System φ → System φ) : Option (System φ) :=
  match x m.procs.kernel with
  | .ok a k => some (next a (m.setKernel k))
  | .error (.errno e) k => some ((m.setKernel k).reply t (.error (replyError e)))
  | .error _ _ => none

def futexWait : UInt32 := 0
def futexWake : UInt32 := 1
def futexRequeue : UInt32 := 3
def futexCmpRequeue : UInt32 := 4
def futexWaitBitset : UInt32 := 9
def futexWakeBitset : UInt32 := 10
def futexPrivateFlag : UInt32 := 128
def futexClockRealtime : UInt32 := 256

/-- What an operation does: wait (until an absolute time or not), wake and
return the number asked for (or zero), or nothing. -/
inductive Command where
  | wait (absolute : Bool)
  | wake (counts : Bool)
  | none
  deriving DecidableEq

def command (op : UInt32) : Command :=
  let cmd := op &&& ~~~(futexPrivateFlag ||| futexClockRealtime)
  if cmd = futexWait then .wait false
  else if cmd = futexWaitBitset then .wait true
  else if cmd = futexWake ∨ cmd = futexWakeBitset then .wake true
  else if cmd = futexRequeue ∨ cmd = futexCmpRequeue then .wake false
  else .none

/-- `futex` up to its first cut. -/
def System.futex (m : System φ) (t uaddr : Nat) (op val : UInt32) (timeout : Nat) :
    Option (System φ) :=
  let s := (m.tasks t).space
  match command op with
  | .wait absolute => m.access t (physTranslate A s uaddr) fun key m =>
      let b := m.bucket key
      (m.setBucket key b).enter t (.loaded ⟨uaddr, val, timeout, absolute, key, b.generation⟩)
  | .wake counts => m.access t (physTranslate A s uaddr) fun key m =>
      (m.wakeKey key).reply t (.ok (if counts then val.toNat else 0))
  | .none => some (m.reply t (.ok 0))

/-- `futex_wake_addr`, for the `clear_child_tid` of an exiting thread. -/
def System.futexWakeAddr (m : System φ) (t uaddr : Nat) : Option (System φ) :=
  match physTranslate A (m.tasks t).space uaddr m.procs.kernel with
  | .ok key k => some ((m.setKernel k).wakeKey key)
  | .error (.errno _) k => some (m.setKernel k)
  | .error _ _ => none

/-- The next piece of a call in progress: read the word, then the timeout and
the first turn of the wait, then a turn after each wake-up. -/
def System.proceed (m : System φ) (t now later : Nat) (signal : Bool) : Option (System φ) :=
  let s := (m.tasks t).space
  match (m.tasks t).stage with
  | .loaded w => m.access t (readObj A s w.uaddr 4) fun bytes m =>
      if fromLeBytes bytes ≠ w.val.toNat then m.reply t (.error .eagain) else m.enter t (.matched w)
  | .matched w => m.access t (futexDeadline A s w.timeout w.absolute now) fun d m =>
      m.waitTurn t w d later signal
  | .roused w d => some ((m.retain t w.key).waitTurn t w d later signal)
  | .outside | .asleep .. => some m

inductive Event where
  /-- Thread `t` calls `futex`. -/
  | futex (t uaddr : Nat) (op val : UInt32) (timeout : Nat)
  /-- Thread `t` exits and wakes whoever joins it. -/
  | wakeAddr (t uaddr : Nat)
  /-- Thread `t` goes on in its call, at the given clock readings. -/
  | proceed (t now later : Nat) (signal : Bool)
  /-- A signal or an expired deadline makes a blocked thread ready. -/
  | rouse (t : Nat)
  /-- A thread starts in space `s`. -/
  | start (t s : Nat)
  | memory (a : Act)

/-- A thread in user mode whose process is running. -/
def System.free (m : System φ) (t : Nat) : Bool :=
  (m.tasks t).stage = .outside ∧ (m.tasks t).space ∈ m.procs.live

def step (e : Event) (m : System φ) : Option (System φ) :=
  match e with
  | .futex t uaddr op val timeout => if m.free t then m.futex A t uaddr op val timeout else some m
  | .wakeAddr t uaddr => if m.free t then m.futexWakeAddr A t uaddr else some m
  | .proceed t now later signal => m.proceed A t now later signal
  | .rouse t => some (m.setTask t (m.tasks t).wake)
  | .start t s =>
    some (if (m.tasks t).stage = .outside then m.setTask t { m.tasks t with space := s } else m)
  | .memory a => (m.procs.step A a).map fun p => { m with procs := p }

end Fastros.Futex
