import Fastros.Errno
import Fastros.Lib.Run
import Fastros.Seccomp.Bpf

/-!
# Stacked filters

A process keeps its filter programs in the order they were installed. `decide`
runs all of them and folds their return values with `moreSevere`; strict mode
answers from a fixed list of calls and does not look at the programs. The two
calls that change the filters are `installFilter` and `setStrict`.
-/

namespace Fastros.Seccomp

open Lib.Bytes (fetch fromLeBytes)

structure Filters where
  strict : Bool := false
  progs : List (List SockFilter) := []
  deriving DecidableEq

inductive Action where
  | allow
  | errno (e : UInt16)
  | trap
  | killThread
  | killProcess
  deriving DecidableEq, Repr

def retActionFull : UInt32 := 0xffff0000
def retData : UInt32 := 0x0000ffff

/-- The action class of a return value. -/
def actionClass (r : UInt32) : UInt32 := r &&& retActionFull

def moreSevere (a b : UInt32) : UInt32 :=
  if a = retKillProcess ∨ b = retKillProcess then retKillProcess
  else if actionClass a ≤ actionClass b then a
  else b

def classify (r : UInt32) : Action :=
  if actionClass r = retKillProcess then .killProcess
  else if actionClass r = retKillThread then .killThread
  else if actionClass r = retTrap then .trap
  else if actionClass r = retErrno then .errno (r &&& retData).toUInt16
  else .allow

/-- read, write, exit, rt_sigreturn, exit_group. -/
def strictCalls : List UInt64 := [0, 1, 15, 60, 231]

/-- One turn of the loop that tracks the winning value. -/
def track (c : Call) (best : Option UInt32) (prog : List SockFilter) : Option UInt32 :=
  let r := runProg prog c.data
  match best with
  | none => some r
  | some cur => some (moreSevere cur r)

def Filters.decide (f : Filters) (c : Call) : Action :=
  if f.strict then
    if c.nr ∈ strictCalls then .allow else .killProcess
  else
    match f.progs.foldl (track c) none with
    | none => .allow
    | some r => classify r

def capSysAdmin : Nat := 21
def capLast : Nat := 40

/-- What the seccomp calls read and write of a process. -/
structure Process where
  noNewPrivs : Bool := false
  caps : UInt64 := 0
  seccomp : Option Filters := none
  seccompActive : Bool := false

def Process.hasCap (p : Process) (cap : Nat) : Bool :=
  if cap > capLast then false else p.caps &&& (1 <<< UInt64.ofNat cap) != 0

/-- User memory: `none` where an access faults. -/
abbrev UserMem := Nat → Option UInt8

/-- `uaccess::read_obj` of an object of `n` bytes. -/
def readObj (mem : UserMem) (addr n : Nat) : Except Errno Nat :=
  match fetch mem addr n with
  | some bytes => .ok (fromLeBytes bytes)
  | none => .error .efault

def readIns (mem : UserMem) (base : Nat) : Except Errno SockFilter := do
  let code ← readObj mem base 2
  let jt ← readObj mem (base + 2) 1
  let jf ← readObj mem (base + 3) 1
  let k ← readObj mem (base + 4) 4
  return { code := UInt16.ofNat code, jt := UInt8.ofNat jt, jf := UInt8.ofNat jf, k := UInt32.ofNat k }

def readFprog (mem : UserMem) (progPtr : Nat) : Except Errno (List SockFilter) := do
  if progPtr = 0 then throw .efault
  let len ← readObj mem progPtr 2
  if len = 0 ∨ len > 4096 then throw .einval
  let filterPtr ← readObj mem (progPtr + 8) 8
  if filterPtr = 0 then throw .efault
  (List.range len).mapM fun i => readIns mem (filterPtr + i * 8)

def installFilter (mem : UserMem) (progPtr : Nat) (p : Process) : Except Errno Process := do
  if !p.noNewPrivs && !p.hasCap capSysAdmin then throw .eacces
  let prog ← readFprog mem progPtr
  let filters : Filters :=
    match p.seccomp with
    | some f => { strict := f.strict, progs := f.progs }
    | none => {}
  return { p with seccomp := some { filters with progs := filters.progs ++ [prog] }, seccompActive := true }

def setStrict (p : Process) : Process :=
  let progs := (p.seccomp.map Filters.progs).getD []
  { p with seccomp := some { strict := true, progs }, seccompActive := true }

/-- The filters in force; a process that installed none has the default ones. -/
def Process.filters (p : Process) : Filters := p.seccomp.getD {}

inductive Request where
  | installFilter (mem : UserMem) (progPtr : Nat)
  | setStrict

/-- A refused request leaves the process as it was. -/
def Process.step (q : Request) (p : Process) : Process :=
  match q with
  | .installFilter mem progPtr => (Seccomp.installFilter mem progPtr p).toOption.getD p
  | .setStrict => Seccomp.setStrict p

def Process.run (qs : List Request) (p : Process) : Process := Lib.Run.run Process.step qs p

variable {mem : UserMem} {progPtr : Nat} {p : Process}

/-- A successful install reads a program and puts it behind the others. -/
theorem installFilter_ok {p' : Process} (h : installFilter mem progPtr p = .ok p') :
    ∃ prog, readFprog mem progPtr = .ok prog ∧
      p' = { p with
        seccomp := some { p.filters with progs := p.filters.progs ++ [prog] }
        seccompActive := true } := by
  unfold installFilter at h
  by_cases hcap : (!p.noNewPrivs && !p.hasCap capSysAdmin) = true
  · rw [if_pos hcap] at h
    cases h
  rw [if_neg hcap] at h
  cases hr : readFprog mem progPtr with
  | error e =>
    rw [hr] at h
    cases h
  | ok prog =>
    rw [hr] at h
    cases h
    refine ⟨prog, rfl, ?_⟩
    cases hs : p.seccomp <;> simp [Process.filters, hs]

theorem step_refused {e : Errno}
    (h : installFilter mem progPtr p = .error e) : p.step (.installFilter mem progPtr) = p := by
  rw [Process.step, h]
  rfl

theorem step_installed {p' : Process}
    (h : installFilter mem progPtr p = .ok p') : p.step (.installFilter mem progPtr) = p' := by
  rw [Process.step, h]
  rfl

/-- What `dispatch` does with a call: run it, answer for it (raising SIGSYS for a
trap), or end the process. -/
inductive Entry where
  | handle
  | answer (rax : Int) (sigsys : Bool)
  | exit
  deriving DecidableEq

def seccompCheck (p : Process) (c : Call) : Entry :=
  if !p.seccompActive then .handle
  else
    match p.seccomp with
    | none => .handle
    | some f =>
      match f.decide c with
      | .allow => .handle
      | .errno e => .answer (-e.toNat) false
      | .trap => .answer (-38) true
      | .killThread => .exit
      | .killProcess => .exit

/-- What a forked child starts with (`Spawn::from_parent`, then `spawn`). -/
def Process.child (p : Process) : Process := { p with seccompActive := p.seccomp.isSome }

/-- The fast-path flag tells whether filters are installed. -/
def Process.Flagged (p : Process) : Prop := p.seccompActive = p.seccomp.isSome

theorem step_flagged (q : Request) (h : p.Flagged) : (p.step q).Flagged := by
  cases q with
  | installFilter mem progPtr =>
    cases hi : Seccomp.installFilter mem progPtr p with
    | error e => rwa [step_refused hi]
    | ok p' =>
      obtain ⟨prog, -, rfl⟩ := installFilter_ok hi
      rw [step_installed hi]
      rfl
  | setStrict => rfl

/-- A call runs exactly when the filters in force allow it. -/
theorem seccompCheck_handle_iff (h : p.Flagged) (c : Call) :
    seccompCheck p c = .handle ↔ p.filters.decide c = .allow := by
  cases hs : p.seccomp with
  | none =>
    have hoff : p.seccompActive = false := by rw [h, hs]; rfl
    simp [seccompCheck, hoff, Process.filters, hs, Filters.decide]
  | some f =>
    have hon : p.seccompActive = true := by rw [h, hs]; rfl
    cases hd : f.decide c <;> simp [seccompCheck, hon, Process.filters, hs, hd]

/-- A request, or a fork after which we follow the child. -/
inductive Move where
  | request (q : Request)
  | fork

def Process.move : Move → Process → Process
  | .request q, p => p.step q
  | .fork, p => p.child

/-- **Over all generations of a process that starts without filters, a call runs
exactly when the filters in force allow it.** -/
theorem run_handle_iff (noNewPrivs : Bool) (caps : UInt64) (ms : List Move) (c : Call) :
    let p := Lib.Run.run Process.move ms { noNewPrivs, caps }
    seccompCheck p c = .handle ↔ p.filters.decide c = .allow := by
  have hrun : ∀ p : Process, p.Flagged → (Lib.Run.run Process.move ms p).Flagged := by
    induction ms with
    | nil => exact fun _ h => h
    | cons m ms ih =>
      intro p h
      cases m with
      | request q => exact ih _ (step_flagged q h)
      | fork => exact ih _ rfl
  exact seccompCheck_handle_iff (hrun { noNewPrivs, caps } rfl) c

/-- Filters that come from `f` by installing more programs or going strict. -/
structure Extends (f f' : Filters) : Prop where
  strict : f.strict = true → f'.strict = true
  progs : ∃ added, f'.progs = f.progs ++ added

theorem Extends.refl (f : Filters) : Extends f f := ⟨id, [], (List.append_nil _).symm⟩

theorem Extends.trans {f g h : Filters} (h1 : Extends f g) (h2 : Extends g h) : Extends f h := by
  obtain ⟨a, ha⟩ := h1.progs
  obtain ⟨b, hb⟩ := h2.progs
  exact ⟨fun hs => h2.strict (h1.strict hs), a ++ b, by rw [hb, ha, List.append_assoc]⟩

theorem step_extends (q : Request) (p : Process) : Extends p.filters (p.step q).filters := by
  cases q with
  | installFilter mem progPtr =>
    cases h : Seccomp.installFilter mem progPtr p with
    | error e =>
      rw [step_refused h]
      exact .refl _
    | ok p' =>
      obtain ⟨prog, -, rfl⟩ := installFilter_ok h
      rw [step_installed h]
      exact ⟨id, [prog], rfl⟩
  | setStrict =>
    refine ⟨fun _ => rfl, [], ?_⟩
    cases hs : p.seccomp <;> simp [Process.step, Seccomp.setStrict, Process.filters, hs]

theorem run_extends (qs : List Request) (p : Process) : Extends p.filters (p.run qs).filters := by
  induction qs generalizing p with
  | nil => exact .refl _
  | cons q qs ih => exact (step_extends q p).trans (ih (p.step q))

end Fastros.Seccomp
