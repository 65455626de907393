import Fastros.Errno
import Fastros.Proc.Signal

/-!
# Who receives a signal

`kill`, `tkill` and `tgkill` over an arbitrary process table, task table and set
of PID namespaces. The recipients of a call are the tasks on which it ends in
`send_signal`. Positive pids are translated by the caller's namespace, with the
untranslated number as fallback; groups and thread ids are looked up globally.
-/

namespace Fastros.Proc

open List

structure Cred where
  uid : Nat := 0
  euid : Nat := 0
  deriving DecidableEq, Repr

def Cred.isRoot (c : Cred) : Bool := c.euid == 0

/-- What signalling reads of a task. -/
structure Task where
  tid : Nat
  owner : Nat
  blocked : UInt64 := 0
  deriving DecidableEq, Repr

/-- What signalling reads of a process; `pidns` names its PID namespace. -/
structure Process where
  pid : Nat
  pgid : Nat
  cred : Cred := {}
  zombie : Bool := false
  tasks : List Task := []
  sigactions : Nat → SigAction := fun _ => {}
  ignored : UInt64 := 0
  pidns : Option Nat := none

/-- A PID namespace's two maps. -/
structure PidNs where
  toLocal : Nat → Option Nat := fun _ => none
  toGlobal : Nat → Option Nat := fun _ => none

/-- The kernel pseudo-process, the process and task tables, the namespaces. -/
structure World where
  kernel : Process
  procs : List Process
  tasks : List Task
  namespaces : Nat → PidNs := fun _ => {}

def World.find (w : World) (pid : Nat) : Option Process :=
  if pid = 0 then some w.kernel else w.procs.find? fun p => p.pid == pid

def World.findTask (w : World) (tid : Nat) : Option Task := w.tasks.find? fun t => t.tid == tid

/-- `to_global_pid` for the caller `me`. -/
def World.toGlobalPid (w : World) (me : Process) (vpid : Nat) : Nat :=
  match me.pidns with
  | some n => ((w.namespaces n).toGlobal vpid).getD vpid
  | none => vpid

def Process.sigIgnored (p : Process) (sig : Nat) : Bool :=
  if sig == sigKill || sig == sigStop || sig == sigCont then false
  else
    let act := p.sigactions sig
    let dispIgnored := act.handler == sigIgn || (act.handler == sigDfl && ignoredByDefault sig)
    let masked := p.ignored &&& sigBit sig != 0
    dispIgnored || masked

/-- `deliver_to_task` reaches `send_signal`. -/
def Process.delivers (p : Process) (t : Task) (sig : Nat) : Bool :=
  let blocked := t.blocked &&& sigBit sig != 0
  !(p.sigIgnored sig && !blocked)

/-- `Process::signal`: the tasks that get it. -/
def Process.signal (p : Process) (sig : Nat) : List (Process × Task) :=
  if 1 ≤ sig ∧ sig ≤ 64 then (p.tasks.filter fun t => p.delivers t sig).map fun t => (p, t) else []

/-- `Process::signal_task`. -/
def Process.signalTask (p : Process) (t : Task) (sig : Nat) : List (Process × Task) :=
  if 1 ≤ sig ∧ sig ≤ 64 ∧ p.delivers t sig then [(p, t)] else []

/-- Root, or a uid that matches the target's. -/
def maySignal (cred tc : Cred) : Bool := !(!cred.isRoot && cred.euid != tc.uid && cred.uid != tc.uid)

/-- How a call ends. `-pid` panics on the least `i64`. -/
inductive Exit where
  | ok
  | err (e : Errno)
  | panic
  deriving DecidableEq, Repr

def u32 (n : Int) : Nat := (n % 2 ^ 32).toNat

/-- The body of `proc::kill` once the targets are known. -/
def killTargets (sender : Process) (targets : List Process) (sig : Nat) :
    Exit × List (Process × Task) :=
  let allowed := targets.filter fun t => t.pid != 0 && maySignal sender.cred t.cred
  if allowed.isEmpty then (.err .eperm, [])
  else (.ok, if sig ≠ 0 then allowed.flatMap fun t => t.signal sig else [])

/-- `proc::kill`. -/
def World.kill (w : World) (sender : Process) (pid : Int) (sig : Nat) :
    Exit × List (Process × Task) :=
  if sig > nsig then (.err .einval, [])
  else if pid > 0 then
    match (w.find (u32 pid)).filter fun p => !p.zombie || sig == 0 with
    | none => (.err .esrch, [])
    | some p => killTargets sender [p] sig
  else if pid = -2 ^ 63 then (.panic, [])
  else
    let g := if pid = 0 then sender.pgid else u32 (-pid)
    let v := w.procs.filter fun p => p.pgid == g && !p.zombie
    if v.isEmpty then (.err .esrch, []) else killTargets sender v sig

/-- The pid that `kill` acts on: a positive one is taken for a vpid. -/
def World.globalTarget (w : World) (me : Process) (pid : Int) : Int :=
  if pid > 0 then (w.toGlobalPid me (u32 pid) : Int) else pid

/-- The `kill` system call of process `me`. -/
def World.sysKill (w : World) (me : Process) (pid : Int) (sig : Nat) : Exit × List (Process × Task) :=
  w.kill me (w.globalTarget me pid) sig

def World.tkill (w : World) (me : Process) (tid : Int) (sig : Nat) : Exit × List (Process × Task) :=
  if tid ≤ 0 ∨ sig > 64 then (.err .einval, [])
  else
    match w.findTask (u32 tid) with
    | none => (.err .esrch, [])
    | some task =>
      match w.find task.owner with
      | none => (.err .esrch, [])
      | some owner =>
        if sig = 0 then (.ok, [])
        else if maySignal me.cred owner.cred then (.ok, owner.signalTask task sig)
        else (.err .eperm, [])

/-- The thread-group argument is not looked at. -/
def World.tgkill (w : World) (me : Process) (_tgid tid : Int) (sig : Nat) :
    Exit × List (Process × Task) :=
  w.tkill me tid sig

inductive SignalCall where
  | kill (pid : Int) (sig : Nat)
  | tkill (tid : Int) (sig : Nat)
  | tgkill (tgid tid : Int) (sig : Nat)

/-- The processes and tasks that receive a signal from a call by `me`. -/
def World.recipients (w : World) (me : Process) : SignalCall → List (Process × Task)
  | .kill pid sig => (w.sysKill me pid sig).2
  | .tkill tid sig => (w.tkill me tid sig).2
  | .tgkill tgid tid sig => (w.tgkill me tgid tid sig).2

/-- The live processes a translated pid names: one process, or the members of a
group. -/
def World.Names (w : World) (me : Process) (pid : Int) (p : Process) : Prop :=
  p.zombie = false ∧
    if pid > 0 then w.find (u32 pid) = some p
    else pid ≠ -2 ^ 63 ∧ p ∈ w.procs ∧ p.pgid = if pid = 0 then me.pgid else u32 (-pid)

/-- The signal is a real one, the caller may send it, and the task takes it. -/
def Accepts (me p : Process) (t : Task) (sig : Nat) : Prop :=
  1 ≤ sig ∧ sig ≤ 64 ∧ maySignal me.cred p.cred = true ∧ p.delivers t sig = true

variable {p me : Process} {t : Task} {sig : Nat} {w : World}

theorem mem_signal {q : Process} : (q, t) ∈ p.signal sig ↔
      q = p ∧ t ∈ p.tasks ∧ 1 ≤ sig ∧ sig ≤ 64 ∧ p.delivers t sig = true := by
  unfold Process.signal
  by_cases h : 1 ≤ sig ∧ sig ≤ 64
  · rw [if_pos h]
    simp only [mem_map, mem_filter, Prod.mk.injEq]
    constructor
    · rintro ⟨t', ⟨hm, hd⟩, rfl, rfl⟩
      exact ⟨rfl, hm, h.1, h.2, hd⟩
    · rintro ⟨rfl, hm, -, -, hd⟩
      exact ⟨t, ⟨hm, hd⟩, rfl, rfl⟩
  · rw [if_neg h]
    simp only [not_mem_nil, false_iff]
    rintro ⟨-, -, h1, h2, -⟩
    exact h ⟨h1, h2⟩

theorem mem_killTargets {sender q : Process} {targets : List Process} :
    (q, t) ∈ (killTargets sender targets sig).2 ↔
      q ∈ targets ∧ q.pid ≠ 0 ∧ t ∈ q.tasks ∧ Accepts sender q t sig := by
  have hiff : (q, t) ∈ (killTargets sender targets sig).2 ↔
      ∃ p ∈ targets.filter (fun t => t.pid != 0 && maySignal sender.cred t.cred),
        sig ≠ 0 ∧ (q, t) ∈ p.signal sig := by
    unfold killTargets
    by_cases he : (targets.filter fun t => t.pid != 0 && maySignal sender.cred t.cred) = []
    · simp [he]
    by_cases h0 : sig = 0
    · simp [he, h0]
    · simp [h0]
      grind
  rw [hiff]
  simp only [mem_filter, mem_signal, Accepts, Bool.and_eq_true, bne_iff_ne]
  constructor
  · rintro ⟨p, ⟨hp, h0, hm⟩, -, rfl, ht, h1, h2, hd⟩
    exact ⟨hp, h0, ht, h1, h2, hm, hd⟩
  · rintro ⟨hp, h0, ht, h1, h2, hm, hd⟩
    exact ⟨q, ⟨hp, h0, hm⟩, by omega, rfl, ht, h1, h2, hd⟩

theorem mem_kill {pid : Int} : (p, t) ∈ (w.kill me pid sig).2 ↔
      w.Names me pid p ∧ p.pid ≠ 0 ∧ t ∈ p.tasks ∧ Accepts me p t sig := by
  unfold World.kill World.Names
  by_cases hsig : sig > nsig
  · have hno : ¬ Accepts me p t sig := fun h => absurd h.2.1 (Nat.not_le.mpr hsig)
    simp [hsig, hno]
  rw [if_neg hsig]
  by_cases hpos : pid > 0
  · rw [if_pos hpos, if_pos hpos]
    cases hf : w.find (u32 pid) with
    | none => simp
    | some q =>
      by_cases hz : (!q.zombie || sig == 0) = true
      · simp only [Option.filter_some, hz, if_true, mem_killTargets, List.mem_singleton]
        constructor
        · rintro ⟨rfl, h0, ht, hacc⟩
          have := hacc.1
          refine ⟨⟨?_, rfl⟩, h0, ht, hacc⟩
          rcases Bool.or_eq_true _ _ ▸ hz with hz | hz
          · simpa using hz
          · have h0 : sig = 0 := by simpa using hz
            omega
        · rintro ⟨⟨-, he⟩, h0, ht, hacc⟩
          exact ⟨(Option.some.inj he).symm, h0, ht, hacc⟩
      · simp only [Option.filter_some, hz, Bool.false_eq_true, if_false, List.not_mem_nil, false_iff]
        rintro ⟨⟨hzom, he⟩, -⟩
        rw [Option.some.inj he, hzom] at hz
        exact hz rfl
  · rw [if_neg hpos, if_neg hpos]
    by_cases hmin : pid = -2 ^ 63
    · simp [hmin]
    rw [if_neg hmin]
    have hmem : (p, t) ∈ (killTargets me (w.procs.filter fun p =>
          p.pgid == (if pid = 0 then me.pgid else u32 (-pid)) && !p.zombie) sig).2 ↔
        (p.zombie = false ∧ pid ≠ -2 ^ 63 ∧ p ∈ w.procs ∧
          p.pgid = if pid = 0 then me.pgid else u32 (-pid)) ∧
        p.pid ≠ 0 ∧ t ∈ p.tasks ∧ Accepts me p t sig := by
      rw [mem_killTargets, List.mem_filter]
      simp
      tauto
    by_cases he : (w.procs.filter fun p =>
        p.pgid == (if pid = 0 then me.pgid else u32 (-pid)) && !p.zombie).isEmpty = true
    · rw [← hmem]
      rw [List.isEmpty_iff] at he
      simp [he, killTargets]
    · simp only [he, Bool.false_eq_true, if_false]
      exact hmem

theorem mem_tkill {tid : Int} : (p, t) ∈ (w.tkill me tid sig).2 ↔
      0 < tid ∧ w.findTask (u32 tid) = some t ∧ w.find t.owner = some p ∧ Accepts me p t sig := by
  unfold World.tkill
  by_cases hbad : tid ≤ 0 ∨ sig > 64
  · rw [if_pos hbad]
    simp only [not_mem_nil, false_iff]
    rintro ⟨hpos, -, -, hacc⟩
    have := hacc.2.1
    omega
  rw [if_neg hbad]
  cases hft : w.findTask (u32 tid) with
  | none => simp
  | some task =>
    cases hfo : w.find task.owner with
    | none =>
      simp only [hfo, not_mem_nil, false_iff]
      rintro ⟨-, he, ho, -⟩
      rw [← Option.some.inj he, hfo] at ho
      cases ho
    | some owner =>
      simp only [hfo]
      by_cases h0 : sig = 0
      · simp [h0, Accepts]
      by_cases hm : maySignal me.cred owner.cred = true
      · simp only [h0, hm, if_true, if_false, Process.signalTask]
        grind [Accepts]
      · simp only [h0, hm, if_false, Bool.false_eq_true, not_mem_nil, false_iff]
        grind [Accepts]

/-- A namespace as `add` and `remove` leave it: vpids count from one, and the map only
leads to pids of members. -/
def World.Leads (w : World) (n : Nat) : Prop :=
  ∀ l g, (w.namespaces n).toGlobal l = some g →
    0 < l ∧ 0 < g ∧ g < 2 ^ 32 ∧ ∀ p, w.find g = some p → p.pidns = some n

/-- The number of the call is an id of `p` (for a thread id, of its task `t`) in the tables
of the kernel: a pid, unless namespace `n` has that vpid, a process group or a thread. -/
def World.HasNumber (w : World) (me : Process) (n : Nat) (p : Process) (t : Task) :
    SignalCall → Prop
  | .kill pid _ => p.zombie = false ∧ p.pid ≠ 0 ∧ t ∈ p.tasks ∧
    if 0 < pid ∧ u32 pid ≠ 0 then
      (w.namespaces n).toGlobal (u32 pid) = none ∧ w.find (u32 pid) = some p
    else pid ≠ -2 ^ 63 ∧ p ∈ w.procs ∧ p.pgid = if 0 ≤ pid then me.pgid else u32 (-pid)
  | .tkill tid _ | .tgkill _ tid _ =>
    0 < tid ∧ w.findTask (u32 tid) = some t ∧ w.find t.owner = some p

def SignalCall.signal : SignalCall → Nat
  | .kill _ sig | .tkill _ sig | .tgkill _ _ sig => sig

theorem u32_natCast {n : Nat} (h : n < 2 ^ 32) : u32 (n : Int) = n := by
  unfold u32
  omega

theorem u32_lt (i : Int) : u32 i < 2 ^ 32 := by
  unfold u32
  omega

/-- Outside its namespace a `kill` reaches the processes that have its number. -/
theorem mem_sysKill_outside {n : Nat} {pid : Int} (hw : w.Leads n) (hme : me.pidns = some n)
    (hout : p.pidns ≠ some n) : (p, t) ∈ (w.sysKill me pid sig).2 ↔
      w.HasNumber me n p t (.kill pid sig) ∧ Accepts me p t sig := by
  rw [World.sysKill, mem_kill, World.Names, World.HasNumber]
  by_cases hpos : 0 < pid
  swap
  · have htarget : w.globalTarget me pid = pid := if_neg hpos
    have hzero : (if 0 ≤ pid then me.pgid else u32 (-pid)) = if pid = 0 then me.pgid else u32 (-pid) := by
      by_cases h0 : pid = 0
      · simp [h0]
      · rw [if_neg (by omega), if_neg h0]
    have hnum : ¬ (0 < pid ∧ u32 pid ≠ 0) := fun h => hpos h.1
    simp only [htarget, if_neg hnum, if_neg (show ¬ pid > 0 from hpos), hzero]
    tauto
  have htarget : w.globalTarget me pid = (((w.namespaces n).toGlobal (u32 pid)).getD (u32 pid) : Nat) := by
    simp [World.globalTarget, hpos, World.toGlobalPid, hme]
  have hmin : pid ≠ -2 ^ 63 := by omega
  rw [htarget]
  cases hv : (w.namespaces n).toGlobal (u32 pid) with
  | some g =>
    obtain ⟨hl, hg, hlt, hin⟩ := hw _ g hv
    rw [Option.getD_some, if_pos (by omega), u32_natCast hlt, if_pos ⟨hpos, by omega⟩]
    constructor
    · rintro ⟨⟨-, hfind⟩, -⟩
      exact absurd (hin p hfind) hout
    · rintro ⟨⟨-, -, -, hnone, -⟩, -⟩
      cases hnone
  | none =>
    rw [Option.getD_none]
    by_cases h0 : u32 pid = 0
    · simp only [h0, hpos.le, hmin, gt_iff_lt, Nat.cast_zero, lt_irrefl, ne_eq, not_true_eq_false,
        not_false_eq_true, and_false, if_true, if_false, true_and]
      tauto
    · rw [if_pos (by omega), u32_natCast (u32_lt pid), if_pos ⟨hpos, h0⟩]
      tauto

/-- A host process 5 and a container whose init is process 10, vpid 1. -/
def hostAndContainer : World where
  kernel := { pid := 0, pgid := 0 }
  procs := [{ pid := 5, pgid := 5, tasks := [⟨5, 5, 0⟩] },
    { pid := 10, pgid := 10, tasks := [⟨10, 10, 0⟩], pidns := some 0 }]
  tasks := [⟨5, 5, 0⟩, ⟨10, 10, 0⟩]
  namespaces _ := {
    toLocal := fun g => if g = 10 then some 1 else none
    toGlobal := fun l => if l = 1 then some 10 else none }

def containerInit : Process := { pid := 10, pgid := 10, tasks := [⟨10, 10, 0⟩], pidns := some 0 }

end Fastros.Proc
