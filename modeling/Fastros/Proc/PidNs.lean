import Fastros.Proc.Kill

/-!
# One number for a child

The kernel numbers processes with a task counter, and a PID namespace numbers
its processes again. A parent inside a namespace knows its child by the value
`fork` or `clone` returned, which is the kernel's number, and so is the one
`wait4` returns, while `getpid` in the child is the namespace's. The calls that
take a pid translate it or not, each in its own way.

Process objects are shared, so the table and the child lists name them by their
place in `objs`; object 0 is the kernel pseudo-process.
-/

namespace Fastros.Proc

open List

/-- A process object: what signalling reads of it, and its place among the others. -/
structure ProcObj extends Process where
  ppid : Nat := 0
  vpid : Nat := 0
  children : List Nat := []

/-- A PID namespace with its counter, which wraps like the atomic it is. -/
structure NumberedNs extends PidNs where
  next : UInt32 := 1

/-- `PidNs::add`; the local id given is the counter. -/
def NumberedNs.add (ns : NumberedNs) (pid : Nat) : NumberedNs where
  next := ns.next + 1
  toLocal g := if g = pid then some ns.next.toNat else ns.toLocal g
  toGlobal l := if l = ns.next.toNat then some pid else ns.toGlobal l

structure Procs where
  objs : Nat → ProcObj
  /-- How many objects there are. -/
  made : Nat
  /-- `PROCS`, keyed by the pid of each object. -/
  table : List Nat
  nextTid : UInt32
  nss : Nat → NumberedNs := fun _ => {}

namespace Procs

def find (s : Procs) (pid : Nat) : Option Nat :=
  if pid = 0 then some 0 else s.table.find? fun o => (s.objs o).pid == pid

def setObj (s : Procs) (o : Nat) (p : ProcObj) : Procs :=
  { s with objs := fun i => if i = o then p else s.objs i }

/-- What the signalling calls see. -/
def world (s : Procs) : World where
  kernel := (s.objs 0).toProcess
  procs := s.table.map fun o => (s.objs o).toProcess
  tasks := (s.objs 0).tasks ++ s.table.flatMap fun o => (s.objs o).tasks
  namespaces n := (s.nss n).toPidNs

/-- The number of the next task. -/
def tid (s : Procs) : Nat := s.nextTid.toNat

/-- The child of `p` as `Spawn::from_parent` and `spawn` fill it in. -/
def child (s : Procs) (p : Nat) : ProcObj where
  pid := s.tid
  pgid := (s.objs p).pgid
  cred := (s.objs p).cred
  tasks := [⟨s.tid, s.tid, 0⟩]
  sigactions := (s.objs p).sigactions
  ignored := (s.objs p).ignored
  pidns := (s.objs p).pidns
  ppid := (s.objs p).pid
  vpid := match (s.objs p).pidns with
    | some n => (s.nss n).next.toNat
    | none => s.tid

/-- `spawn` once the task exists: the child becomes object `made`. -/
def spawn (s : Procs) (p : Nat) : Procs where
  objs i :=
    if i = s.made then s.child p
    else if i = p then { s.objs i with children := (s.objs i).children ++ [s.made] }
    else s.objs i
  made := s.made + 1
  table := (s.table.filter fun o => (s.objs o).pid != s.tid) ++ [s.made]
  nextTid := s.nextTid + 1
  nss i := if (s.objs p).pidns = some i then (s.nss i).add s.tid else s.nss i

/-- `fork`. The address space, the container's limit and the kernel stack may
refuse before a task exists. -/
def fork (s : Procs) (p : Nat) (refused : Option Errno) : Except Errno Nat × Procs :=
  match refused with
  | some e => (.error e, s)
  | none => (.ok (s.child p).pid, s.spawn p)

def cloneVm : UInt64 := 0x100
def cloneVfork : UInt64 := 0x4000

/-- The flags ask for a thread of the caller, not for a process. -/
def makesThread (flags : UInt64) : Bool := flags &&& cloneVm != 0 && flags &&& cloneVfork == 0

/-- `start_thread`: one more task of the process. -/
def startThread (s : Procs) (p : Nat) : Except Errno Nat × Procs :=
  let q := s.objs p
  (.ok s.tid, { s.setObj p { q with tasks := q.tasks ++ [⟨s.tid, q.pid, 0⟩] } with
    nextTid := s.nextTid + 1 })

def clone (s : Procs) (p : Nat) (flags : UInt64) (refused : Option Errno) :
    Except Errno Nat × Procs :=
  match refused with
  | some e => (.error e, s)
  | none => if makesThread flags then s.startThread p else (.ok (s.child p).pid, s.spawn p)

/-- `fork`, or `clone` with flags that make a process. -/
inductive Maker where
  | fork
  | clone (flags : UInt64) (h : makesThread flags = false)

def Maker.call : Maker → Procs → Nat → Option Errno → Except Errno Nat × Procs
  | .fork, s, p, refused => s.fork p refused
  | .clone flags _, s, p, refused => s.clone p flags refused

inductive WaitFor where
  | any
  | pid (p : Nat)
  | group (g : Nat)
  deriving DecidableEq, Repr

def waitMatches (s : Procs) (which : WaitFor) (c : Nat) : Bool :=
  match which with
  | .any => true
  | .pid p => (s.objs c).pid == p
  | .group g => (s.objs c).pgid == g

/-- One poll of `wait`: the child taken off the list and out of the table. -/
def reap (s : Procs) (p : Nat) (which : WaitFor) : Except Errno (Option Nat) × Procs :=
  let kids := (s.objs p).children
  let ready := fun c => s.waitMatches which c && (s.objs c).zombie
  if kids.any (s.waitMatches which) then
    match kids.find? ready with
    | some c =>
      (.ok (some c), { s.setObj p { s.objs p with children := kids.eraseP ready } with
        table := s.table.filter fun o => (s.objs o).pid != (s.objs c).pid })
    | none => (.ok none, s)
  else (.error .echild, s)

/-- How a poll ends; `blocks` waits for the next one, and `-pid` panics on the
least `i64`. -/
inductive WaitExit where
  | ret (v : Nat)
  | err (e : Errno)
  | blocks
  | panic
  deriving DecidableEq, Repr

def waitFor (s : Procs) (p : Nat) (pid : Int) : Option WaitFor :=
  if pid > 0 then some (.pid (u32 pid))
  else if pid = -1 then some .any
  else if pid = 0 then some (.group (s.objs p).pgid)
  else if pid = -2 ^ 63 then none
  else some (.group (u32 (-pid)))

/-- `wait4`; `statusOk` says whether the status can be written to the caller. -/
def wait4 (s : Procs) (p : Nat) (pid : Int) (nohang statusOk : Bool) : WaitExit × Procs :=
  match s.waitFor p pid with
  | none => (.panic, s)
  | some which =>
    match s.reap p which with
    | (.error e, s') => (.err e, s')
    | (.ok none, s') => (if nohang then .ret 0 else .blocks, s')
    | (.ok (some c), s') => (if statusOk then .ret (s.objs c).pid else .err .efault, s')

def getpid (s : Procs) (o : Nat) : Nat := (s.objs o).vpid

/-- The process that `getpgid` reads. -/
def getpgidTarget (s : Procs) (me : Nat) (pid : Int) : Option Nat :=
  if pid = 0 then some me else s.find (u32 pid)

def getpgid (s : Procs) (me : Nat) (pid : Int) : Except Errno Nat :=
  match s.getpgidTarget me pid with
  | some o => .ok (s.objs o).pgid
  | none => .error .esrch

/-- The process that `setpgid` looks up. -/
def setpgidTarget (s : Procs) (me : Nat) (pid : Int) : Option Nat :=
  if pid = 0 ∨ u32 pid = (s.objs me).pid then some me else s.find (u32 pid)

def setpgid (s : Procs) (me : Nat) (pid pgid : Int) : Except Errno Nat × Procs :=
  if pid < 0 ∨ pgid < 0 then (.error .einval, s)
  else
    match s.setpgidTarget me pid with
    | none => (.error .esrch, s)
    | some o =>
      if (s.objs o).pid ≠ (s.objs me).pid ∧ (s.objs o).ppid ≠ (s.objs me).pid then
        (.error .esrch, s)
      else
        (.ok 0, s.setObj o { s.objs o with
          pgid := if pgid = 0 then (s.objs o).pid else u32 pgid })

/-- In `s` the value `r` is the number of child `c` of `p` for every process of
namespace `n`; `waited` is about any later table, in which the child still has the
pid it was made with. -/
structure Consistent (s : Procs) (n p c r : Nat) : Prop where
  getpid : s.getpid c = r
  waited : ∀ t : Procs, (t.objs c).pid = (s.objs c).pid → ∀ pid nohang v,
    (t.wait4 p pid nohang true).1 = .ret v → c ∈ (t.objs p).children →
    c ∉ ((t.wait4 p pid nohang true).2.objs p).children → v = r
  wait4 : ∃ which, s.waitFor p r = some which ∧
    ∀ o, (o ∈ (s.objs p).children ∧ s.waitMatches which o = true) ↔ o = c
  kill : ∀ q, (s.objs q).pidns = some n → ∀ x,
    s.world.Names (s.objs q).toProcess (s.world.globalTarget (s.objs q).toProcess r) x ↔
      x = (s.objs c).toProcess ∧ x.zombie = false
  getpgid : ∀ q, (s.objs q).pidns = some n → s.getpgidTarget q r = some c
  setpgid : ∀ q, (s.objs q).pidns = some n → s.setpgidTarget q r = some c

/-- The two counters agree on a number that no process of the namespace and no
other child of `p` has. -/
structure CountersAgree (s : Procs) (n p : Nat) : Prop where
  eq : s.tid = (s.nss n).next.toNat
  pos : s.tid ≠ 0
  child : ∀ o ∈ (s.objs p).children, o ≠ s.made → (s.objs o).pid ≠ s.tid
  member : ∀ q, q ≠ s.made → (s.objs q).pidns = some n → (s.objs q).pid ≠ s.tid

variable {s : Procs} {n p c : Nat}

theorem Maker.call_ok {m : Maker} {r : Nat} {s' : Procs} {refused : Option Errno}
    (h : m.call s p refused = (.ok r, s')) : r = s.tid ∧ s' = s.spawn p := by
  cases refused with
  | some e => cases m <;> cases h
  | none =>
    cases m with
    | fork =>
      cases h
      exact ⟨rfl, rfl⟩
    | clone flags hf =>
      simp only [Maker.call, Procs.clone, hf, Bool.false_eq_true, if_false] at h
      cases h
      exact ⟨rfl, rfl⟩

theorem spawn_child : (s.spawn p).objs s.made = s.child p := by simp [spawn]

theorem spawn_pid {o : Nat} (h : o ≠ s.made) : ((s.spawn p).objs o).pid = (s.objs o).pid := by
  by_cases hp : o = p
  · simp [spawn, hp, hp ▸ h]
  · simp [spawn, h, hp]

theorem spawn_pidns {o : Nat} (h : o ≠ s.made) : ((s.spawn p).objs o).pidns = (s.objs o).pidns := by
  by_cases hp : o = p
  · simp [spawn, hp, hp ▸ h]
  · simp [spawn, h, hp]

theorem spawn_children (h : p ≠ s.made) :
    ((s.spawn p).objs p).children = (s.objs p).children ++ [s.made] := by
  simp [spawn, h]

theorem u32_tid (s : Procs) : u32 (s.tid : Int) = s.tid := by
  have := s.nextTid.toNat_lt
  unfold u32 tid
  omega

/-- The table leads from the new number to the child alone. -/
theorem spawn_find (hpos : s.tid ≠ 0) : (s.spawn p).find s.tid = some s.made := by
  have hmem : s.made ∈ (s.spawn p).table := by simp [spawn]
  have hsome : ((s.spawn p).table.find? fun o => ((s.spawn p).objs o).pid == s.tid).isSome :=
    find?_isSome.mpr ⟨s.made, hmem, by simp [spawn_child, child]⟩
  obtain ⟨o, ho⟩ := Option.isSome_iff_exists.mp hsome
  have hpid : ((s.spawn p).objs o).pid = s.tid := by simpa using find?_some ho
  have hoc : o = s.made := by
    by_contra hne
    rw [spawn_pid hne] at hpid
    have ho' := mem_of_find?_eq_some ho
    simp [spawn, hpid, hne] at ho'
  rw [find, if_neg hpos, ho, hoc]

theorem world_find (s : Procs) (pid : Nat) :
    s.world.find pid = (s.find pid).map fun o => (s.objs o).toProcess := by
  unfold World.find Procs.find
  by_cases h : pid = 0
  · simp [h, Procs.world]
  · simp only [h, if_false, Procs.world, find?_map]
    rfl

/-- Erasing the first match leaves every other element. -/
theorem mem_eraseP_of_find {kids : List Nat} {ready : Nat → Bool} {d : Nat}
    (hfind : kids.find? ready = some d) (hne : d ≠ c) (hc : c ∈ kids) : c ∈ kids.eraseP ready := by
  obtain ⟨hd, before, after, hkids, hbefore⟩ := find?_eq_some_iff_append.mp hfind
  have hnone : ∀ a ∈ before, ¬ ready a = true := fun a ha => by simpa using hbefore a ha
  rw [hkids, eraseP_append_right _ hnone, eraseP_cons_of_pos hd]
  rw [hkids] at hc
  simp only [mem_append, mem_cons] at hc ⊢
  rcases hc with hc | hc | hc
  · exact .inl hc
  · exact absurd hc.symm hne
  · exact .inr hc

/-- A child taken off the list by `wait4` is reported by its pid. -/
theorem wait4_value {pid : Int} {nohang : Bool} {v : Nat}
    (hv : (s.wait4 p pid nohang true).1 = .ret v) (hc : c ∈ (s.objs p).children)
    (hgone : c ∉ ((s.wait4 p pid nohang true).2.objs p).children) : v = (s.objs c).pid := by
  unfold wait4 at hv hgone
  cases hw : s.waitFor p pid with
  | none => simp [hw] at hv
  | some which =>
    simp only [hw] at hv hgone
    unfold reap at hv hgone
    by_cases hany : (s.objs p).children.any (s.waitMatches which) = true
    · simp only [hany, if_true] at hv hgone
      cases hfind : (s.objs p).children.find? fun c =>
          s.waitMatches which c && (s.objs c).zombie with
      | none =>
        simp only [hfind] at hgone
        exact absurd hc hgone
      | some d =>
        simp only [hfind] at hv hgone
        have hdc : d = c := by
          by_contra hne
          apply hgone
          simpa [setObj] using mem_eraseP_of_find hfind hne hc
        rw [← hdc]
        simpa using hv.symm
    · simp [hany] at hv

/-- Inside the namespace the new number is translated to itself. -/
theorem spawn_globalTarget (ha : s.CountersAgree n p) (hp : (s.objs p).pidns = some n) {q : Nat}
    (hq : ((s.spawn p).objs q).pidns = some n) :
    (s.spawn p).world.globalTarget ((s.spawn p).objs q).toProcess s.tid = s.tid := by
  have hpos : (s.tid : Int) > 0 := by
    have := ha.pos
    omega
  have hmap : ((s.spawn p).nss n).toGlobal s.tid = some s.tid := by
    simp [spawn, hp, NumberedNs.add, ha.eq]
  unfold World.globalTarget World.toGlobalPid
  rw [if_pos hpos, u32_tid, hq]
  simp [world, hmap]

theorem CountersAgree.consistent (ha : s.CountersAgree n p) (hp : (s.objs p).pidns = some n)
    (hlt : p < s.made) : (s.spawn p).Consistent n p s.made s.tid := by
  have hpos : (s.tid : Int) > 0 := by
    have := ha.pos
    omega
  have hne : p ≠ s.made := Nat.ne_of_lt hlt
  have hpid : ((s.spawn p).objs s.made).pid = s.tid := by rw [spawn_child]; rfl
  constructor
  case getpid => simp [getpid, spawn_child, Procs.child, hp, ha.eq]
  case waited =>
    intro t ht pid nohang v hv hc hgone
    rw [wait4_value hv hc hgone, ht, hpid]
  case wait4 =>
    refine ⟨.pid s.tid, by rw [waitFor, if_pos hpos, u32_tid], fun o => ?_⟩
    rw [spawn_children hne]
    constructor
    · intro h
      by_contra hom
      have hmem : o ∈ (s.objs p).children := by simpa [hom] using h.1
      apply ha.child o hmem hom
      simpa [waitMatches, spawn_pid hom] using h.2
    · intro h
      simp [h, waitMatches, hpid]
  case kill =>
    intro q hq x
    rw [spawn_globalTarget ha hp hq]
    unfold World.Names
    rw [if_pos hpos, u32_tid, world_find, spawn_find ha.pos]
    simp only [Option.map_some, Option.some.injEq]
    constructor
    · intro h
      exact ⟨h.2.symm, h.1⟩
    · intro h
      exact ⟨h.2, h.1.symm⟩
  case getpgid =>
    intro q _
    rw [getpgidTarget, if_neg (by omega), u32_tid]
    exact spawn_find ha.pos
  case setpgid =>
    intro q hq
    unfold setpgidTarget
    rw [u32_tid]
    by_cases hqm : q = s.made
    · rw [hqm, if_pos (.inr hpid.symm)]
    rw [spawn_pidns hqm] at hq
    have := ha.member q hqm hq
    rw [spawn_pid hqm, if_neg (by omega)]
    exact spawn_find ha.pos

/-- From any state, the child that a process of the namespace makes is known by the
returned value exactly when the two counters agree on a free number. -/
theorem child_number_consistent_iff (s s' : Procs) (n p r : Nat) (m : Maker)
    (refused : Option Errno) (hlt : p < s.made) (hp : (s.objs p).pidns = some n)
    (h : m.call s p refused = (.ok r, s')) : s'.Consistent n p s.made r ↔ s.CountersAgree n p := by
  obtain ⟨hr, hs⟩ := Maker.call_ok h
  rw [hr, hs]
  have hne : p ≠ s.made := Nat.ne_of_lt hlt
  constructor
  · intro hc
    have hns : ((s.spawn p).objs p).pidns = some n := by rw [spawn_pidns hne, hp]
    have hpos : s.tid ≠ 0 := by
      intro h0
      have hself := hc.getpgid p hns
      rw [getpgidTarget, if_pos (by omega)] at hself
      exact hne (Option.some.inj hself)
    constructor
    case eq => simpa [getpid, spawn_child, child, hp] using hc.getpid.symm
    case pos => exact hpos
    case child =>
      intro o ho hom hpid
      obtain ⟨which, hw, hall⟩ := hc.wait4
      rw [waitFor, if_pos (by omega), u32_tid] at hw
      have hmem : o ∈ ((s.spawn p).objs p).children := by
        rw [spawn_children hne]
        exact List.mem_append_left _ ho
      exact hom ((hall o).mp ⟨hmem, by simp [← Option.some.inj hw, waitMatches, spawn_pid hom, hpid]⟩)
    case member =>
      intro q hqm hq hpid
      have hself := hc.setpgid q (by rw [spawn_pidns hqm, hq])
      rw [setpgidTarget, u32_tid, spawn_pid hqm, if_pos (.inr hpid.symm)] at hself
      exact hqm (Option.some.inj hself)
  · intro ha
    exact ha.consistent hp hlt

/-- A container's init as object 1, with the given pid, and the counters after it. -/
def initAt (pid : UInt32) : Procs where
  objs o := if o = 1 then { pid := pid.toNat, pgid := pid.toNat, pidns := some 0, vpid := 1 }
    else { pid := 0, pgid := 0 }
  made := 2
  table := [1]
  nextTid := pid + 1
  nss _ := {
    next := 2
    toLocal := fun g => if g = pid.toNat then some 1 else none
    toGlobal := fun l => if l = 1 then some pid.toNat else none }

/-- An init that is process 1 for the kernel too makes child 2, known as 2. -/
theorem child_number_consistent_init :
    ((initAt 1).fork 1 none).1.toOption = some 2 ∧
    ((initAt 1).spawn 1).Consistent 0 1 2 2 := by
  have hagree : (initAt 1).CountersAgree 0 1 := by
    constructor
    case eq => decide
    case pos => decide
    case child => decide
    case member =>
      intro q _ _
      by_cases h : q = 1
      · subst h
        decide
      · simp [initAt, h, tid]
  exact ⟨by decide, (child_number_consistent_iff (initAt 1) _ 0 1 2 .fork none (by decide)
    (by decide) rfl).mpr hagree⟩

/-- An init with pid 10 forks: it is told 11, the child's `getpid` is 2, and waiting
for 2 finds no child. -/
theorem child_number_split :
    ((initAt 10).fork 1 none).1.toOption = some 11 ∧
    ((initAt 10).spawn 1).getpid 2 = 2 ∧
    (((initAt 10).spawn 1).wait4 1 2 true true).1 = .err .echild ∧
    ¬ ((initAt 10).spawn 1).Consistent 0 1 2 11 := by
  have hno : ¬ ((initAt 10).spawn 1).Consistent 0 1 2 11 := by
    intro h
    exact absurd h.getpid (by decide)
  exact ⟨by decide, by decide, by decide, hno⟩

end Procs

end Fastros.Proc
