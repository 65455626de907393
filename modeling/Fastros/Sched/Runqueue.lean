import Mathlib

/-!
# The run queue

The scheduler of `kernel/src/sched/mod.rs` on one CPU: the running task, the ready
queue, sleepers and zombies. A task that was terminated from outside is only
marked; `schedule` drops it when it comes to it. Accounting, address spaces and
stacks are left out. `Placed` says where a live task is found by its state.
-/

namespace Fastros.Sched

abbrev Tid := Nat

inductive TaskState
  | ready
  | running
  | blocked
  | dead
  deriving DecidableEq

structure Task where
  state : TaskState
  exited : Bool
  wakeAt : Nat

/-- Task 0, which runs when no other can. -/
def idle : Tid := 0

structure RunQueue where
  tasks : Tid → Task
  current : Tid
  ready : List Tid
  sleepers : List (Nat × Tid)
  zombies : List Tid

namespace RunQueue

def setState (s : RunQueue) (t : Tid) (state : TaskState) : RunQueue :=
  { s with tasks := Function.update s.tasks t { s.tasks t with state } }

def setWakeAt (s : RunQueue) (t : Tid) (wakeAt : Nat) : RunQueue :=
  { s with tasks := Function.update s.tasks t { s.tasks t with wakeAt } }

def setExited (s : RunQueue) (t : Tid) : RunQueue :=
  { s with tasks := Function.update s.tasks t { s.tasks t with exited := true } }

def pushReady (s : RunQueue) (t : Tid) : RunQueue := { s with ready := s.ready ++ [t] }

/-- Make a blocked task runnable. Harmless on tasks that are not blocked. -/
def wake (s : RunQueue) (t : Tid) : RunQueue :=
  if (s.tasks t).state = .blocked then ((s.setState t .ready).setWakeAt t 0).pushReady t else s

def wakeAll (s : RunQueue) (ts : List Tid) : RunQueue := ts.foldl wake s

/-- A task that still runs goes to the back of the queue; the idle task does not
queue. -/
def putBack (s : RunQueue) : RunQueue :=
  if (s.tasks s.current).state = .running then
    if s.current = idle then s.setState s.current .ready
    else (s.setState s.current .ready).pushReady s.current
  else s

/-- Switch to the first ready task that was not terminated, or to the idle task. -/
def pickNext (s : RunQueue) : RunQueue :=
  match s.ready.dropWhile fun t => (s.tasks t).exited with
  | t :: rest => { s with ready := rest, current := t }.setState t .running
  | [] => { s with ready := [], current := idle }.setState idle .running

def schedule (s : RunQueue) : RunQueue := s.putBack.pickNext

/-- Block the current task until it is woken or the deadline passes. The idle task
must never block. -/
def blockCurrent (s : RunQueue) (deadline : Option Nat) : Option RunQueue :=
  if s.current = idle then none
  else
    let t := s.current
    let s := s.setState t .blocked
    some (match deadline with
      | some d => { s.setWakeAt t d with sleepers := s.sleepers ++ [(d, t)] }.schedule
      | none => s.schedule)

/-- Terminate another task: mark it, take it off the ready queue, and wake it if it
was blocked. `joiners` are the tasks in its `exit_wq`. -/
def killTask (s : RunQueue) (t : Tid) (joiners : List Tid) : RunQueue :=
  let s := s.setExited t
  let s := { s with ready := s.ready.filter (· ≠ t) }
  (s.wake t).wakeAll joiners

def exitCurrent (s : RunQueue) (joiners : List Tid) : Option RunQueue :=
  if s.current = idle then none
  else
    let t := s.current
    let s := (s.setExited t).wakeAll joiners
    some { s.setState t .dead with zombies := s.zombies ++ [t] }.schedule

def swapRemove {α : Type} (l : List α) (i : Nat) (x : α) : List α :=
  (l.set i (l.getLastD x)).dropLast

/-- The loop of `timer_tick` over the sleepers; each turn drops an entry or moves
on, so `turns` starts at their number. -/
def tickLoop (now : Nat) : Nat → Nat → RunQueue → RunQueue
  | 0, _, s => s
  | turns + 1, i, s =>
    match s.sleepers[i]? with
    | none => s
    | some (deadline, t) =>
      let rest := swapRemove s.sleepers i (deadline, t)
      if (s.tasks t).wakeAt = deadline ∧ (s.tasks t).state = .blocked then
        if deadline ≤ now then
          tickLoop now turns i
            ((({ s with sleepers := rest }.setWakeAt t 0).setState t .ready).pushReady t)
        else tickLoop now turns (i + 1) s
      else tickLoop now turns i { s with sleepers := rest }

def timerTick (s : RunQueue) (now : Nat) : RunQueue := tickLoop now s.sleepers.length 0 s

section

variable (s : RunQueue) (t u : Tid)

@[simp] theorem setState_state (x : TaskState) :
    ((s.setState t x).tasks u).state = if u = t then x else (s.tasks u).state := by
  by_cases h : u = t <;> simp [setState, h]

@[simp] theorem setState_exited (x : TaskState) :
    ((s.setState t x).tasks u).exited = (s.tasks u).exited := by
  by_cases h : u = t <;> simp [setState, h]

@[simp] theorem setWakeAt_state (n : Nat) :
    ((s.setWakeAt t n).tasks u).state = (s.tasks u).state := by
  by_cases h : u = t <;> simp [setWakeAt, h]

@[simp] theorem setWakeAt_exited (n : Nat) :
    ((s.setWakeAt t n).tasks u).exited = (s.tasks u).exited := by
  by_cases h : u = t <;> simp [setWakeAt, h]

@[simp] theorem setExited_state : ((s.setExited t).tasks u).state = (s.tasks u).state := by
  by_cases h : u = t <;> simp [setExited, h]

@[simp] theorem setExited_exited :
    ((s.setExited t).tasks u).exited = (decide (u = t) || (s.tasks u).exited) := by
  by_cases h : u = t <;> simp [setExited, h]

@[simp] theorem setState_current (x : TaskState) : (s.setState t x).current = s.current := rfl
@[simp] theorem setExited_current : (s.setExited t).current = s.current := rfl
@[simp] theorem pushReady_ready : (s.pushReady t).ready = s.ready ++ [t] := rfl
@[simp] theorem pushReady_tasks : (s.pushReady t).tasks = s.tasks := rfl

end

def Live (s : RunQueue) (t : Tid) : Prop := (s.tasks t).exited = false

def Runnable (s : RunQueue) (t : Tid) : Prop := t = s.current ∨ t ∈ s.ready

/-- A live task stands where its state says. -/
structure Placed (s : RunQueue) : Prop where
  running : ∀ t, s.Live t → (s.tasks t).state = .running → t = s.current
  ready : ∀ t, s.Live t → t ≠ idle → (s.tasks t).state = .ready → t ∈ s.ready
  dead : ∀ t, s.Live t → (s.tasks t).state ≠ .dead

/-- A live task that is not blocked is the running one or queues for the CPU. -/
theorem Placed.runnable {s : RunQueue} {t : Tid} (h : s.Placed) (hl : s.Live t) (ht : t ≠ idle)
    (hb : (s.tasks t).state ≠ .blocked) : s.Runnable t := by
  cases hs : (s.tasks t).state with
  | ready => exact .inr (h.ready t hl ht hs)
  | running => exact .inl (h.running t hl hs)
  | blocked => exact absurd hs hb
  | dead => exact absurd hs (h.dead t hl)

/-- The CPU is with a live task that is not blocked, and the idle task is there. -/
structure Staffed (s : RunQueue) : Prop where
  idle : s.Live idle
  live : s.Live s.current
  awake : (s.tasks s.current).state ≠ .blocked

/-- Nothing is terminated or put to sleep, and tasks stay where they belong. -/
structure Moves (s s' : RunQueue) : Prop where
  exited : ∀ t, (s'.tasks t).exited = (s.tasks t).exited
  awake : ∀ t, (s.tasks t).state ≠ .blocked → (s'.tasks t).state ≠ .blocked
  placed : s.Placed → s'.Placed
  staffed : s.Staffed → s'.Staffed

variable {s s' s'' : RunQueue} {t : Tid}

theorem Moves.refl (s : RunQueue) : Moves s s := ⟨fun _ => rfl, fun _ => id, id, id⟩

theorem Moves.trans (h : Moves s s') (h' : Moves s' s'') : Moves s s'' :=
  ⟨fun t => (h'.exited t).trans (h.exited t), fun t hb => h'.awake t (h.awake t hb),
    fun hp => h'.placed (h.placed hp), fun hs => h'.staffed (h.staffed hs)⟩

theorem moves_ready (hex : ∀ u, (s'.tasks u).exited = (s.tasks u).exited)
    (hst : ∀ u, (s'.tasks u).state = if u = t then .ready else (s.tasks u).state)
    (hcur : s'.current = s.current) (hready : s'.ready = s.ready ++ [t]) : Moves s s' where
  exited := hex
  awake u hu := by
    by_cases h : u = t <;> simp [hst, h, hu]
  placed hp := by
    have hlive : ∀ u, s'.Live u → s.Live u := fun u hu => by rwa [Live, hex] at hu
    refine ⟨fun u hl hs => ?_, fun u hl hi hs => ?_, fun u hl hs => ?_⟩
    · rw [hst] at hs
      split at hs
      · cases hs
      · rw [hcur]
        exact hp.running u (hlive u hl) hs
    · rw [hready, List.mem_append, List.mem_singleton]
      by_cases h : u = t
      · exact .inr h
      · exact .inl (hp.ready u (hlive u hl) hi (by simpa [hst, h] using hs))
    · rw [hst] at hs
      split at hs
      · cases hs
      · exact hp.dead u (hlive u hl) hs
  staffed hs := by
    refine ⟨by rw [Live, hex]; exact hs.idle, by rw [Live, hex, hcur]; exact hs.live, ?_⟩
    rw [hcur, hst]
    split
    · simp
    · exact hs.awake

theorem moves_wake (s : RunQueue) (t : Tid) : Moves s (s.wake t) := by
  unfold wake
  split
  · exact moves_ready (by simp) (by simp) rfl rfl
  · exact .refl s

theorem wake_awake (s : RunQueue) (t : Tid) : ((s.wake t).tasks t).state ≠ .blocked := by
  unfold wake
  split
  · simp
  · assumption

theorem moves_wakeAll (ts : List Tid) : ∀ s : RunQueue, Moves s (s.wakeAll ts) := by
  induction ts with
  | nil => exact fun s => .refl s
  | cons t ts ih => exact fun s => (moves_wake s t).trans (ih (s.wake t))

/-- After `putBack` no live task but the idle one runs, so every task that is not
blocked queues. -/
structure Parked (s : RunQueue) : Prop where
  running : ∀ t, s.Live t → (s.tasks t).state ≠ .running
  ready : ∀ t, s.Live t → t ≠ idle → (s.tasks t).state = .ready → t ∈ s.ready
  dead : ∀ t, s.Live t → (s.tasks t).state ≠ .dead

theorem putBack_exited (s : RunQueue) (t : Tid) : (s.putBack.tasks t).exited = (s.tasks t).exited := by
  unfold putBack
  split
  · split <;> simp
  · rfl

theorem putBack_awake (s : RunQueue) (t : Tid) (h : (s.tasks t).state ≠ .blocked) :
    (s.putBack.tasks t).state ≠ .blocked := by
  unfold putBack
  split
  · split <;> by_cases ht : t = s.current <;> simp [ht, h]
  · exact h

/-- After the running task is put back, every ready task is in the queue. -/
theorem putBack_parked (hp : s.Placed) : s.putBack.Parked := by
  have hlive : ∀ t, s.putBack.Live t → s.Live t := fun t h => by
    rwa [Live, putBack_exited] at h
  refine ⟨fun t hl hs => ?_, fun t hl hi hs => ?_, fun t hl hs => ?_⟩
  · have hrun := hp.running t (hlive t hl)
    unfold putBack at hs
    split at hs
    · split at hs <;> by_cases ht : t = s.current <;> simp_all
    · next hcur =>
      rw [hrun hs] at hs
      exact hcur hs
  · have hready := hp.ready t (hlive t hl) hi
    unfold putBack at hs ⊢
    split at hs
    · next hcur =>
      simp only [hcur, if_true]
      split at hs
      · next hidle =>
        have ht : t ≠ s.current := by rw [hidle]; exact hi
        simp only [hidle, if_true]
        exact hready (by simpa [ht] using hs)
      · next hidle =>
        simp only [hidle, if_false, pushReady_ready, List.mem_append, List.mem_singleton]
        by_cases ht : t = s.current
        · exact .inr ht
        · exact .inl (hready (by simpa [ht] using hs))
    · next hcur =>
      simp only [hcur, if_false]
      exact hready hs
  · have hdead := hp.dead t (hlive t hl)
    unfold putBack at hs
    split at hs
    · split at hs <;> by_cases ht : t = s.current <;> simp_all
    · exact hdead hs

theorem pickNext_exited (s : RunQueue) (t : Tid) :
    (s.pickNext.tasks t).exited = (s.tasks t).exited := by
  unfold pickNext
  split <;> simp

theorem pickNext_awake (s : RunQueue) (t : Tid) (h : (s.tasks t).state ≠ .blocked) :
    (s.pickNext.tasks t).state ≠ .blocked := by
  unfold pickNext
  split
  · next u rest _ => by_cases ht : t = u <;> simp [ht, h]
  · by_cases ht : t = idle <;> simp [ht, h]

variable {joiners l : List Tid}

/-- A live task is not among those `pickNext` skips. -/
theorem mem_dropWhile_of_live (h : t ∈ l) (hl : s.Live t) :
    t ∈ l.dropWhile fun u => (s.tasks u).exited := by
  induction l with
  | nil => exact h
  | cons u l ih =>
    rw [List.dropWhile_cons]
    split
    · next hu =>
      rcases List.mem_cons.mp h with rfl | h'
      · rw [Live] at hl
        simp [hl] at hu
      · exact ih h'
    · exact h

/-- After the next task is picked, it is the running one. -/
theorem pickNext_placed (hp : s.Parked) : s.pickNext.Placed := by
  have hlive : ∀ t, s.pickNext.Live t → s.Live t := fun t h => by
    rwa [Live, pickNext_exited] at h
  have hqueue : ∀ t, s.Live t → t ≠ idle → (s.tasks t).state = .ready →
      t ∈ s.ready.dropWhile fun u => (s.tasks u).exited :=
    fun t hl hi hs => mem_dropWhile_of_live (hp.ready t hl hi hs) hl
  refine ⟨fun t hl hs => ?_, fun t hl hi hs => ?_, fun t hl hs => ?_⟩
  · have := hp.running t (hlive t hl)
    unfold pickNext at hs ⊢
    split at hs <;> simp_all
  · have hready := hqueue t (hlive t hl) hi
    unfold pickNext at hs ⊢
    split at hs
    · next u rest hdrop =>
      rw [hdrop] at hready
      have htu : t ≠ u := by
        rintro rfl
        simp at hs
      have hmem := hready (by simpa [htu] using hs)
      exact (List.mem_cons.mp hmem).resolve_left htu
    · next hdrop =>
      rw [hdrop] at hready
      have hmem := hready (by simpa [hi] using hs)
      cases hmem
  · have hdead := hp.dead t (hlive t hl)
    unfold pickNext at hs
    split at hs
    · next u rest _ =>
      rw [setState_state] at hs
      split at hs
      · cases hs
      · exact hdead hs
    · rw [setState_state] at hs
      split at hs
      · cases hs
      · exact hdead hs

/-- A scheduled processor runs a live task. -/
theorem schedule_staffed (hi : s.Live idle) : s.schedule.Staffed := by
  have hex : ∀ t, (s.schedule.tasks t).exited = (s.tasks t).exited :=
    fun t => (pickNext_exited _ t).trans (putBack_exited s t)
  refine ⟨by rw [Live, hex]; exact hi, ?_, ?_⟩
  · rw [Live, hex, ← putBack_exited]
    unfold schedule pickNext
    split
    · next t rest hdrop =>
      have hhead := List.head?_dropWhile_not (fun t => (s.putBack.tasks t).exited) s.putBack.ready
      rw [hdrop] at hhead
      simpa using hhead
    · simpa [putBack_exited, Live] using hi
  · unfold schedule pickNext
    split <;> simp

theorem moves_schedule (s : RunQueue) : Moves s s.schedule where
  staffed hs := schedule_staffed hs.idle
  exited t := (pickNext_exited _ t).trans (putBack_exited s t)
  awake t h := pickNext_awake _ t (putBack_awake s t h)
  placed hp := pickNext_placed (putBack_parked hp)

/-- `s'` follows from `s` by putting `t` to sleep: nothing is terminated, and no
other task falls asleep. -/
structure Blocks (t : Tid) (s s' : RunQueue) : Prop where
  exited : ∀ u, (s'.tasks u).exited = (s.tasks u).exited
  awake : ∀ u, u ≠ t → (s.tasks u).state ≠ .blocked → (s'.tasks u).state ≠ .blocked
  placed : s.Placed → s'.Placed
  staffed : s.Live idle → s'.Staffed

theorem blocks_blockCurrent {deadline : Option Nat} (h : s.blockCurrent deadline = some s') :
    Blocks s.current s s' := by
  have hpark : ∀ s1 : RunQueue, (∀ u, (s1.tasks u).exited = (s.tasks u).exited) →
      (∀ u, (s1.tasks u).state = if u = s.current then .blocked else (s.tasks u).state) →
      s1.current = s.current → s1.ready = s.ready → Blocks s.current s s1.schedule := by
    intro s1 hex hst hcur hready
    have hm := moves_schedule s1
    have hlive : ∀ u, s1.Live u → s.Live u := fun u hu => by rwa [Live, hex] at hu
    refine ⟨fun u => (hm.exited u).trans (hex u), fun u hu hb => ?_, fun hp => hm.placed ?_,
      fun hi => schedule_staffed (by rwa [Live, hex])⟩
    · exact hm.awake u (by simpa [hst, hu] using hb)
    refine ⟨fun u hl hs => ?_, fun u hl hi hs => ?_, fun u hl hs => ?_⟩
    · rw [hst] at hs
      split at hs
      · cases hs
      · rw [hcur]
        exact hp.running u (hlive u hl) hs
    · rw [hst] at hs
      split at hs
      · cases hs
      · rw [hready]
        exact hp.ready u (hlive u hl) hi hs
    · rw [hst] at hs
      split at hs
      · cases hs
      · exact hp.dead u (hlive u hl) hs
  unfold blockCurrent at h
  split at h
  · cases h
  cases deadline with
  | none | some =>
    cases h
    exact hpark _ (fun u => by simp) (fun u => by simp) rfl rfl

/-- `s'` follows from `s` by ending `t`: nothing else is terminated, and no task
falls asleep. -/
structure Ends (t : Tid) (s s' : RunQueue) : Prop where
  exited : ∀ u, (s'.tasks u).exited = (decide (u = t) || (s.tasks u).exited)
  awake : ∀ u, (s.tasks u).state ≠ .blocked → (s'.tasks u).state ≠ .blocked
  placed : s.Placed → s'.Placed

/-- The idle task outlives every other one. -/
theorem Ends.idle (h : Ends t s s') (ht : t ≠ idle) (hi : s.Live idle) : s'.Live idle := by
  rw [Live] at hi ⊢
  simpa [h.exited, Ne.symm ht] using hi

theorem Ends.moves (h : Ends t s s') (h' : Moves s' s'') : Ends t s s'' :=
  ⟨fun u => (h'.exited u).trans (h.exited u), fun u hb => h'.awake u (h.awake u hb),
    fun hp => h'.placed (h.placed hp)⟩

/-- Marking a task, whether or not it is taken off the queue. -/
theorem ends_mark (hlist : ∀ u ∈ s.ready, u ≠ t → u ∈ s'.ready) (hcur : s'.current = s.current)
    (htasks : s'.tasks = (s.setExited t).tasks) : Ends t s s' where
  exited u := by simp [htasks]
  awake u hu := by simpa [htasks] using hu
  placed hp := by
    have hlive : ∀ u, s'.Live u → u ≠ t ∧ s.Live u := by
      intro u hu
      simpa [Live, htasks] using hu
    refine ⟨fun u hl hs => ?_, fun u hl hi hs => ?_, fun u hl hs => ?_⟩
    · rw [hcur]
      exact hp.running u (hlive u hl).2 (by simpa [htasks] using hs)
    · have hmem := hp.ready u (hlive u hl).2 hi (by simpa [htasks] using hs)
      exact hlist u hmem (hlive u hl).1
    · exact hp.dead u (hlive u hl).2 (by simpa [htasks] using hs)

theorem ends_killTask (s : RunQueue) (t : Tid) (joiners : List Tid) :
    Ends t s (s.killTask t joiners) := by
  have hmark : Ends t s { s.setExited t with ready := s.ready.filter (· ≠ t) } :=
    ends_mark (by simp +contextual) rfl rfl
  exact hmark.moves ((moves_wake _ t).trans (moves_wakeAll joiners _))

/-- Killing another task leaves the running one running. -/
theorem killTask_staffed (hs : s.Staffed) (ht : t ≠ s.current)
    (hi : t ≠ idle) : (s.killTask t joiners).Staffed := by
  refine ((moves_wake _ t).trans (moves_wakeAll joiners _)).staffed ⟨?_, ?_, ?_⟩
  · simpa [Live, Ne.symm hi] using hs.idle
  · simpa [Live, Ne.symm ht] using hs.live
  · simpa using hs.awake

/-- An exited task may be declared dead. -/
theorem moves_dead (hx : (s.tasks t).exited = true) (zombies : List Tid) :
    Moves s { s.setState t .dead with zombies } where
  exited u := by simp
  awake u hu := by by_cases h : u = t <;> simp [h, hu]
  placed hp := by
    have hlive : ∀ u, ({ s.setState t .dead with zombies } : RunQueue).Live u → u ≠ t ∧ s.Live u := by
      intro u hu
      simp only [Live, setState_exited] at hu
      exact ⟨by rintro rfl; simp [hx] at hu, hu⟩
    refine ⟨fun u hl hs => ?_, fun u hl hi hs => ?_, fun u hl hs => ?_⟩
    · exact hp.running u (hlive u hl).2 (by simpa [(hlive u hl).1] using hs)
    · exact hp.ready u (hlive u hl).2 hi (by simpa [(hlive u hl).1] using hs)
    · exact hp.dead u (hlive u hl).2 (by simpa [(hlive u hl).1] using hs)
  staffed hs := by
    refine ⟨by simpa [Live] using hs.idle, by simpa [Live] using hs.live, ?_⟩
    by_cases h : s.current = t
    · simp [h]
    · simpa [h] using hs.awake

theorem ends_exitCurrent (h : s.exitCurrent joiners = some s') : Ends s.current s s' := by
  unfold exitCurrent at h
  split at h
  · cases h
  cases h
  have hmark : Ends s.current s (s.setExited s.current) := ends_mark (fun _ h _ => h) rfl rfl
  have hwoken := moves_wakeAll joiners (s.setExited s.current)
  have hx : (((s.setExited s.current).wakeAll joiners).tasks s.current).exited = true := by
    rw [hwoken.exited]
    simp
  exact hmark.moves ((hwoken.trans (moves_dead hx _)).trans (moves_schedule _))

theorem exitCurrent_staffed (hs : s.Staffed)
    (h : s.exitCurrent joiners = some s') : s'.Staffed := by
  have hidle := (ends_exitCurrent h).idle
  unfold exitCurrent at h
  split at h
  · cases h
  next hcur =>
  cases h
  refine schedule_staffed ?_
  have hi := hidle hcur hs.idle
  rwa [Live, (moves_schedule _).exited] at hi

theorem moves_sleepers (s : RunQueue) (sleepers : List (Nat × Tid)) : Moves s { s with sleepers } :=
  ⟨fun _ => rfl, fun _ => id, fun hp => ⟨hp.running, hp.ready, hp.dead⟩,
    fun hs => ⟨hs.idle, hs.live, hs.awake⟩⟩

/-- A tick wakes the sleepers that are due. -/
theorem moves_tickLoop (now turns : Nat) : ∀ (i : Nat) (s : RunQueue),
    Moves s (tickLoop now turns i s) := by
  induction turns with
  | zero => exact fun _ s => .refl s
  | succ turns ih =>
    intro i s
    unfold tickLoop
    split
    · exact .refl s
    next deadline t _ =>
    split
    · split
      · have hm : Moves s ((({ s with
            sleepers := swapRemove s.sleepers i (deadline, t) }.setWakeAt t 0).setState t
            .ready).pushReady t) :=
          moves_ready (by simp) (by simp) rfl rfl
        exact hm.trans (ih i _)
      · exact ih (i + 1) s
    · exact (moves_sleepers s _).trans (ih i _)

end RunQueue

end Fastros.Sched
