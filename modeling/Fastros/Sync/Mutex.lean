import Fastros.Lib.Run
import Fastros.Sched.Runqueue

/-!
# The sleeping mutex

`Mutex::lock` and the drop of its guard over the wait queue and the scheduler. The
pieces of the code between which another task, an interrupt or a switch can come
are single steps; what runs with interrupts off is one piece. A task that is
terminated from outside neither drops its guard nor leaves the wait queue, so the
mutex keeps its promises in every run that spares the tasks inside it.
-/

namespace Fastros.Sync

open Lib.Run Sched RunQueue
open Function (update)

/-- Where a task is with respect to the mutex. -/
inductive Stage
  | outside
  /-- At the first `cond` of a turn of `wait`. -/
  | trying
  /-- Refused by it, before interrupts are disabled. -/
  | refused
  /-- In `block_current`, entered in the queue. -/
  | asleep
  | holding
  /-- In the guard's drop, between the store and `wake_one`. -/
  | dropping
  deriving DecidableEq

/-- Inside `lock`. -/
def Stage.waiting : Stage → Bool
  | .trying | .refused | .asleep => true
  | _ => false

structure System where
  sched : RunQueue
  locked : Bool
  waiters : List Tid
  stage : Tid → Stage

namespace System

def enter (m : System) (t : Tid) (x : Stage) : System := { m with stage := update m.stage t x }

/-- `locked.swap(true)` by `t`: it holds the mutex if nobody did. -/
def swap (m : System) (t : Tid) (otherwise : System → Option System) : Option System :=
  if m.locked then otherwise m else some ({ m with locked := true }.enter t .holding)

end System

inductive Event
  /-- The running task calls `lock`. -/
  | lock
  /-- It evaluates the condition at the head of the loop. -/
  | attempt
  /-- It evaluates it again with interrupts off, and enters the queue and blocks. -/
  | sleep
  /-- It runs again after `block_current` and leaves the queue. -/
  | resume
  | tryLock
  /-- The two halves of the guard's drop. -/
  | release
  | wakeOne
  /-- The running task blocks for something else. -/
  | block (deadline : Option Nat)
  /-- The CPU goes to the next task. -/
  | schedule
  /-- A signal, or whatever else makes a blocked task ready. -/
  | wake (t : Tid)
  | tick (now : Nat)
  /-- The running task terminates another one. -/
  | kill (t : Tid) (joiners : List Tid)
  | exit (joiners : List Tid)

/-- One step; there is none if the running task is somewhere else. -/
def step (e : Event) (m : System) : Option System :=
  let me := m.sched.current
  match e with
  | .lock => if me ≠ idle ∧ m.stage me = .outside then some (m.enter me .trying) else none
  | .attempt =>
    if m.stage me = .trying then m.swap me fun m => some (m.enter me .refused) else none
  | .sleep =>
    if m.stage me = .refused then
      m.swap me fun m => (m.sched.blockCurrent none).map fun sched =>
        { m with sched, waiters := m.waiters ++ [me] }.enter me .asleep
    else none
  | .resume =>
    if m.stage me = .asleep then
      some ({ m with waiters := m.waiters.filter (· ≠ me) }.enter me .trying)
    else none
  | .tryLock =>
    if me ≠ idle ∧ m.stage me = .outside then m.swap me some else none
  | .release =>
    if m.stage me = .holding then some ({ m with locked := false }.enter me .dropping) else none
  | .wakeOne =>
    if m.stage me = .dropping then
      match m.waiters with
      | [] => some (m.enter me .outside)
      | t :: rest => some ({ m with sched := m.sched.wake t, waiters := rest }.enter me .outside)
    else none
  | .block deadline =>
    if m.stage me = .outside ∨ m.stage me = .holding then
      (m.sched.blockCurrent deadline).map fun sched => { m with sched }
    else none
  | .schedule => some { m with sched := m.sched.schedule }
  | .wake t => some { m with sched := m.sched.wake t }
  | .tick now => some { m with sched := m.sched.timerTick now }
  | .kill t joiners =>
    if t ≠ me ∧ t ≠ idle then some { m with sched := m.sched.killTask t joiners } else none
  | .exit joiners =>
    if m.stage me = .outside then
      (m.sched.exitCurrent joiners).map fun sched => { m with sched }
    else none

/-- The tasks `ids` are ready, the idle task runs and the mutex is free. -/
def boot (ids : List Tid) : System where
  sched :=
    { tasks := fun t =>
        if t = idle then ⟨.running, false, 0⟩
        else if t ∈ ids then ⟨.ready, false, 0⟩ else ⟨.dead, true, 0⟩
      current := idle, ready := ids, sleepers := [], zombies := [] }
  locked := false
  waiters := []
  stage _ := .outside

/-- What holds of the mutex and its tasks as long as no task inside it is killed. -/
structure Sound (m : System) : Prop where
  placed : m.sched.Placed
  staffed : m.sched.Staffed
  engaged : ∀ t, m.stage t ≠ .outside → m.sched.Live t ∧ t ≠ idle
  locked : ∀ t, m.stage t = .holding → m.locked = true
  holder : m.locked = true → ∃ t, m.stage t = .holding
  unique : ∀ t u, m.stage t = .holding → m.stage u = .holding → t = u
  queued : ∀ t ∈ m.waiters, m.stage t = .asleep
  asleep : ∀ t, (m.stage t).waiting → (m.sched.tasks t).state = .blocked → t ∈ m.waiters
  /-- A free mutex whose guard is not being dropped has no waiters, or one that is
  not blocked. -/
  roused : m.locked = false → (∀ t, m.stage t ≠ .dropping) → (∃ t, (m.stage t).waiting) →
    ∃ t, (m.stage t).waiting ∧ (m.sched.tasks t).state ≠ .blocked

theorem sound_boot (ids : List Tid) : Sound (boot ids) where
  placed := by
    refine ⟨fun t hl hs => ?_, fun t hl hi hs => ?_, fun t hl hs => ?_⟩
    · simp only [boot] at hs ⊢
      split at hs
      · assumption
      · split at hs <;> cases hs
    · simp only [boot, hi, if_false] at hs ⊢
      split at hs
      · assumption
      · cases hs
    simp only [boot, RunQueue.Live] at hl hs
    split at hs
    · cases hs
    · split at hs
      · cases hs
      · simp_all
  staffed := ⟨rfl, rfl, by simp [boot]⟩
  engaged t h := absurd rfl h
  locked t h := by cases h
  holder h := by cases h
  unique t u h := by cases h
  queued t h := by cases h
  asleep t h := by cases h
  roused _ _ h := by
    obtain ⟨t, ht⟩ := h
    cases ht

variable {m m' : System} {e : Event} {t : Tid}

@[simp] theorem enter_stage (m : System) (t u : Tid) (x : Stage) :
    (m.enter t x).stage u = if u = t then x else m.stage u := by
  by_cases h : u = t <;> simp [System.enter, h]

@[simp] theorem enter_locked (m : System) (t : Tid) (x : Stage) :
    (m.enter t x).locked = m.locked := rfl

@[simp] theorem enter_waiters (m : System) (t : Tid) (x : Stage) :
    (m.enter t x).waiters = m.waiters := rfl

variable {s : RunQueue}

/-- A step of the scheduler that leaves the tasks inside the mutex alive and puts
none of its waiters to sleep. -/
theorem Sound.resched (h : Sound m) (hp : s.Placed) (hs : s.Staffed)
    (hlive : ∀ t, m.stage t ≠ .outside → (s.tasks t).exited = (m.sched.tasks t).exited)
    (hawake : ∀ t, (m.stage t).waiting → (m.sched.tasks t).state ≠ .blocked →
      (s.tasks t).state ≠ .blocked) : Sound { m with sched := s } where
  placed := hp
  staffed := hs
  engaged t ht := ⟨(hlive t ht).trans (h.engaged t ht).1, (h.engaged t ht).2⟩
  locked := h.locked
  holder := h.holder
  unique := h.unique
  queued := h.queued
  asleep t ht hb := by
    by_contra hout
    exact hawake t ht (fun hb' => hout (h.asleep t ht hb')) hb
  roused hl hd hw := by
    obtain ⟨t, ht, hb⟩ := h.roused hl hd hw
    exact ⟨t, ht, hawake t ht hb⟩

theorem Sound.moves (h : Sound m) (hm : m.sched.Moves s) : Sound { m with sched := s } :=
  h.resched (hm.placed h.placed) (hm.staffed h.staffed) (fun t _ => hm.exited t)
    fun t _ hb => hm.awake t hb

/-- The running task, at a stage outside `lock`, blocks for something else. -/
theorem Sound.blocks (h : Sound m) (hout : (m.stage m.sched.current).waiting = false)
    (hb : m.sched.Blocks m.sched.current s) : Sound { m with sched := s } := by
  refine h.resched (hb.placed h.placed) (hb.staffed h.staffed.idle) (fun t _ => hb.exited t) ?_
  intro t ht hawake
  refine hb.awake t ?_ hawake
  rintro rfl
  rw [hout] at ht
  cases ht

/-- A task outside the mutex ends. -/
theorem Sound.ends (h : Sound m) (hout : m.stage t = .outside)
    (he : m.sched.Ends t s) (hs : s.Staffed) : Sound { m with sched := s } := by
  refine h.resched (he.placed h.placed) hs (fun u hu => ?_) fun u _ hb => he.awake u hb
  rw [he.exited]
  have hne : u ≠ t := by
    rintro rfl
    exact hu hout
  simp [hne]

theorem stage_of_enter {c : Tid} {x y : Stage} (hx : x ≠ y) (h : (m.enter c x).stage t = y) :
    m.stage t = y := by
  by_cases hme : t = c
  · simp [hme, hx] at h
  · simpa [hme] using h

theorem enter_stage_of_ne {c : Tid} {x y : Stage} (hc : m.stage c ≠ y) (h : m.stage t = y) :
    (m.enter c x).stage t = y := by
  have hme : t ≠ c := by
    rintro rfl
    exact hc h
  simpa [hme] using h

theorem Sound.acquire (h : Sound m) (hfree : m.locked = false) (hi : m.sched.current ≠ idle)
    (hst : m.stage m.sched.current ≠ .asleep) :
    Sound ({ m with locked := true }.enter m.sched.current .holding) where
  placed := h.placed
  staffed := h.staffed
  engaged t ht := by
    by_cases hme : t = m.sched.current
    · exact ⟨hme ▸ h.staffed.live, hme ▸ hi⟩
    · exact h.engaged t (by simpa [hme] using ht)
  locked _ _ := rfl
  holder _ := ⟨m.sched.current, by simp⟩
  unique t u ht hu := by
    have hnone : ∀ v, m.stage v ≠ .holding := fun v hv => by simp [h.locked v hv] at hfree
    have hme : ∀ v, ({ m with locked := true }.enter m.sched.current .holding).stage v = .holding →
        v = m.sched.current := by
      intro v hv
      by_contra hne
      exact hnone v (by simpa [hne] using hv)
    rw [hme t ht, hme u hu]
  queued t ht := enter_stage_of_ne hst (h.queued t ht)
  asleep t ht hb := by
    by_cases hme : t = m.sched.current
    · simp [hme, Stage.waiting] at ht
    · exact h.asleep t (by simpa [hme] using ht) hb
  roused hl := by cases hl

/-- The running task moves on inside `lock`, leaving the queue if it was in it. -/
theorem Sound.advance {ws : List Tid} {x : Stage} (h : Sound m) (hi : m.sched.current ≠ idle)
    (hx : x.waiting) (hst : m.stage m.sched.current ≠ .holding)
    (hws : ∀ t, t ≠ m.sched.current → (t ∈ ws ↔ t ∈ m.waiters)) (hme : m.sched.current ∉ ws) :
    Sound ({ m with waiters := ws }.enter m.sched.current x) := by
  have hx1 : x ≠ .holding := by
    rintro rfl
    cases hx
  refine ⟨h.placed, h.staffed, fun t ht => ?_, fun t ht => ?_, fun hl => ?_, fun t u ht hu => ?_,
    fun t ht => ?_, fun t ht hb => ?_, fun _ _ _ => ?_⟩
  · by_cases hme : t = m.sched.current
    · exact ⟨hme ▸ h.staffed.live, hme ▸ hi⟩
    · exact h.engaged t (by simpa [hme] using ht)
  · exact h.locked t (stage_of_enter hx1 ht)
  · obtain ⟨t, ht⟩ := h.holder hl
    exact ⟨t, enter_stage_of_ne hst ht⟩
  · exact h.unique t u (stage_of_enter hx1 ht) (stage_of_enter hx1 hu)
  · have hne : t ≠ m.sched.current := by
      rintro rfl
      exact hme ht
    have hq := h.queued t ((hws t hne).mp ht)
    simpa [hne] using hq
  · by_cases hne : t = m.sched.current
    · rw [hne] at hb
      exact absurd hb h.staffed.awake
    · exact (hws t hne).mpr (h.asleep t (by simpa [hne] using ht) hb)
  · exact ⟨m.sched.current, by simpa using hx, h.staffed.awake⟩

/-- The running task, refused twice, enters the queue and blocks. -/
theorem Sound.sleeps (h : Sound m) (hst : m.stage m.sched.current = .refused)
    (hlocked : m.locked = true) (hb : m.sched.Blocks m.sched.current s) :
    Sound ({ m with sched := s, waiters := m.waiters ++ [m.sched.current] }.enter m.sched.current
      .asleep) := by
  refine ⟨hb.placed h.placed, hb.staffed h.staffed.idle, fun t ht => ?_, fun t ht => hlocked,
    fun _ => ?_, fun t u ht hu => ?_, fun t ht => ?_, fun t ht hbl => ?_, fun hl => ?_⟩
  · have ht' : m.stage t ≠ .outside := by
      by_cases hme : t = m.sched.current
      · rw [hme, hst]
        simp
      · simpa [hme] using ht
    obtain ⟨hl, hi⟩ := h.engaged t ht'
    exact ⟨(hb.exited t).trans hl, hi⟩
  · obtain ⟨t, ht⟩ := h.holder hlocked
    exact ⟨t, enter_stage_of_ne (by simp [hst]) ht⟩
  · exact h.unique t u (stage_of_enter (by decide) ht) (stage_of_enter (by decide) hu)
  · by_cases hme : t = m.sched.current
    · simp [hme]
    · have hq : t ∈ m.waiters := by simpa [hme] using ht
      simpa [hme] using h.queued t hq
  · by_cases hme : t = m.sched.current
    · simp [hme]
    have hq : t ∈ m.waiters := by
      by_contra hout
      have hw : (m.stage t).waiting := by simpa [hme] using ht
      exact hb.awake t hme (fun hb' => hout (h.asleep t hw hb')) hbl
    simp [hq]
  · simp [hlocked] at hl

/-- The running task gives the mutex up; it has not woken anyone yet. -/
theorem Sound.releases (h : Sound m) (hst : m.stage m.sched.current = .holding) :
    Sound ({ m with locked := false }.enter m.sched.current .dropping) := by
  have hothers : ∀ t, t ≠ m.sched.current → m.stage t ≠ .holding :=
    fun t hne ht => hne (h.unique t _ ht hst)
  refine ⟨h.placed, h.staffed, fun t ht => ?_, fun t ht => ?_, fun hl => ?_, fun t u ht _ => ?_,
    fun t ht => ?_, fun t ht hb => ?_, fun _ hd => ?_⟩
  · by_cases hme : t = m.sched.current
    · rw [hme]
      exact h.engaged _ (by simp [hst])
    · exact h.engaged t (by simpa [hme] using ht)
  · by_cases hme : t = m.sched.current
    · simp [hme] at ht
    · exact absurd (by simpa [hme] using ht) (hothers t hme)
  · cases hl
  · by_cases hme : t = m.sched.current
    · simp [hme] at ht
    · exact absurd (by simpa [hme] using ht) (hothers t hme)
  · exact enter_stage_of_ne (by simp [hst]) (h.queued t ht)
  · by_cases hme : t = m.sched.current
    · simp [hme, Stage.waiting] at ht
    · exact h.asleep t (by simpa [hme] using ht) hb
  · exact absurd (by simp) (hd m.sched.current)

/-- The end of the drop: the first of the queue, if there is one, is awake and no
longer queued. -/
theorem Sound.wakes {ws : List Tid} (h : Sound m)
    (hst : m.stage m.sched.current = .dropping) (hm : m.sched.Moves s)
    (hws : ∀ t ∈ m.waiters, t ∈ ws ∨ (s.tasks t).state ≠ .blocked) (hsub : ∀ t ∈ ws, t ∈ m.waiters)
    (hfirst : ∀ t ∈ m.waiters, ∃ u ∈ m.waiters, (s.tasks u).state ≠ .blocked) :
    Sound ({ m with sched := s, waiters := ws }.enter m.sched.current .outside) := by
  have hwaits : ∀ t, m.stage t = .asleep → t ≠ m.sched.current := by
    rintro t ht rfl
    rw [hst] at ht
    cases ht
  refine ⟨hm.placed h.placed, hm.staffed h.staffed, fun t ht => ?_, fun t ht => ?_, fun hl => ?_,
    fun t u ht hu => ?_, fun t ht => ?_, fun t ht hb => ?_, fun hl hd hw => ?_⟩
  · by_cases hme : t = m.sched.current
    · simp [hme] at ht
    · obtain ⟨hl, hi⟩ := h.engaged t (by simpa [hme] using ht)
      exact ⟨(hm.exited t).trans hl, hi⟩
  · exact h.locked t (stage_of_enter (by decide) ht)
  · obtain ⟨t, ht⟩ := h.holder hl
    exact ⟨t, enter_stage_of_ne (by simp [hst]) ht⟩
  · exact h.unique t u (stage_of_enter (by decide) ht) (stage_of_enter (by decide) hu)
  · have hq := h.queued t (hsub t ht)
    simpa [hwaits t hq] using hq
  · by_cases hme : t = m.sched.current
    · simp [hme, Stage.waiting] at ht
    have hq : t ∈ m.waiters := by
      by_contra hout
      have hw : (m.stage t).waiting := by simpa [hme] using ht
      exact hm.awake t (fun hb' => hout (h.asleep t hw hb')) hb
    exact (hws t hq).resolve_right (fun hawake => hawake hb)
  · obtain ⟨t, ht⟩ := hw
    have hme : t ≠ m.sched.current := by
      rintro rfl
      simp [Stage.waiting] at ht
    have hw : (m.stage t).waiting := by simpa [hme] using ht
    by_cases hb : (m.sched.tasks t).state = .blocked
    · obtain ⟨u, hu, hawake⟩ := hfirst t (h.asleep t hw hb)
      have hq := h.queued u hu
      exact ⟨u, by simp [hwaits u hq, hq, Stage.waiting], hawake⟩
    · exact ⟨t, by simpa [hme] using hw, hm.awake t hb⟩

/-- A task inside the mutex is not terminated. -/
def Spares (m : System) (e : Event) : Prop :=
  ∀ t joiners, e = .kill t joiners → m.stage t = .outside

theorem Sound.not_queued (h : Sound m) (hst : m.stage t ≠ .asleep) : t ∉ m.waiters :=
  fun hin => hst (h.queued t hin)

/-- The running task moves on inside `lock` without having queued. -/
theorem Sound.enters {x : Stage} (h : Sound m) (hi : m.sched.current ≠ idle) (hx : x.waiting)
    (hst : m.stage m.sched.current ≠ .holding) (hst' : m.stage m.sched.current ≠ .asleep) :
    Sound (m.enter m.sched.current x) := by
  have hadv : Sound ({ m with waiters := m.waiters }.enter m.sched.current x) :=
    h.advance hi hx hst (fun _ _ => Iff.rfl) (h.not_queued hst')
  exact hadv

theorem step_sound (h : Sound m) (hf : Spares m e) (hstep : step e m = some m') : Sound m' := by
  cases e with
  | lock =>
    obtain ⟨hc, hstep⟩ := Option.ite_none_right_eq_some.mp hstep
    cases hstep
    exact h.enters hc.1 rfl (by simp [hc.2]) (by simp [hc.2])
  | attempt =>
    obtain ⟨hc, hstep⟩ := Option.ite_none_right_eq_some.mp hstep
    unfold System.swap at hstep
    have hi := (h.engaged m.sched.current (by simp [hc])).2
    split at hstep
    · cases hstep
      exact h.enters hi rfl (by simp [hc]) (by simp [hc])
    · next hfree =>
      cases hstep
      exact h.acquire (by simpa using hfree) hi (by simp [hc])
  | sleep =>
    obtain ⟨hc, hstep⟩ := Option.ite_none_right_eq_some.mp hstep
    unfold System.swap at hstep
    split at hstep
    · next hl =>
      obtain ⟨s, hs, rfl⟩ := Option.map_eq_some_iff.mp hstep
      exact h.sleeps hc hl (blocks_blockCurrent hs)
    · next hfree =>
      cases hstep
      have hi := (h.engaged m.sched.current (by simp [hc])).2
      exact h.acquire (by simpa using hfree) hi (by simp [hc])
  | resume =>
    obtain ⟨hc, hstep⟩ := Option.ite_none_right_eq_some.mp hstep
    cases hstep
    have hi := (h.engaged m.sched.current (by simp [hc])).2
    exact h.advance hi rfl (by simp [hc]) (fun t hne => by simp [hne]) (by simp)
  | tryLock =>
    obtain ⟨hc, hstep⟩ := Option.ite_none_right_eq_some.mp hstep
    unfold System.swap at hstep
    split at hstep
    · cases hstep
      exact h
    · next hfree =>
      cases hstep
      exact h.acquire (by simpa using hfree) hc.1 (by simp [hc.2])
  | release =>
    obtain ⟨hc, hstep⟩ := Option.ite_none_right_eq_some.mp hstep
    cases hstep
    exact h.releases hc
  | wakeOne =>
    obtain ⟨hc, hstep⟩ := Option.ite_none_right_eq_some.mp hstep
    split at hstep
    · next hw =>
      cases hstep
      exact h.wakes hc (.refl _) (by simp [hw]) (fun _ => id) (by simp [hw])
    next t rest hw =>
    cases hstep
    have hawake := wake_awake m.sched t
    refine h.wakes hc (moves_wake _ t) (fun u hu => ?_) (fun u hu => by simp [hw, hu])
      fun _ _ => ⟨t, by simp [hw], hawake⟩
    rw [hw] at hu
    rcases List.mem_cons.mp hu with rfl | hu'
    · exact .inr hawake
    · exact .inl hu'
  | block deadline =>
    obtain ⟨hc, hstep⟩ := Option.ite_none_right_eq_some.mp hstep
    obtain ⟨s, hs, rfl⟩ := Option.map_eq_some_iff.mp hstep
    have hout : (m.stage m.sched.current).waiting = false := by
      rcases hc with hc | hc <;> rw [hc] <;> rfl
    exact h.blocks hout (blocks_blockCurrent hs)
  | schedule =>
    cases hstep
    exact h.moves (moves_schedule _)
  | wake t =>
    cases hstep
    exact h.moves (moves_wake _ t)
  | tick now =>
    cases hstep
    exact h.moves (moves_tickLoop now _ 0 _)
  | kill t joiners =>
    obtain ⟨hc, hstep⟩ := Option.ite_none_right_eq_some.mp hstep
    cases hstep
    exact h.ends (hf t joiners rfl) (ends_killTask _ t joiners)
      (killTask_staffed h.staffed hc.1 hc.2)
  | exit joiners =>
    obtain ⟨hc, hstep⟩ := Option.ite_none_right_eq_some.mp hstep
    obtain ⟨s, hs, rfl⟩ := Option.map_eq_some_iff.mp hstep
    exact h.ends hc (ends_exitCurrent hs) (exitCurrent_staffed h.staffed hs)

/-- The task is alive and holds the mutex. -/
def System.Holds (m : System) (t : Tid) : Prop := m.sched.Live t ∧ m.stage t = .holding

/-- The task is alive and inside `lock`. -/
def System.Waits (m : System) (t : Tid) : Prop := m.sched.Live t ∧ (m.stage t).waiting

/-- The task is alive and in the middle of dropping its guard. -/
def System.Drops (m : System) (t : Tid) : Prop := m.sched.Live t ∧ m.stage t = .dropping

/-- In every run that terminates no task inside the mutex, at most one live task
holds it, and once no live task holds it or is dropping its guard, a mutex with
waiters is free and one of them can run. -/
theorem lock_sound {ids : List Tid} {es : List Event} {m : System}
    (hf : Throughout step Spares es (boot ids)) (hr : runs step es (boot ids) = some m) :
    (∀ t u, m.Holds t → m.Holds u → t = u) ∧
      ((∀ t, ¬ m.Holds t ∧ ¬ m.Drops t) → (∃ t, m.Waits t) →
        m.locked = false ∧ ∃ t, m.Waits t ∧ m.sched.Runnable t) := by
  have h : Sound m :=
    throughout_last (fun _ _ _ hs hfit hstep => step_sound hs hfit hstep) (sound_boot ids) hf hr
  refine ⟨fun t u ht hu => h.unique t u ht.2 hu.2, fun hnone hwaits => ?_⟩
  have hfree : m.locked = false := by
    by_contra hl
    obtain ⟨t, ht⟩ := h.holder (by simpa using hl)
    exact (hnone t).1 ⟨(h.engaged t (by simp [ht])).1, ht⟩
  have hdrop : ∀ t, m.stage t ≠ .dropping :=
    fun t ht => (hnone t).2 ⟨(h.engaged t (by simp [ht])).1, ht⟩
  obtain ⟨w, _, hw⟩ := hwaits
  obtain ⟨t, ht, hb⟩ := h.roused hfree hdrop ⟨w, hw⟩
  have hin : m.stage t ≠ .outside := by
    intro hout
    rw [hout] at ht
    cases ht
  obtain ⟨hl, hi⟩ := h.engaged t hin
  exact ⟨hfree, t, ⟨hl, ht⟩, h.placed.runnable hl hi hb⟩

/-- The stages after a run, from what its tasks entered. -/
def stages (l : List (Tid × Stage)) : Tid → Stage :=
  l.foldl (fun f x => update f x.1 x.2) fun _ => .outside

/-- Task 1 sleeps with the mutex, task 2 waits for it and gets it. -/
def handover : List Event :=
  [.schedule, .lock, .attempt, .block none, .lock, .attempt, .sleep, .wake 1, .schedule, .release,
    .wakeOne]

theorem lock_sound_handover :
    ∃ m, runs step handover (boot [1, 2]) = some m ∧ m.Waits 2 ∧ m.locked = false ∧
      ∃ t, m.Waits t ∧ m.sched.Runnable t := by
  have hspares : Throughout step Spares handover (boot [1, 2]) := by
    have hno : ∀ e ∈ handover, ∀ t joiners, e ≠ .kill t joiners := by simp [handover]
    exact throughout_mono (fun _ _ h t joiners he => absurd he (h t joiners)) (.of_forall hno _)
  obtain ⟨m, hm, hwaits, hstage⟩ : ∃ m, runs step handover (boot [1, 2]) = some m ∧ m.Waits 2 ∧
      m.stage = stages [(1, .trying), (1, .holding), (2, .trying), (2, .refused), (2, .asleep),
        (1, .dropping), (1, .outside)] :=
    ⟨_, rfl, ⟨rfl, rfl⟩, rfl⟩
  have hnone : ∀ t, ¬ m.Holds t ∧ ¬ m.Drops t := by
    intro t
    simp only [System.Holds, System.Drops, hstage, stages, List.foldl, update]
    by_cases h1 : t = 1 <;> by_cases h2 : t = 2 <;> simp [h1, h2]
  obtain ⟨hfree, hrun⟩ := (lock_sound hspares hm).2 hnone ⟨2, hwaits⟩
  exact ⟨m, hm, hwaits, hfree, hrun⟩

/-- Task 1 sleeps with the mutex, task 2 waits for it, task 3 terminates task 1. -/
def killedHolder : List Event :=
  [.schedule, .lock, .attempt, .block none, .lock, .attempt, .sleep, .kill 1 []]

/-- Task 1 sleeps with the mutex, tasks 2 and 3 wait for it, task 4 terminates
task 2, and task 1 drops its guard. -/
def killedWaiter : List Event :=
  [.schedule, .lock, .attempt, .block none, .lock, .attempt, .sleep, .lock, .attempt, .sleep,
    .kill 2 [], .wake 1, .block none, .release, .wakeOne]

/-- A terminated holder leaves the mutex locked for good. A terminated waiter stays
in the queue and takes the wake-up meant for the next one, who sleeps on although
the mutex is free. -/
theorem killed_inside :
    (∃ m, runs step killedHolder (boot [1, 2, 3]) = some m ∧ (∀ t, ¬ m.Holds t ∧ ¬ m.Drops t) ∧
      m.Waits 2 ∧ m.locked = true) ∧
    ∃ m, runs step killedWaiter (boot [1, 2, 3, 4]) = some m ∧ (∀ t, ¬ m.Holds t ∧ ¬ m.Drops t) ∧
      m.Waits 3 ∧ ∀ t, m.Waits t → ¬ m.sched.Runnable t := by
  constructor
  · obtain ⟨m, hm, hdead, hwaits, hlocked, hstage⟩ :
        ∃ m, runs step killedHolder (boot [1, 2, 3]) = some m ∧ ¬ m.sched.Live 1 ∧ m.Waits 2 ∧
          m.locked = true ∧ m.stage = stages [(1, .trying), (1, .holding), (2, .trying),
            (2, .refused), (2, .asleep)] :=
      ⟨_, rfl, by simp [RunQueue.Live]; rfl, ⟨rfl, rfl⟩, rfl, rfl⟩
    refine ⟨m, hm, fun t => ?_, hwaits, hlocked⟩
    simp only [System.Holds, System.Drops, hstage, stages, List.foldl, update]
    by_cases h1 : t = 1 <;> by_cases h2 : t = 2 <;> simp_all
  obtain ⟨m, hm, hdead, hwaits, hready, hcur, hstage⟩ :
      ∃ m, runs step killedWaiter (boot [1, 2, 3, 4]) = some m ∧ ¬ m.sched.Live 2 ∧ m.Waits 3 ∧
        m.sched.ready = [] ∧ m.sched.current = 1 ∧ m.stage = stages [(1, .trying), (1, .holding),
          (2, .trying), (2, .refused), (2, .asleep), (3, .trying), (3, .refused), (3, .asleep),
          (1, .dropping), (1, .outside)] :=
    ⟨_, rfl, by simp [RunQueue.Live]; rfl, ⟨rfl, rfl⟩, rfl, rfl, rfl⟩
  have hother : ∀ t, m.stage t = if t = 2 ∨ t = 3 then .asleep else .outside := by
    intro t
    simp only [hstage, stages, List.foldl, update]
    by_cases h1 : t = 1 <;> by_cases h2 : t = 2 <;> by_cases h3 : t = 3 <;> simp_all
  refine ⟨m, hm, fun t => ?_, hwaits, fun t ht hrun => ?_⟩
  · rw [System.Holds, System.Drops, hother]
    split <;> simp
  rcases hrun with rfl | hin
  · rw [System.Waits, hother, hcur] at ht
    cases ht.2
  · rw [hready] at hin
    cases hin

end Fastros.Sync
