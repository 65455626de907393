import Fastros.Errno

/-!
# Waiting on an epoll instance

`epoll_ctl` and `epoll_wait` on one instance, with the threads of any processes
that wait on it. `epoll_wait` copies the interest list when it starts and looks
only at the copy from then on, so what is registered later is never seen by it;
what was deleted before is not in the copy.
-/

namespace Fastros.Net

def epollIn : UInt32 := 0x001
def epollOut : UInt32 := 0x004
def epollErr : UInt32 := 0x008
def epollHup : UInt32 := 0x010

structure Poll where
  readable : Bool := false
  writable : Bool := false
  error : Bool := false
  hangup : Bool := false
  deriving DecidableEq, Repr

/-- As the bits of an event. -/
def Poll.events (p : Poll) : UInt32 :=
  (if p.readable then epollIn else 0) ||| (if p.writable then epollOut else 0) |||
    (if p.error then epollErr else 0) ||| (if p.hangup then epollHup else 0)

/-- An open file is a number; the interest holds it weakly. -/
structure Interest where
  fd : Int
  events : UInt32
  data : UInt64
  file : Nat
  deriving DecidableEq, Repr

/-- What is delivered of a file's readiness: errors and hangups always. -/
def Interest.wants (i : Interest) (p : Poll) : UInt32 :=
  p.events &&& (i.events ||| epollErr ||| epollHup)

/-- A call of `epoll_wait`: not made yet, waiting with its copy of the interests and
perhaps asleep on `SOCK_WQ`, or back with the events it got. -/
inductive Waiter where
  | idle
  | blocked (proc : Nat) (interests : List Interest) (maxevents : Nat) (asleep : Bool)
  | done (ready : List (UInt64 × UInt32))
  deriving DecidableEq, Repr

structure Epoll where
  interest : List Interest := []
  /-- The descriptor table of each process. -/
  fds : Nat → Int → Option Nat
  /-- The readiness of a file for a task; a signalfd reads the signals of the task that asks. -/
  poll : Nat → Nat → Poll
  waiters : Nat → Waiter := fun _ => .idle

inductive Ctl where
  | add (events : UInt32) (data : UInt64)
  | mod (events : UInt32) (data : UInt64)
  | del
  deriving DecidableEq, Repr

/-- `epoll_ctl` by a process once the event is read. -/
def Epoll.epollCtl (s : Epoll) (proc : Nat) (fd : Int) : Ctl → Except Errno Unit × Epoll
  | .add events data =>
    match s.fds proc fd with
    | none => (.error .ebadf, s)
    | some cur =>
      if (s.interest.find? fun i => i.fd == fd).any fun i => i.file == cur then (.error .eexist, s)
      else (.ok (), { s with
        interest := s.interest.filter (fun i => i.fd != fd) ++ [⟨fd, events, data, cur⟩] })
  | .mod events data =>
    match s.interest.findIdx? fun i => i.fd == fd with
    | none => (.error .enoent, s)
    | some k => (.ok (), { s with
        interest := s.interest.modify k fun i => { i with events := events, data := data } })
  | .del =>
    if s.interest.any fun i => i.fd == fd then
      (.ok (), { s with interest := s.interest.filter fun i => i.fd != fd })
    else (.error .enoent, s)

/-- `ready_events`: nothing when the descriptor is not the registered file any more. -/
def Epoll.readyEvents (s : Epoll) (w proc : Nat) (i : Interest) : UInt32 :=
  if s.fds proc i.fd = some i.file then i.wants (s.poll i.file w) else 0

def Epoll.collect (s : Epoll) (w proc : Nat) (interests : List Interest) (maxevents : Nat) :
    List (UInt64 × UInt32) :=
  ((interests.filter fun i => s.readyEvents w proc i != 0).map
    fun i => (i.data, s.readyEvents w proc i)).take maxevents

def Epoll.setWaiter (s : Epoll) (w : Nat) (v : Waiter) : Epoll :=
  { s with waiters := fun i => if i = w then v else s.waiters i }

def Waiter.wake : Waiter → Waiter
  | .blocked proc interests maxevents _ => .blocked proc interests maxevents false
  | v => v

/-- `SOCK_WQ.wake_all`. -/
def Epoll.wakeAll (s : Epoll) : Epoll := { s with waiters := fun i => (s.waiters i).wake }

/-- The call up to its first look. -/
def Epoll.begin (s : Epoll) (w proc : Nat) (maxevents : Int) : Epoll :=
  if s.waiters w = .idle ∧ maxevents.toNat ≠ 0 then
    s.setWaiter w (.blocked proc s.interest maxevents.toNat false)
  else s

/-- One round of `wait_until_interruptible`: back with events, back without them
when the deadline has passed or a signal is pending, else to sleep. -/
def Epoll.look (s : Epoll) (w : Nat) (stops : Bool) : Epoll :=
  match s.waiters w with
  | .blocked proc interests maxevents _ =>
    let out := s.collect w proc interests maxevents
    if out = [] then
      if stops then s.setWaiter w (.done []) else s.setWaiter w (.blocked proc interests maxevents true)
    else s.setWaiter w (.done out)
  | _ => s

/-- What changes the readiness of a file. -/
inductive Source where
  /-- A pipe, an eventfd, a signal, or a socket through the network stack. -/
  | woken
  /-- Input of a terminal, which wakes only its own readers. -/
  | terminal
  /-- A new mask of a signalfd. -/
  | setMask
  /-- A Unix socket is connected; the queue is woken before that. -/
  | connected
  deriving DecidableEq, Repr

def Source.wakes : Source → Bool
  | .woken => true
  | _ => false

inductive Act where
  | ctl (proc : Nat) (fd : Int) (op : Ctl)
  /-- A descriptor is opened, closed or replaced. -/
  | setFd (proc : Nat) (fd : Int) (file : Option Nat)
  /-- A file's readiness changes, for each task. -/
  | change (file : Nat) (p : Nat → Poll) (source : Source)
  | begin (w proc : Nat) (maxevents : Int)
  | look (w : Nat) (stops : Bool)

def Epoll.step : Act → Epoll → Epoll
  | .ctl proc fd op, s => (s.epollCtl proc fd op).2
  | .setFd proc fd file, s =>
    { s with fds := fun p d => if p = proc ∧ d = fd then file else s.fds p d }
  | .change file p source, s =>
    let s' := { s with poll := fun f => if f = file then p else s.poll f }
    if source.wakes then s'.wakeAll else s'
  | .begin w proc maxevents, s => s.begin w proc maxevents
  | .look w stops, s => s.look w stops

/-- An endless run: every call that is awake looks again. -/
structure Fair (σ : Nat → Epoll) (act : Nat → Act) : Prop where
  step : ∀ t, σ (t + 1) = Epoll.step (act t) (σ t)
  looks : ∀ w t proc is m, (σ t).waiters w = .blocked proc is m false →
    ∃ t', t ≤ t' ∧ ∃ stops, act t' = .look w stops

/-- No interest is registered or modified, no registered file comes to its number, and
none is made ready by what does not wake the queue. -/
def Act.Steady (s : Epoll) : Act → Prop
  | .ctl proc fd op => (s.epollCtl proc fd op).2.interest ⊆ s.interest
  | .setFd proc fd file => ∀ i ∈ s.interest, i.fd = fd → file = some i.file → s.fds proc fd = file
  | .change file p source => source.wakes = true ∨ ∀ i ∈ s.interest, i.file = file →
      ∀ w, i.wants (p w) ≠ 0 → i.wants (s.poll file w) ≠ 0
  | _ => True

/-- A registered interest is ready for the task of a process. -/
def Epoll.Ready (s : Epoll) (w proc : Nat) : Prop := ∃ i ∈ s.interest, s.readyEvents w proc i ≠ 0

variable {s : Epoll} {w proc m : Nat} {is : List Interest} {a : Bool}

theorem mem_collect {e : UInt64 × UInt32} (h : e ∈ s.collect w proc is m) :
    ∃ i ∈ is, i.data = e.1 := by
  obtain ⟨i, hi, he⟩ := List.mem_map.mp (List.mem_of_mem_take h)
  exact ⟨i, List.mem_of_mem_filter hi, by rw [← he]⟩

theorem collect_ne_nil (hm : m ≠ 0) {i : Interest} (hi : i ∈ is) (hr : s.readyEvents w proc i ≠ 0) :
    s.collect w proc is m ≠ [] := by
  have hmem : i ∈ is.filter fun i => s.readyEvents w proc i != 0 :=
    List.mem_filter.mpr ⟨hi, by simpa using hr⟩
  intro h
  rcases List.take_eq_nil_iff.mp h with h0 | h0
  · exact hm h0
  · rw [List.map_eq_nil_iff.mp h0] at hmem
    cases hmem

open Epoll

theorem epollCtl_frame (fd : Int) (op : Ctl) :
    (s.epollCtl proc fd op).2.waiters = s.waiters ∧ (s.epollCtl proc fd op).2.fds = s.fds ∧
      (s.epollCtl proc fd op).2.poll = s.poll := by
  cases op <;> simp only [epollCtl] <;> split <;> (try split) <;> exact ⟨rfl, rfl, rfl⟩

/-- What a step does to a call that waits: it goes on waiting with its copy, or its own
look ends it. -/
theorem step_blocked (h : s.waiters w = .blocked proc is m a) (x : Act) :
    (∃ b, (step x s).waiters w = .blocked proc is m b) ∨
      ∃ stops, x = .look w stops ∧ (step x s).waiters w = .done (s.collect w proc is m) := by
  cases x with
  | ctl p fd op => exact .inl ⟨a, by rw [← h, step, (epollCtl_frame fd op).1]⟩
  | setFd p fd file => exact .inl ⟨a, h⟩
  | change file p source =>
    simp only [step]
    split
    · exact .inl ⟨false, by simp [wakeAll, h, Waiter.wake]⟩
    · exact .inl ⟨a, h⟩
  | begin w' p max =>
    refine Or.inl ⟨a, ?_⟩
    simp only [step, begin]
    split
    · rename_i hidle
      have hne : w ≠ w' := fun hw => by rw [← hw, h] at hidle; cases hidle.1
      simp [setWaiter, hne, h]
    · exact h
  | look w' stops =>
    simp only [step, look]
    by_cases hw : w = w'
    · subst hw
      simp only [h]
      split
      · rename_i hout
        split
        · exact .inr ⟨stops, rfl, by simp [setWaiter, hout]⟩
        · exact .inl ⟨true, by simp [setWaiter]⟩
      · exact .inr ⟨stops, rfl, by simp [setWaiter]⟩
    · refine Or.inl ⟨a, ?_⟩
      cases s.waiters w' with
      | blocked p is' m' b =>
        simp only
        split
        · split <;> simp [setWaiter, hw, h]
        · simp [setWaiter, hw, h]
      | idle | done => exact h

theorem step_done {out : List (UInt64 × UInt32)} (h : s.waiters w = .done out) (x : Act) :
    (step x s).waiters w = .done out := by
  cases x with
  | ctl p fd op => rw [← h, step, (epollCtl_frame fd op).1]
  | setFd p fd file => exact h
  | change file p source =>
    simp only [step]
    split
    · simp [wakeAll, h, Waiter.wake]
    · exact h
  | begin w' p max => grind [step, begin, setWaiter]
  | look w' stops => grind [step, look, setWaiter]

theorem readyEvents_ne_zero {i : Interest} : s.readyEvents w proc i ≠ 0 ↔
    s.fds proc i.fd = some i.file ∧ i.wants (s.poll i.file w) ≠ 0 := by
  unfold readyEvents
  split <;> simp [*]

theorem look_frame (w' : Nat) (stops : Bool) : (s.look w' stops).interest = s.interest ∧
    (s.look w' stops).fds = s.fds ∧ (s.look w' stops).poll = s.poll := by
  unfold look
  split
  · dsimp only
    split
    · split <;> exact ⟨rfl, rfl, rfl⟩
    · exact ⟨rfl, rfl, rfl⟩
  · exact ⟨rfl, rfl, rfl⟩

theorem begin_frame (w' p : Nat) (max : Int) : (s.begin w' p max).interest = s.interest ∧
    (s.begin w' p max).fds = s.fds ∧ (s.begin w' p max).poll = s.poll := by
  unfold begin
  split <;> exact ⟨rfl, rfl, rfl⟩

theorem Act.Steady.sub {x : Act} (hx : x.Steady s) : (step x s).interest ⊆ s.interest := by
  cases x with
  | ctl p fd op => exact hx
  | setFd p fd file => exact List.Subset.refl _
  | change file p source =>
    simp only [step]
    split <;> exact List.Subset.refl _
  | begin w' p max => rw [step, (begin_frame w' p max).1]; exact List.Subset.refl _
  | look w' stops => rw [step, (look_frame w' stops).1]; exact List.Subset.refl _

/-- A step that is steady makes no interest ready without waking every call. -/
theorem ready_of_step {x : Act} (hx : x.Steady s) (h : (step x s).Ready w proc) :
    s.Ready w proc ∨ ∃ file p source, x = .change file p source ∧ source.wakes = true := by
  obtain ⟨i, hi, hr⟩ := h
  have hi' := hx.sub hi
  cases x with
  | ctl p fd op =>
    obtain ⟨-, hfds, hpoll⟩ := @epollCtl_frame s p fd op
    refine .inl ⟨i, hi', ?_⟩
    simpa only [step, readyEvents, hfds, hpoll] using hr
  | setFd p fd file =>
    refine .inl ⟨i, hi, ?_⟩
    rw [readyEvents_ne_zero] at hr ⊢
    refine ⟨?_, hr.2⟩
    by_cases hp : proc = p ∧ i.fd = fd
    · have hfile : file = some i.file := (if_pos hp).symm.trans hr.1
      rw [hp.1, hp.2, hx i hi hp.2 hfile, hfile]
    · exact (if_neg hp).symm.trans hr.1
  | change file p source =>
    rcases hx with hwakes | hx
    · exact .inr ⟨file, p, source, rfl, hwakes⟩
    refine .inl ⟨i, hi', ?_⟩
    have hr' : s.fds proc i.fd = some i.file ∧
        i.wants ((if i.file = file then p else s.poll i.file) w) ≠ 0 := by
      rw [readyEvents_ne_zero] at hr
      simp only [step] at hr
      split at hr <;> exact hr
    refine readyEvents_ne_zero.2 ⟨hr'.1, ?_⟩
    by_cases hfile : i.file = file
    · rw [if_pos hfile] at hr'
      exact hfile ▸ hx i hi' hfile w hr'.2
    · rw [if_neg hfile] at hr'
      exact hr'.2
  | begin w' p max => exact .inl ⟨i, hi', by simpa only [step, readyEvents, begin_frame] using hr⟩
  | look w' stops => exact .inl ⟨i, hi', by simpa only [step, readyEvents, look_frame] using hr⟩

/-- A call that sleeps after a step slept before it, or has just found nothing; it is not
a step that wakes the queue. -/
theorem asleep_of_step {x : Act} (h : (step x s).waiters w = .blocked proc is m true) :
    (s.waiters w = .blocked proc is m true ∨ s.collect w proc is m = []) ∧
      ∀ file p source, x = .change file p source → source.wakes = false := by
  cases x with
  | ctl p fd op =>
    rw [step, (epollCtl_frame fd op).1] at h
    exact ⟨.inl h, nofun⟩
  | setFd p fd file => exact ⟨.inl h, nofun⟩
  | change file p source =>
    simp only [step] at h
    split at h
    · cases hv : s.waiters w <;> simp [wakeAll, hv, Waiter.wake] at h
    next hwakes =>
      refine ⟨.inl h, fun file' p' source' he => ?_⟩
      cases he
      simpa using hwakes
  | begin w' p max =>
    refine ⟨.inl ?_, nofun⟩
    simp only [step, begin] at h
    split at h
    · by_cases hw : w = w'
      · simp [setWaiter, hw] at h
      · simpa [setWaiter, hw] using h
    · exact h
  | look w' stops =>
    refine ⟨?_, nofun⟩
    by_cases hw : w = w'
    · subst hw
      simp only [step, look] at h
      grind [setWaiter]
    · left
      simp only [step, look] at h
      grind [setWaiter]

/-- The copy covers what is registered, and the call sleeps only while nothing of that
is ready. -/
structure Epoll.Covered (s : Epoll) (w proc : Nat) (is : List Interest) (m : Nat) : Prop where
  sub : s.interest ⊆ is
  asleep : s.waiters w = .blocked proc is m true → ¬ s.Ready w proc

theorem Epoll.Covered.step (h : s.Covered w proc is m) (hm : m ≠ 0) {x : Act} (hx : x.Steady s) :
    (Epoll.step x s).Covered w proc is m := by
  refine ⟨fun i hi => h.sub (hx.sub hi), fun hw hready => ?_⟩
  obtain ⟨hbefore, hnot⟩ := asleep_of_step hw
  rcases ready_of_step hx hready with hready | ⟨file, p, source, rfl, hwakes⟩
  · rcases hbefore with hw | hnil
    · exact h.asleep hw hready
    · obtain ⟨i, hi, hr⟩ := hready
      exact collect_ne_nil hm (h.sub hi) hr hnil
  · rw [hnot file p source rfl] at hwakes
    cases hwakes

section

variable {σ : Nat → Epoll} {act : Nat → Act} (hf : Fair σ act) {t : Nat}

include hf

/-- A call that waits goes on waiting with its copy, or is back with events of it. -/
theorem run_blocked (h : (σ t).waiters w = .blocked proc is m a) (n : Nat) :
    (∃ b, (σ (t + n)).waiters w = .blocked proc is m b) ∨
      ∃ out, (σ (t + n)).waiters w = .done out ∧ ∀ e ∈ out, ∃ i ∈ is, i.data = e.1 := by
  induction n with
  | zero => exact .inl ⟨a, h⟩
  | succ n ih =>
    rw [← Nat.add_assoc, hf.step]
    rcases ih with ⟨b, hw⟩ | ⟨out, hw, hout⟩
    · rcases step_blocked hw (act (t + n)) with h | ⟨_, _, h⟩
      · exact .inl h
      · exact .inr ⟨_, h, fun e he => mem_collect he⟩
    · exact .inr ⟨out, step_done hw _, hout⟩

theorem run_covered (h : (σ t).Covered w proc is m) (hm : m ≠ 0)
    (hs : ∀ t', t ≤ t' → (act t').Steady (σ t')) (n : Nat) : (σ (t + n)).Covered w proc is m := by
  induction n with
  | zero => exact h
  | succ n ih =>
    rw [← Nat.add_assoc, hf.step]
    exact ih.step hm (hs _ (Nat.le_add_right t n))

/-- A call that is awake and would find events at every moment comes back with some. -/
theorem run_returns (h : (σ t).waiters w = .blocked proc is m false)
    (hfull : ∀ t', t ≤ t' → (σ t').collect w proc is m ≠ []) :
    ∃ t' out, t < t' ∧ out ≠ [] ∧ (σ t').waiters w = .done out := by
  -- it waits at each moment up to the one when it comes back
  have hgoes : ∀ n, (∃ b, (σ (t + n)).waiters w = .blocked proc is m b) ∨
      ∃ t' out, t < t' ∧ out ≠ [] ∧ (σ t').waiters w = .done out := by
    intro n
    induction n with
    | zero => exact .inl ⟨false, h⟩
    | succ n ih =>
      rcases ih with ⟨b, hw⟩ | h
      · rcases step_blocked hw (act (t + n)) with h | ⟨_, _, h⟩
        · exact .inl (by rw [← Nat.add_assoc, hf.step]; exact h)
        · exact .inr ⟨t + n + 1, _, by omega, hfull (t + n) (by omega), by rw [hf.step]; exact h⟩
      · exact .inr h
  obtain ⟨t', ht', stops, hact⟩ := hf.looks w _ _ _ _ h
  obtain ⟨n, rfl⟩ := Nat.exists_eq_add_of_le ht'
  rcases hgoes n with ⟨b, hw⟩ | h
  · refine ⟨t + n + 1, _, by omega, hfull (t + n) (by omega), ?_⟩
    rw [hf.step, show act (t + n) = .look w stops from hact, step, look, hw]
    simp [hfull (t + n) (by omega), setWaiter]
  · exact h

end

/-- A run from a state. -/
def runFrom (s : Epoll) (act : Nat → Act) : Nat → Epoll
  | 0 => s
  | t + 1 => Epoll.step (act t) (runFrom s act t)

/-- Only task 0 calls. -/
def Act.Alone : Act → Prop
  | .begin w _ _ | .look w _ => w = 0
  | _ => True

theorem runFrom_idle {act : Nat → Act} (hs : ∀ w, s.waiters w = .idle) (ha : ∀ t, (act t).Alone)
    (hw : w ≠ 0) (t : Nat) : (runFrom s act t).waiters w = .idle := by
  induction t with
  | zero => exact hs w
  | succ t ih =>
    have hat := ha t
    rw [runFrom]
    cases hx : act t with
    | ctl p fd op => rw [step, (epollCtl_frame fd op).1, ih]
    | setFd p fd file => exact ih
    | change file p source =>
      simp only [step]
      split
      · simp [wakeAll, ih, Waiter.wake]
      · exact ih
    | begin w' p max =>
      rw [hx] at hat
      cases hat
      grind [step, begin, setWaiter]
    | look w' stops =>
      rw [hx] at hat
      cases hat
      grind [step, look, setWaiter]

/-- A run with a single call that looks again and again is fair. -/
theorem fair_runFrom {act : Nat → Act} {n : Nat} (hs : ∀ w, s.waiters w = .idle)
    (ha : ∀ t, (act t).Alone) (hlook : ∀ t, n ≤ t → act t = .look 0 false) :
    Fair (runFrom s act) act where
  step _ := rfl
  looks w t proc is m h := by
    by_cases hw : w = 0
    · exact ⟨t + n, by omega, false, hw ▸ hlook _ (by omega)⟩
    · rw [runFrom_idle hs ha hw] at h
      cases h

/-- File 7 is descriptor 5 of process 1. -/
def lone (interest : List Interest) (readable : Bool) : Epoll where
  interest := interest
  fds := fun p d => if p = 1 ∧ d = 5 then some 7 else none
  poll := fun _ _ => { readable := readable }

/-- A call looks, finds nothing and sleeps; then the pipe is written to. -/
def pipeAct : Nat → Act
  | 0 => .begin 0 1 1
  | 1 => .look 0 false
  | 2 => .change 7 (fun _ => { readable := true }) .woken
  | _ => .look 0 false

def pipeRun : Nat → Epoll := runFrom (lone [⟨5, epollIn, 9, 7⟩] false) pipeAct

theorem pipeRun_ready (t : Nat) : (pipeRun (t + 3)).Ready 0 1 := by
  have hframe : (pipeRun (t + 3)).interest = (pipeRun 3).interest ∧
      (pipeRun (t + 3)).fds = (pipeRun 3).fds ∧ (pipeRun (t + 3)).poll = (pipeRun 3).poll := by
    induction t with
    | zero => exact ⟨rfl, rfl, rfl⟩
    | succ t ih =>
      have hlook : pipeRun (t + 4) = (pipeRun (t + 3)).look 0 false := rfl
      simpa only [hlook, look_frame] using ih
  refine ⟨⟨5, epollIn, 9, 7⟩, by rw [hframe.1]; decide, ?_⟩
  simp only [readyEvents, hframe]
  decide

/-- The file is readable. A call begins with an empty list, another thread adds the
descriptor, and the call looks at every later moment. -/
def lateAct : Nat → Act
  | 0 => .begin 0 1 1
  | 1 => .ctl 1 5 (.add epollIn 9)
  | _ => .look 0 false

def lateRun : Nat → Epoll := runFrom (lone [] true) lateAct

/-- The call waits with its empty copy. -/
theorem lateRun_waiters (t : Nat) : ∃ b, (lateRun (t + 1)).waiters 0 = .blocked 1 [] 1 b := by
  induction t with
  | zero => exact ⟨false, rfl⟩
  | succ t ih =>
    obtain ⟨b, hb⟩ := ih
    cases t with
    | zero => exact ⟨false, rfl⟩
    | succ t =>
      have hstep : lateRun (t + 3) = (lateRun (t + 2)).setWaiter 0 (.blocked 1 [] 1 true) := by
        show (lateRun (t + 2)).look 0 false = _
        rw [look, hb]
        rfl
      exact ⟨true, by rw [hstep]; rfl⟩

end Fastros.Net
