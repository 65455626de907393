import Fastros.Lib.Run
import Fastros.Ssh.Sequence

/-!
# Writers and the end of a key exchange

`Sender::send` by any number of tasks, while the connection task starts and ends key
exchanges and closes the sender. What runs under the lock is one step, and so is a
store with the wake-up that follows it; `send_kex`, which looks at neither flag, is
left out. A woken writer looks only at `in_kex`: closed during a key exchange, it goes
back to sleep.
-/

namespace Fastros.Ssh

open Lib.Run

/-- Where a call of `send` stands. -/
inductive Stage
  /-- At the head of the loop. -/
  | entered
  /-- In `wait_until`, about to look at `in_kex`. -/
  | waiting
  /-- Blocked until `kex_done` is woken. -/
  | asleep
  | returned (r : Except SshError Unit)

/-- The calls are told apart by `C`; one that is still to be made has not had a turn. -/
structure Sender (C : Type) where
  inner : SendHalf
  stage : C → Stage

inductive Stir (C : Type)
  /-- The call goes on; `sent` tells whether the stream takes the packet. -/
  | turn (c : C) (random : Nat → UInt8) (sent : Bool)
  | startKex
  | finishKex
  | close

namespace Sender

variable {C : Type} [DecidableEq C] (x : Crypto) (payload : C → Bytes)

def new : Sender C := ⟨.new, fun _ => .entered⟩

def enter (s : Sender C) (c : C) (g : Stage) : Sender C :=
  { s with stage := Function.update s.stage c g }

/-- `kex_done.wake_all`. -/
def wakeAll (s : Sender C) : Sender C :=
  { s with stage := fun c => match s.stage c with
      | .asleep => .waiting
      | g => g }

def step : Stir C → Sender C → Sender C
  | .turn c random sent, s =>
    match s.stage c with
    | .entered =>
      if s.inner.closed then s.enter c (.returned (.error .closed))
      else if s.inner.inKex then s.enter c .waiting
      else { s with inner := s.inner.sendPacket x (payload c) random }.enter c
        (.returned (if sent then .ok () else .error .io))
    | .waiting => s.enter c (if s.inner.inKex then .asleep else .entered)
    | _ => s
  | .startKex, s => { s with inner := { s.inner with inKex := true } }
  | .finishKex, s => { s with inner := { s.inner with inKex := false } }.wakeAll
  | .close, s => { s with inner := { s.inner with closed := true } }.wakeAll

end Sender

open Sender

variable {C : Type} [DecidableEq C] (x : Crypto) (payload : C → Bytes) {s : Sender C} {c : C}

/-- How often the call `c` gets to run. -/
def turns (c : C) : List (Stir C) → Nat
  | [] => 0
  | .turn d _ _ :: es => turns c es + if d = c then 1 else 0
  | _ :: es => turns c es

theorem enter_stage (d : C) (g : Stage) :
    (s.enter d g).stage c = if c = d then g else s.stage c := Function.update_apply ..

theorem enter_inner (d : C) (g : Stage) : (s.enter d g).inner = s.inner := rfl

theorem sendPacket_flags (h : SendHalf) (p : Bytes) (random : Nat → UInt8) :
    (h.sendPacket x p random).inKex = h.inKex ∧ (h.sendPacket x p random).closed = h.closed :=
  ⟨rfl, rfl⟩

/-- Closed, outside a key exchange, and the call `c` at most `n` turns from its end. -/
def Finishes (c : C) (n : Nat) (s : Sender C) : Prop :=
  s.inner.closed = true ∧ s.inner.inKex = false ∧
    match s.stage c with
    | .returned _ => True
    | .entered => 1 ≤ n
    | .waiting => 2 ≤ n
    | .asleep => False

theorem finishes_step {n : Nat} (h : Finishes c n s) (e : Stir C) (he : e ≠ .startKex) :
    Finishes c (n - turns c [e]) (step x payload e s) := by
  unfold Finishes at h ⊢
  cases e with
  | turn d random sent =>
    by_cases hd : d = c
    · subst hd
      cases hg : s.stage d <;> simp_all [step, enter_stage, enter_inner, turns]
      omega
    · cases hg : s.stage d <;> grind [step, enter_stage, enter_inner, turns, sendPacket_flags]
  | startKex => exact absurd rfl he
  | finishKex | close => grind [step, wakeAll, turns]

theorem finishes_run : ∀ (es : List (Stir C)) {s : Sender C} {n : Nat}, Finishes c n s →
    .startKex ∉ es → Finishes c (n - turns c es) (run (step x payload) es s)
  | [], _, _, h, _ => h
  | e :: es, s, n, h, he => by
    have h' := finishes_run es (finishes_step x payload h e fun h => he (h ▸ List.mem_cons_self))
      fun h => he (List.mem_cons_of_mem _ h)
    have ht : turns c (e :: es) = turns c [e] + turns c es := by cases e <;> simp [turns]; omega
    rwa [Nat.sub_sub, ← ht] at h'

/-- Closed outside a key exchange, with none started after it, every call ends with its
second turn at the latest. -/
theorem send_returns (s : Sender C) (hk : s.inner.inKex = false) (fs : List (Stir C))
    (hf : .startKex ∉ fs) (c : C) (ht : 2 ≤ turns c fs) :
    ∃ r, (run (step x payload) (.close :: fs) s).stage c = .returned r := by
  have h : Finishes c 2 (step x payload .close s) := by
    refine ⟨rfl, hk, ?_⟩
    cases hg : s.stage c <;> simp_all [step, wakeAll]
  have he := (finishes_run x payload fs h hf).2.2
  rw [Nat.sub_eq_zero_of_le ht] at he
  grind [run]

/-- The writer has slept through a key exchange. -/
theorem send_returns_once : ∃ r, (run (step idle fun _ => [])
    [.close, .turn 0 (fun _ => 0) true, .turn 0 (fun _ => 0) true] (run (step idle fun _ => [])
      [.startKex, .turn 0 (fun _ => 0) true, .turn 0 (fun _ => 0) true, .finishKex]
      (new : Sender Nat))).stage 0 = .returned r :=
  send_returns _ _ _ rfl _ (by simp) 0 (Nat.le_refl 2)

/-- In `wait_until` during a key exchange. -/
def Stuck (c : C) (s : Sender C) : Prop :=
  s.inner.inKex = true ∧ (s.stage c = .waiting ∨ s.stage c = .asleep)

theorem stuck_step (s : Sender C) (e : Stir C) (h : Stuck c s) (he : e ≠ .finishKex) :
    Stuck c (step x payload e s) := by
  unfold Stuck at h ⊢
  cases e with
  | turn d random sent =>
    cases hg : s.stage d <;> grind [step, enter_stage, enter_inner, sendPacket_flags]
  | startKex => exact ⟨rfl, h.2⟩
  | finishKex => exact absurd rfl he
  | close => grind [step, wakeAll]

/-- Closed during a key exchange that does not end, a call of `send` does not end either. -/
theorem send_sleeps_on : ∃ es : List (Stir Nat), ∀ fs, .finishKex ∉ fs → ∀ r,
    (run (step idle fun _ => []) (.close :: fs) (run (step idle fun _ => []) es new)).stage 0 ≠
      .returned r := by
  refine ⟨[.startKex, .turn 0 (fun _ => 0) true], fun fs hf r hr => ?_⟩
  have hall : ∀ e ∈ Stir.close :: fs, e ≠ .finishKex := by
    rintro e he rfl
    simp_all
  have h := along_invariant (stuck_step (c := 0) idle fun _ => []) (.close :: fs)
    (run (step idle fun _ => []) [.startKex, .turn 0 (fun _ => 0) true] new) ⟨rfl, .inl rfl⟩
    (along_of_forall hall _) (Stir.close :: fs).length
  rw [List.take_length] at h
  rcases h.2 with hg | hg <;> simp [hg] at hr

end Fastros.Ssh
