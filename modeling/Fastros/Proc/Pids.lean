import Fastros.Lib.Run

/-!
# The tasks of a container

The `pids` counter of a container's cgroup, along every path on which a task starts or
ends. `execve` drops the threads it kills from the task list, and not from the counter;
`exit` takes the siblings it sends a `SIGKILL` off the counter while they still run.
-/

namespace Fastros.Pids

open Lib.Run Finset

structure Thread where
  owner : Nat
  tid : Nat
  deriving DecidableEq

structure Container where
  pidsLimit : Nat
  pids : Nat := 0
  /-- The task lists of the processes. -/
  tasks : Finset Thread := ∅
  /-- The tasks that have not ended. -/
  live : Finset Thread := ∅
  /-- The processes whose `exit` is set. -/
  exited : Finset Nat := ∅
  nextTid : Nat := 1

/-- `made` tells whether `make_task` succeeds, `space` whether there is an address space. -/
inductive Event
  | fork (made : Bool)
  | clone (t : Thread) (space made : Bool)
  | exitThread (t : Thread)
  | exit (t : Thread)
  | execve (t : Thread)

namespace Container

variable (c : Container)

def tryAddPid : Option Container :=
  if c.pidsLimit ≠ 0 ∧ c.pidsLimit ≤ c.pids then none else some { c with pids := c.pids + 1 }

def subPid (n : Nat) : Container := { c with pids := c.pids - n }

/-- `make_task`, and what follows it in `spawn` and `start_thread`. -/
def makeTask (made : Bool) (owner : Nat) : Container :=
  if made then { c with
    tasks := insert ⟨owner, c.nextTid⟩ c.tasks
    live := insert ⟨owner, c.nextTid⟩ c.live
    nextTid := c.nextTid + 1 }
  else c.subPid 1

def spawn (made : Bool) : Container :=
  match c.tryAddPid with
  | none => c
  | some c => c.makeTask made c.nextTid

def startThread (t : Thread) (space made : Bool) : Container :=
  match c.tryAddPid with
  | none => c
  | some c => if space then c.makeTask made t.owner else c

/-- The siblings get a `SIGKILL`, on which they come here themselves. -/
def exitCurrent (t : Thread) : Container :=
  if t.owner ∈ c.exited then { c with live := c.live.erase t }
  else { c.subPid (c.tasks.filter (·.owner = t.owner)).card with
    exited := insert t.owner c.exited
    tasks := c.tasks.filter (¬ ·.owner = t.owner)
    live := c.live.erase t }

def exitThread (t : Thread) : Container :=
  let rest := c.tasks.erase t
  if rest.filter (·.owner = t.owner) = ∅ then { c with tasks := insert t rest }.exitCurrent t
  else { c.subPid 1 with tasks := rest, live := c.live.erase t }

/-- `kill_task` for the siblings, and `retain_only_task`. -/
def execve (t : Thread) : Container := { c with
  live := c.live.filter fun x => x.owner = t.owner → x = t
  tasks := c.tasks.filter fun x => x.owner = t.owner → x = t }

def step : Event → Container → Container
  | .fork made, c => c.spawn made
  | .clone t space made, c => c.startThread t space made
  | .exitThread t, c => c.exitThread t
  | .exit t, c => c.exitCurrent t
  | .execve t, c => c.execve t

end Container

open Container

variable {c : Container} {t : Thread}

/-- The thread is alive, and no other one of its process is. -/
def Alone (c : Container) (t : Thread) : Prop := t ∈ c.live ∧ ∀ x ∈ c.live, x.owner = t.owner → x = t

/-- The caller is alive. It has no live siblings at an `execve` or `exit`, and an address
space at a `clone`. -/
def Single (c : Container) : Event → Prop
  | .fork _ => True
  | .clone t space _ => t ∈ c.live ∧ space = true
  | .exitThread t => t ∈ c.live
  | .exit t => Alone c t
  | .execve t => Alone c t

/-- The counter and the task lists are those of the live tasks. -/
structure Exact (c : Container) : Prop where
  pids : c.pids = c.live.card
  tasks : c.tasks = c.live
  live : ∀ x ∈ c.live, x.tid < c.nextTid ∧ x.owner < c.nextTid ∧ x.owner ∉ c.exited
  exited : ∀ p ∈ c.exited, p < c.nextTid

theorem tryAddPid_cases : c.tryAddPid = none ∧ c.pidsLimit ≤ c.pids ∨
    c.tryAddPid = some { c with pids := c.pids + 1 } := by
  unfold tryAddPid
  split_ifs with h
  · exact .inl ⟨rfl, h.2⟩
  · exact .inr rfl

theorem exact_makeTask (h : Exact c) (made : Bool) {owner : Nat} (ho : owner ∉ c.exited)
    (hn : owner ≤ c.nextTid) : Exact ({ c with pids := c.pids + 1 }.makeTask made owner) := by
  obtain ⟨hp, ht, hl, he⟩ := h
  cases made with
  | false => exact ⟨hp, ht, hl, he⟩
  | true =>
    have hnew : (⟨owner, c.nextTid⟩ : Thread) ∉ c.live := fun hm => Nat.lt_irrefl _ (hl _ hm).1
    refine ⟨?_, ?_, ?_, ?_⟩
    · simp [makeTask, card_insert_of_notMem hnew, hp]
    · simp [makeTask, ht]
    all_goals grind [makeTask]

/-- The last thread of a process takes just itself off the counter. -/
theorem exact_exitCurrent (h : Exact c) (hal : Alone c t) : Exact (c.exitCurrent t) := by
  obtain ⟨hp, ht, hl, he⟩ := h
  obtain ⟨hmem, hall⟩ := hal
  have hone : c.tasks.filter (·.owner = t.owner) = {t} := by
    ext x
    simp only [ht, mem_filter, mem_singleton]
    exact ⟨fun hx => hall x hx.1 hx.2, fun hx => ⟨hx ▸ hmem, congrArg Thread.owner hx⟩⟩
  have hrest : c.tasks.filter (¬ ·.owner = t.owner) = c.live.erase t := by
    ext x
    simp only [ht, mem_filter, mem_erase]
    exact ⟨fun hx => ⟨fun he => hx.2 (he ▸ rfl), hx.1⟩, fun hx => ⟨hx.2, fun ho => hx.1 (hall x hx.2 ho)⟩⟩
  unfold exitCurrent
  rw [if_neg (hl t hmem).2.2, hone, hrest]
  refine ⟨?_, rfl, ?_, ?_⟩
  · rw [card_erase_of_mem hmem, ← hp]
    rfl
  all_goals grind [subPid]

theorem exact_exitThread (h : Exact c) (hmem : t ∈ c.live) : Exact (c.exitThread t) := by
  have hl := h.live
  unfold exitThread
  dsimp only
  rw [insert_erase (h.tasks.symm ▸ hmem)]
  split_ifs with hrest
  · refine exact_exitCurrent h ⟨hmem, fun x hx ho => ?_⟩
    by_contra hne
    have hin : x ∈ (c.tasks.erase t).filter (·.owner = t.owner) :=
      mem_filter.mpr ⟨mem_erase.mpr ⟨hne, h.tasks.symm ▸ hx⟩, ho⟩
    rw [hrest] at hin
    exact notMem_empty x hin
  · refine ⟨?_, congrArg (·.erase t) h.tasks, ?_, h.exited⟩
    · rw [card_erase_of_mem hmem, ← h.pids]
      rfl
    all_goals grind [subPid]

theorem exact_step (c : Container) (e : Event) (h : Exact c) (hs : Single c e) :
    Exact (step e c) := by
  cases e with
  | fork made =>
    have hn : c.nextTid ∉ c.exited := fun hm => Nat.lt_irrefl _ (h.exited _ hm)
    simp only [step, spawn]
    rcases tryAddPid_cases (c := c) with ⟨hr, -⟩ | hr <;> rw [hr]
    · exact h
    · exact exact_makeTask h made hn le_rfl
  | clone t space made =>
    obtain ⟨hl, rfl⟩ := hs
    simp only [step, startThread]
    rcases tryAddPid_cases (c := c) with ⟨hr, -⟩ | hr <;> rw [hr]
    · exact h
    · exact exact_makeTask h made (h.live t hl).2.2 (Nat.le_of_lt (h.live t hl).2.1)
  | exitThread t => exact exact_exitThread h hs
  | exit t => exact exact_exitCurrent h hs
  | execve t =>
    have hlive : (c.execve t).live = c.live := filter_true_of_mem hs.2
    have htasks : (c.execve t).tasks = c.live := by
      rw [execve, h.tasks]
      exact hlive
    exact ⟨hlive ▸ h.pids, htasks.trans hlive.symm, hlive ▸ h.live, h.exited⟩

/-- The counter is the number of live tasks, and a task is refused only at the limit. -/
theorem pids_exact (limit : Nat) (es : List Event)
    (h : Along step Single es { pidsLimit := limit }) (n : Nat) :
    let c := run step (es.take n) { pidsLimit := limit }
    c.pids = c.live.card ∧ (c.tryAddPid = none → c.pidsLimit ≤ c.live.card) := by
  intro c
  have hc : Exact c := along_invariant exact_step es _ ⟨rfl, rfl, by simp, by simp⟩ h n
  refine ⟨hc.pids, fun hr => ?_⟩
  rcases tryAddPid_cases (c := c) with ⟨-, hle⟩ | hs
  · exact hc.pids ▸ hle
  · rw [hs] at hr
    cases hr

/-- A process with a second thread, which ends before the process exits. -/
theorem pids_exact_pair :
    let c := run step [.fork true, .clone ⟨1, 1⟩ true true, .exitThread ⟨1, 2⟩, .exit ⟨1, 1⟩, .fork true]
      { pidsLimit := 2 }
    c.pids = c.live.card :=
  (pids_exact 2 [.fork true, .clone ⟨1, 1⟩ true true, .exitThread ⟨1, 2⟩, .exit ⟨1, 1⟩, .fork true]
    ⟨trivial, ⟨by decide, rfl⟩, show _ ∈ _ by decide, ⟨by decide, by decide⟩, trivial, trivial⟩ 5).1

/-- Two threads and a limit of two: after the `execve` one task is alive, and none may be
added. -/
theorem pids_leak :
    let c := run step [.fork true, .clone ⟨1, 1⟩ true true, .execve ⟨1, 1⟩] { pidsLimit := 2 }
    c.live.card = 1 ∧ c.pids = 2 ∧ c.tryAddPid.isNone := by
  decide

end Fastros.Pids
