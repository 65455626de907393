import Fastros.Proc.Sigframe

/-!
# What a forged frame can resume with

The flags that `iretq` loads are the word the user left in its `ucontext`, with at
most the direction flag cleared. So the resume is harmless exactly when that word
is.
-/

namespace Fastros.Proc

open Lib.Stateful List

variable {t t' : Thread}

def rflagsIf : UInt64 := 0x200
def rflagsIopl : UInt64 := 0x3000
/-- NT, RF, VM, VIF and VIP. -/
def rflagsSystem : UInt64 := 0x4000 ||| 0x10000 ||| 0x20000 ||| 0x80000 ||| 0x100000

/-- Interrupts on, no I/O privilege, no system flag. -/
def CleanFlags (f : UInt64) : Prop :=
  f &&& rflagsIf = rflagsIf ∧ f &&& rflagsIopl = 0 ∧ f &&& rflagsSystem = 0

instance (f : UInt64) : Decidable (CleanFlags f) := inferInstanceAs (Decidable (_ ∧ _))

/-- `g` is `f`, but for the direction flag. -/
def SameButDf (f g : UInt64) : Prop := g = f ∨ g = f &&& ~~~0x400

theorem sameButDf_clean {f g : UInt64} (h : SameButDf f g) : CleanFlags g ↔ CleanFlags f := by
  rcases h with rfl | rfl
  · exact Iff.rfl
  have hmask : ∀ m : UInt64, ~~~0x400 &&& m = m → f &&& ~~~0x400 &&& m = f &&& m := by
    intro m hm
    rw [UInt64.and_assoc, hm]
  unfold CleanFlags
  rw [hmask rflagsIf (by decide), hmask rflagsIopl (by decide), hmask rflagsSystem (by decide)]

/-- The word at offset 136 of the mcontext, as user memory holds it. -/
def savedFlags (mem : Nat → Option UInt8) (rsp : UInt64) : UInt64 :=
  fromLe ((List.range 8).map fun i => (mem (rsp.toNat + (ucMctx + 136 + i))).getD 0)

theorem mapM_some {α β : Type} (f : α → Option β) (d : β) (l : List α) :
    ∀ r, l.mapM f = some r → r = l.map fun a => (f a).getD d := by
  induction l with
  | nil =>
    intro r h
    cases h
    rfl
  | cons a l ih =>
    intro r h
    rw [mapM_cons] at h
    cases ha : f a with
    | none => rw [ha] at h; cases h
    | some b =>
      cases hl : l.mapM f with
      | none => rw [ha, hl] at h; cases h
      | some bs =>
        rw [ha, hl] at h
        cases h
        rw [map_cons, ha, ← ih bs hl]
        rfl

theorem copyFrom_ok {addr n : Nat} {b : List UInt8} (h : copyFrom addr n t = .ok b t') :
    t' = t ∧ b = (range n).map fun i => (t.mem (addr + i)).getD 0 := by
  unfold copyFrom Lib.Bytes.fetch at h
  cases hm : (range n).mapM fun i => t.mem (addr + i) with
  | none => rw [hm] at h; cases h
  | some bytes =>
    rw [hm] at h
    cases h
    exact ⟨rfl, mapM_some _ 0 _ _ hm⟩

theorem range_window {k m n : Nat} (h : k + m ≤ n) :
    ((range n).drop k).take m = (range m).map fun i => k + i := by
  apply ext_getElem
  · simp
    omega
  · intro i h1 h2
    simp

theorem readMcontext_flags {uc : UInt64} {regs : Regs}
    (h : readMcontext uc.toNat t = .ok regs t') : regs.rflags = savedFlags t.mem uc := by
  obtain ⟨b, t1, hb, hr⟩ := bind_eq_ok.mp h
  obtain ⟨-, hbytes⟩ := copyFrom_ok hb
  have hregs : Regs.ofUcontext b = regs := by
    exact (EStateM.Result.ok.inj hr).1
  have hflags : regs.rflags = getWord b (ucMctx + 136) := by rw [← hregs]; rfl
  rw [hflags, hbytes]
  have hwin := range_window (k := ucMctx + 136) (m := 8) (n := ucSize) (by decide)
  simp only [getWord, savedFlags, ← map_drop, ← map_take, hwin, map_map]
  rfl

theorem restoreFrame_flags {frame regs : Regs} {mask : UInt64}
    (h : restoreFrame frame t = .ok (regs, mask) t') : regs.rflags = savedFlags t.mem frame.rsp := by
  obtain ⟨saved, t1, hs, h⟩ := bind_eq_ok.mp h
  obtain ⟨m, t2, -, h⟩ := bind_eq_ok.mp h
  obtain ⟨fpptr, t3, -, h⟩ := bind_eq_ok.mp h
  have hy : Yields (fun r : Regs × UInt64 => r.1 = saved) (do
      if getWord fpptr 0 ≠ 0 then
        let fx ← copyFrom (getWord fpptr 0).toNat fxsaveSize
        fxrstor fx
      return (saved, m) : TM (Regs × UInt64)) := by
    apply Yields.ite
    · intro _
      apply Yields.bind
      intro _
      exact .bind fun _ => .pure rfl
    · intro _
      exact .pure rfl
  have hsaved : regs = saved := hy.ok h
  rw [hsaved]
  exact readMcontext_flags hs

theorem pushFrame_flags (sp : Nat) (regs : Regs) (sig : Nat) (act : SigAction) (oldMask : UInt64) :
    Yields (fun new : Regs => SameButDf regs.rflags new.rflags)
      (pushFrame sp regs sig act oldMask) := by
  repeat (apply Yields.bind; intro _)
  exact .pure (.inr rfl)

theorem setupFrame_flags (regs : Regs) (sig : Nat) (act : SigAction) (oldMask : UInt64) :
    Yields (fun new : Regs => SameButDf regs.rflags new.rflags) (setupFrame regs sig act oldMask) := by
  apply Yields.bind
  intro base
  exact .ite (fun _ => .throw _) fun _ => pushFrame_flags _ regs sig act oldMask

theorem enterHandler_flags (regs : Regs) (sig : Nat) (act : SigAction) (blocked : UInt64) :
    Yields (fun new : Regs => SameButDf regs.rflags new.rflags)
      (enterHandler regs sig act blocked) := by
  refine ⟨fun {t new t'} h => ?_⟩
  unfold enterHandler at h
  cases hs : setupFrame regs sig act blocked t with
  | ok new' t1 =>
    rw [hs] at h
    cases h
    exact (setupFrame_flags regs sig act blocked).ok hs
  | error e t1 =>
    rw [hs] at h
    cases e <;> cases h

theorem actOn_flags (stop : Thread → Thread) (regs : Regs) (sig : Nat) (act : SigAction)
    (blocked : UInt64) :
    Yields (fun r : Option Regs => ∀ new, r = some new → SameButDf regs.rflags new.rflags)
      (actOn stop regs sig act blocked) := by
  have hnone : ∀ new : Regs, (none : Option Regs) = some new → SameButDf regs.rflags new.rflags := by
    intro new h
    cases h
  apply Yields.ite
  · exact fun _ => .pure hnone
  intro _
  apply Yields.ite
  · intro _
    apply Yields.ite
    · exact fun _ => .bind fun _ => .pure hnone
    intro _
    apply Yields.ite
    · exact fun _ => .pure hnone
    · exact fun _ => .ite (fun _ => .throw _) fun _ => .pure hnone
  intro _
  apply Yields.ite
  · exact fun _ => .ite (fun _ => .throw _) fun _ => .pure hnone
  refine fun _ => ⟨fun {t r t'} h => ?_⟩
  obtain ⟨new, t1, hn, hr⟩ := bind_eq_ok.mp h
  cases hr
  intro new' he
  cases he
  exact (enterHandler_flags regs sig act blocked).ok hn

/-- Each turn of the loop either keeps the registers or enters one handler. -/
theorem deliverUserSignals_flags (stop : Thread → Thread) (fuel : Nat) (regs : Regs) :
    Yields (fun r : Option Regs => ∀ new, r = some new → SameButDf regs.rflags new.rflags)
      (deliverUserSignals stop fuel regs) := by
  induction fuel with
  | zero => exact .pure fun new h => by cases h
  | succ fuel ih =>
    apply Yields.bind
    intro t
    apply Yields.ite
    · intro _
      refine .pure fun new h => ?_
      cases h
      exact .inl rfl
    intro _
    apply Yields.ite
    · exact fun _ => .throw _
    intro _
    apply Yields.bind
    intro _
    refine ⟨fun {t1 r t'} h => ?_⟩
    obtain ⟨entered, t2, ha, hr⟩ := bind_eq_ok.mp h
    cases entered with
    | some new =>
      cases hr
      exact (actOn_flags stop regs _ _ _).ok ha
    | none => exact ih.ok hr

/-- Only user-accessible registers differ from before, and the flags are harmless. -/
structure SafeResume (before after : Cpu) : Prop where
  flags : CleanFlags after.regs.rflags
  cs : after.cs = userCs
  ss : after.ss = userDs
  cr3 : after.cr3 = before.cr3
  fsBase : after.fsBase = before.fsBase

/-- Whatever is in user memory and whatever is pending, a resume is safe exactly
when the saved flags word is clean. -/
theorem rtSigreturn_safe_iff (stop : Thread → Thread) (fuel : Nat) (frame : Regs) (cpu cpu' : Cpu)
    (t t' : Thread) (h : rtSigreturn stop fuel frame cpu t = .ok (some cpu') t') :
    SafeResume cpu cpu' ↔ CleanFlags (savedFlags t.mem frame.rsp) := by
  unfold rtSigreturn at h
  cases hr : restoreFrame frame t with
  | error e t1 =>
    rw [hr] at h
    cases e <;> cases h
  | ok r t1 =>
    obtain ⟨regs, mask⟩ := r
    rw [hr] at h
    cases hd : (do setBlocked mask; deliverUserSignals stop fuel regs : TM (Option Regs)) t1 with
    | error e t2 => simp only [hd] at h; cases h
    | ok img t2 =>
      cases img with
      | none => simp only [hd] at h; cases h
      | some image =>
        simp only [hd] at h
        cases h
        obtain ⟨u, t3, -, hd'⟩ := bind_eq_ok.mp hd
        have hflags := (deliverUserSignals_flags stop fuel regs).ok hd' image rfl
        rw [← restoreFrame_flags hr, ← sameButDf_clean hflags]
        exact ⟨fun hs => hs.flags, fun hc => ⟨hc, rfl, rfl, rfl, rfl⟩⟩

/-- The processor state a call resumes with, if it does. -/
def resumedCpu : EStateM.Result Halt Thread (Option Cpu) → Option Cpu
  | .ok c _ => c
  | .error _ _ => none

theorem resumedCpu_some {r : EStateM.Result Halt Thread (Option Cpu)} {c : Cpu}
    (h : resumedCpu r = some c) : ∃ t', r = .ok (some c) t' := by
  cases r with
  | ok o t' => exact ⟨t', by rw [show o = some c from h]⟩
  | error e t' => cases h

/-- A thread whose memory is zero but for the flags word of a `ucontext` at 0x20000. -/
def forged (flags : UInt64) : Thread where
  mem a := some (if 0x200B0 ≤ a then (leBytes 8 flags).getD (a - 0x200B0) 0 else 0)

def forgedFrame : Regs := { rsp := 0x20000, rflags := 0x202 }

/-- In the system call: kernel selectors, some page table. -/
def kernelCpu : Cpu := ⟨{ rflags := 0x202 }, 8, 16, 0x1000, 0⟩

/-- A user frame with IF clear and IOPL 3 is resumed as it is. -/
theorem rtSigreturn_raises :
    resumedCpu (rtSigreturn id 1 forgedFrame kernelCpu (forged 0x3002)) =
      some (kernelCpu.resume { rflags := 0x3002 }) ∧
    ¬ SafeResume kernelCpu (kernelCpu.resume { rflags := 0x3002 }) :=
  ⟨by decide +kernel, fun h => absurd h.flags (by decide)⟩

theorem rtSigreturn_safe_clean :
    resumedCpu (rtSigreturn id 1 forgedFrame kernelCpu (forged 0x202)) =
      some (kernelCpu.resume { rflags := 0x202 }) ∧
    SafeResume kernelCpu (kernelCpu.resume { rflags := 0x202 }) := by
  have hr : resumedCpu (rtSigreturn id 1 forgedFrame kernelCpu (forged 0x202)) =
      some (kernelCpu.resume { rflags := 0x202 }) := by decide +kernel
  obtain ⟨t', h⟩ := resumedCpu_some hr
  exact ⟨hr, (rtSigreturn_safe_iff id 1 forgedFrame kernelCpu _ _ t' h).mpr (by decide +kernel)⟩

end Fastros.Proc
