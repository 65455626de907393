import Mathlib

/-!
# Redirections

`with_redirs` puts the whole descriptor table back after the body, so it also takes
back what the body did to descriptors that were not redirected. A bare `exec` somewhere
in the body sets the flag that keeps the redirections.
-/

namespace Fastros.Redirs

abbrev FdTable (F : Type) := Nat → Option F

/-- The descriptors a redirection sets (1 and 2 for `&>`), and to what: the file that it
opens, makes or finds in the table, or nothing when it closes them. -/
structure Redir (F : Type) where
  fds : List Nat
  file : FdTable F → Except String (Option F)

structure Shell (F : Type) where
  fds : FdTable F
  keepRedirs : Bool := false

variable {F : Type} (redirs : List (Redir F)) (f : Shell F → Int × Shell F) (sh : Shell F)

def applyRedirs (fds : FdTable F) : List (Redir F) → Except String (FdTable F)
  | [] => .ok fds
  | r :: rest => match r.file fds with
    | .ok x => applyRedirs (fun fd => if fd ∈ r.fds then x else fds fd) rest
    | .error m => .error m

def withRedirs : Int × Shell F :=
  if redirs = [] then f sh
  else match applyRedirs sh.fds redirs with
    | .error _ => (1, sh)
    | .ok fds =>
      let out := f { sh with fds := fds }
      (out.1, { fds := if out.2.keepRedirs then out.2.fds else sh.fds })

/-- `exec` without a command. -/
def exec : Int × Shell F := (0, { sh with keepRedirs := true })

/-- The commands of a list in order; the status is that of the last one. -/
def runList (cmds : List (Shell F → Int × Shell F)) : Int × Shell F :=
  cmds.foldl (fun out cmd => cmd out.2) (0, sh)

/-- Some redirection sets the descriptor. -/
def Redirected (fd : Nat) : Prop := ∃ r ∈ redirs, fd ∈ r.fds

/-- Redirected descriptors are as before and the others as the body leaves them. When a
redirection fails nothing is run. -/
def Scoped : Prop :=
  match applyRedirs sh.fds redirs with
  | .error _ => withRedirs redirs f sh = (1, sh)
  | .ok fds => ∀ fd,
    (Redirected redirs fd → (withRedirs redirs f sh).2.fds fd = sh.fds fd) ∧
    (¬ Redirected redirs fd → (withRedirs redirs f sh).2.fds fd = (f { sh with fds := fds }).2.fds fd)

/-- Of the descriptors the body leaves those alone that will not be put right: the others
than the redirected ones, or with the flag set the redirected ones themselves. -/
def Contained : Prop :=
  match applyRedirs sh.fds redirs with
  | .error _ => True
  | .ok fds => redirs = [] ∨ ∀ fd,
    (Redirected redirs fd ↔ (f { sh with fds := fds }).2.keepRedirs = true) →
      (f { sh with fds := fds }).2.fds fd = sh.fds fd

/-- **A command with redirections is scoped exactly if its body is contained.** -/
theorem withRedirs_scoped_iff : Scoped redirs f sh ↔ Contained redirs f sh := by
  unfold Scoped Contained withRedirs
  cases hr : applyRedirs sh.fds redirs with
  | error m => exact iff_of_true (if_neg (by rintro rfl; cases hr)) trivial
  | ok fds =>
    dsimp only
    by_cases hnil : redirs = []
    · subst hnil
      cases hr
      exact iff_of_true (fun fd => ⟨fun h => by simp [Redirected] at h, fun _ => rfl⟩) (.inl rfl)
    simp only [hnil, if_false, false_or]
    cases hkeep : (f { sh with fds := fds }).2.keepRedirs with
    | true =>
      simp only [if_true, iff_true, implies_true, and_true]
    | false =>
      simp only [Bool.false_eq_true, if_false, iff_false, implies_true, true_and]
      exact forall_congr' fun fd => imp_congr_right fun _ => eq_comm

/-- `{ exec 5>file; } >out` closes descriptor 5 again, and after `{ exec; } >out` the
standard output of the shell is `out`. -/
theorem withRedirs_loses :
    let out : Redir Nat := ⟨[1], fun _ => .ok (some 7)⟩
    let sh : Shell Nat := ⟨fun _ => none, false⟩
    ¬ Scoped [out] (runList · [withRedirs [⟨[5], fun _ => .ok (some 8)⟩] exec]) sh ∧
      ¬ Scoped [out] (runList · [withRedirs [] exec]) sh := by
  refine ⟨fun h => ?_, fun h => ?_⟩
  · have hlost := (h 5).2 (by simp [Redirected])
    simp [withRedirs, applyRedirs, exec, runList] at hlost
  · have hkept := (h 1).1 (by simp [Redirected])
    simp [withRedirs, applyRedirs, exec, runList] at hkept

end Fastros.Redirs
