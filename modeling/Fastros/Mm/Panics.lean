import Fastros.Mm.Confine

/-!
# Panics, page numbers and new spaces

What the proofs about whole spaces share: calls that stop the machine or leave what they
had to keep, the pages of a region that ends in user space, and a space right after it
was made.
-/

namespace Fastros.Mm

open Lib.Stateful List

variable {φ : Type} {A : FrameAllocator φ} {s i j va n len start stop page : Nat} {k : Kernel φ}
  {D F M P Q : Kernel φ → Prop} {r : Region}

/-- The stops that end the machine rather than the call. -/
def Panicked (e : Stop) : Prop := ∀ n, e ≠ .errno n

abbrev Panics (e : Stop) (_ : Kernel φ) : Prop := Panicked e

/-- A call that stops ends the machine, or leaves what it had to keep. -/
abbrev OrPanic (Q : Kernel φ → Prop) (e : Stop) (k : Kernel φ) : Prop := Panicked e ∨ Q k

/-- `Q` holds after a call, whether it returns or fails. -/
abbrev Ensures {α : Type} (P : Kernel φ → Prop) (x : KM φ α) (Q : Kernel φ → Prop) : Prop :=
  Triple P x (fun _ => Q) (OrPanic Q)

theorem panicked_overflow : Panicked .overflow := fun n h => by cases h

theorem Upholds.panicked : Upholds Q (OrPanic Q) :=
  ⟨Or.inr, fun {n _} h => h.resolve_left fun hp => hp n rfl⟩

theorem panicked_assertion {e : Stop} (h : e = .assertion) : Panicked e := by
  subst h
  intro n h
  cases h

/-- A call that undoes its work, and reports the error, when a part of it fails. -/
theorem triple_rescue {β : Type} {Q : β → Kernel φ → Prop}
    {x undo : KM φ Unit} {next : KM φ β} (hx : Triple P x (fun _ => M) (OrPanic D))
    (hundo : Triple D undo (fun _ => F) Panics) (hnext : Triple M next Q (OrPanic F)) :
    Triple P (fun k => match x k with
        | .error (.errno e) k' => (do undo; throw (.errno e) : KM φ β) k'
        | .error e k' => .error e k'
        | .ok _ k' => next k') Q (OrPanic F) := by
  refine .intro fun k hk => ?_
  have hend := hx.ends hk
  cases hr : x k with
  | ok a k' =>
    rw [hr] at hend
    cases hend with
    | ok h => exact hnext.ends h
  | error e k' =>
    rw [hr] at hend
    cases hend with
    | error h =>
      cases e with
      | errno n =>
        have hback : Ensures D undo F := .stop hundo fun _ _ => .inl
        exact (Triple.bind hback fun _ => .throw fun _ h => .inr h).ends
          (h.resolve_left fun h => h n rfl)
      | overflow => exact .error (.inl panicked_overflow)
      | assertion => exact .error (.inl (panicked_assertion rfl))

theorem Asserts.panics : Asserts P Panics := fun _ _ => panicked_assertion rfl

theorem pageIndex_lt (h : va < userEnd) : pageIndex va < kernelHalf := by
  have : pageIndex va ≤ va / pageSize := Nat.mod_le _ _
  have : va / pageSize < kernelHalf := by
    unfold pageSize kernelHalf
    unfold userEnd at h
    omega
  omega

theorem page_lt_end (h : j < pagesIn start stop) :
    start + j * pageSize < stop := by
  unfold pagesIn pageSize at *
  omega

theorem panics_allocUserPage : Raises Panicked (allocUserPage A) :=
  .of_triple (keeps_allocUserPage .panics (fun _ _ _ => id) fun _ _ => id)

/-- The region starts on a page, ends in user space and is not inside out. -/
structure Region.Sound (r : Region) : Prop where
  start_mod : r.start % pageSize = 0
  ordered : r.start ≤ r.end
  high : r.end ≤ userEnd

/-- The entry is not present. -/
def Absent (s i : Nat) (k : Kernel φ) : Prop := (k.pte s i).present = false

/-- No kernel page is mapped at the pages of the range. -/
def KernelQuiet (k : Kernel φ) (s va n : Nat) : Prop :=
  ∀ j < n, kernelHalf ≤ pageIndex (va + j * pageSize) → Absent s (pageIndex (va + j * pageSize)) k

theorem kernelQuiet_succ (h : KernelQuiet k s va (n + 1)) :
    (kernelHalf ≤ pageIndex va → Absent s (pageIndex va) k) ∧ KernelQuiet k s (va + pageSize) n :=
  pages_succ (Q := fun va => kernelHalf ≤ pageIndex va → Absent s (pageIndex va) k) h

theorem kernelQuiet_clear (h : KernelQuiet k s va n) : KernelQuiet (k.setPte s i {}) s va n := by
  intro j hj hhalf
  unfold Absent
  by_cases he : pageIndex (va + j * pageSize) = i
  · rw [he, setPte_self]
  · rw [setPte_ne k _ he]
    exact h j hj hhalf

/-- A user page index is the index of its address. -/
theorem pageIndex_mul (hi : i < kernelHalf) : pageIndex (i * pageSize) = i := by
  unfold pageIndex
  rw [Nat.mul_div_cancel _ (by decide : 0 < pageSize)]
  refine Nat.mod_eq_of_lt (lt_trans hi ?_)
  decide

/-- An aligned page of an aligned range is one of its pages. -/
theorem exists_page (hs : start % pageSize = 0) (h1 : start ≤ i * pageSize)
    (h2 : i * pageSize < stop) :
    ∃ j < pagesIn start stop, i * pageSize = start + j * pageSize := by
  unfold pagesIn pageSize at *
  exact ⟨i - start / 4096, by omega, by omega⟩

/-- `unmap` once the released pages are dealt with; every stop is a panic. -/
theorem triple_unmap
    (h : ∀ {k k'}, P k → unmapCut A s start len k = .ok () k' → Q k') :
    Ensures P (unmap A s start len) Q := by
  refine .intro fun k hk => ?_
  rw [unmap_eq]
  split
  swap
  · exact .error (.inl panicked_overflow)
  cases hr : unmapCut A s start len k with
  | ok u k' => exact .ok (h hk hr)
  | error e k' => exact .error (.inl (panicked_assertion ((raises_releaseRange s _ _ _).error hr)))

theorem pageIndex_alignDown (addr : Nat) : pageIndex (alignDown addr) = pageIndex addr := by
  unfold pageIndex alignDown
  rw [Nat.mul_div_cancel _ (by decide : 0 < pageSize)]

theorem page_mul (hmod : page % pageSize = 0) (hlt : page < userEnd) :
    pageIndex page * pageSize = page := by
  have hi := pageIndex_lt hlt
  unfold pageIndex pageSize kernelHalf at *
  unfold userEnd at hlt
  omega

/-- What unmapping `[start, start + len)` needs of the kernel's half. -/
def UnmapQuiet (s start len : Nat) (k : Kernel φ) : Prop :=
  KernelQuiet k s (alignDown start) (pagesIn (alignDown start) (rangeEnd start len))

theorem triple_effect {α : Type} {P Q : Kernel φ → Prop} {E : Stop → Kernel φ → Prop} {x : KM φ α}
    (h : Triple P x (fun _ => Q) E) : Triple P (effect x) (fun _ => Q) E :=
  .bind h fun _ => .skip

/-- No page of a sound region is the kernel's. -/
theorem sound_quiet (hr : r.Sound) : KernelQuiet k s r.start (pagesIn r.start r.end) := by
  intro j hj hhalf
  have hlt := pageIndex_lt (Nat.lt_of_lt_of_le (page_lt_end hj) hr.high)
  exact absurd hlt (Nat.not_lt.mpr hhalf)

theorem keeps_freeTables {P : Kernel φ → Prop} {E : Stop → Kernel φ → Prop} (hE : Asserts P E)
    (hf : ∀ k p fr, A.free k.frames p = some fr → P k → P { k with frames := fr })
    (ts : List ((Nat × Nat) × PhysAddr)) :
    Keeping P (freeTables A ts) E := by
  induction ts with
  | nil => exact .pure _
  | cons t ts ih => exact .bind (keeps_freeFrame hE hf _) fun _ => ih

/-- The kernel with one space more, whose root table is the frame `p`. -/
def Kernel.addSpace (k : Kernel φ) (fr : φ) (p : PhysAddr) (sp : AddressSpace) : Kernel φ :=
  { k with frames := fr, mem := Function.update k.mem p fun _ => 0,
           spaces := Function.update k.spaces k.nspaces sp, nspaces := k.nspaces + 1 }

theorem newSpace_eq (A : FrameAllocator φ) (k : Kernel φ) :
    newSpace A k = match A.alloc k.frames with
      | none => .error (.errno .enomem) k
      | some (p, fr) => .ok k.nspaces (k.addSpace fr p { pml4 := p }) := by
  unfold newSpace allocZeroed
  simp only [run_bind, run_get]
  cases A.alloc k.frames with
  | none => rfl
  | some pf => rfl

end Fastros.Mm
