import Fastros.Mm.Calls

/-!
# The memory system calls

`sys_mmap`, `munmap`, `mprotect` and `brk` take any 64-bit arguments. A call is
safe when no sum in it overflows and no page-table entry outside the user range
changes. For each call the arguments and states for which it is safe are named;
the others are reached from user space by a length near `2^64`, by a range over
kernel mappings, or by cutting a file mapping whose offset is near `2^64`.
-/

namespace Fastros.Mm

open Lib.Stateful

variable {φ : Type} {A : FrameAllocator φ} {s : Nat} {k : Kernel φ}

def mapShared : Nat := 0x01
def mapPrivate : Nat := 0x02
def mapFixed : Nat := 0x10
def mapAnonymous : Nat := 0x20

def protRead : Nat := 1
def protWrite : Nat := 2
def protExec : Nat := 4

def protFrom (bits : Nat) : Prot :=
  { read := bits &&& protRead ≠ 0, write := bits &&& protWrite ≠ 0,
    exec := bits &&& protExec ≠ 0 }

/-- The protection `mmap` uses: no access at all becomes read. -/
def mmapProt (bits : Nat) : Prot :=
  if protFrom bits = {} then { read := true } else protFrom bits

/-- The file of a mapping, if the flags and the descriptor ask for one. -/
def mmapFile (fds : Int → Option Nat) (flags : Nat) (fd : Int) (off : Nat) :
    KM φ (Option (Nat × Nat)) :=
  if flags &&& mapAnonymous = 0 ∧ 0 ≤ fd then
    match fds fd with
    | none => throw (.errno .ebadf)
    | some f => pure (some (f, off))
  else pure none

variable (A) in
def sysMmap (fds : Int → Option Nat) (s addr len prot flags : Nat) (fd : Int) (off : Nat) :
    KM φ Nat := do
  if len = 0 then throw (.errno .einval)
  if flags &&& (mapShared ||| mapPrivate) = 0 then throw (.errno .einval)
  let file ← mmapFile fds flags fd off
  mmap A s addr len (mmapProt prot) (flags &&& mapFixed ≠ 0) file (flags &&& mapShared ≠ 0)

variable (A) in
def sysMunmap (s addr len : Nat) : KM φ Nat := do
  unmap A s addr len
  return 0

def sysMprotect (s addr len prot : Nat) : KM φ Nat := do
  protect s addr len (protFrom prot)
  return 0

variable (A) in
def sysBrk (s addr : Nat) : KM φ Nat := brk A s addr

/-- A page index no user address has. -/
def Outside (i : Nat) : Prop := i < userStart / pageSize ∨ userEnd / pageSize ≤ i

/-- No overflow, and the same entries outside the user range. -/
structure Safe {α : Type} (s : Nat) (x : KM φ α) (k : Kernel φ) : Prop where
  noOverflow : ∀ k', x k ≠ .error .overflow k'
  outside : ∀ i, Outside i → (stateOf (x k)).pte s i = k.pte s i

/-- The entries outside the user range are those of `pt`. -/
def OutsideIs (s : Nat) (pt : Nat → Pte) (k : Kernel φ) : Prop := ∀ i, Outside i → k.pte s i = pt i

/-- Nothing outside the user range is mapped at the pages of `[start, end)`. -/
def Quiet (k : Kernel φ) (s start «end» : Nat) : Prop :=
  ∀ j < pagesIn start «end», Outside (pageIndex (start + j * pageSize)) →
    (k.pte s (pageIndex (start + j * pageSize))).live = false

variable {α : Type} {x : KM φ α} {start : Nat}

theorem safe_of_keeps (hk : Keeps (OutsideIs s (k.pte s)) x)
    (hr : Raises (· ≠ .overflow) x) : Safe s x k :=
  ⟨fun _ h => hr.error h rfl, hk.state (fun _ _ => rfl)⟩

theorem safe_stop {e : Stop} (he : e ≠ .overflow) (h : x k = .error e k) : Safe s x k := by
  refine ⟨fun k' h' => he ?_, fun i _ => ?_⟩
  · rw [h] at h'
    cases h'
    rfl
  · rw [h]
    rfl

theorem not_safe_overflow {k' : Kernel φ} (h : x k = .error .overflow k') :
    ¬ Safe s x k := fun hs => hs.noOverflow k' h

section

variable {β : Type} {f : α → KM φ β}

/-- The call does not end in a failed assertion. -/
def Completes (x : KM φ α) (k : Kernel φ) : Prop := ∀ k', x k ≠ .error .assertion k'

/-- The call is safe when `C` holds, and only then unless an assertion stops it. -/
structure SafeExactly (s : Nat) (x : KM φ α) (k : Kernel φ) (C : Prop) : Prop where
  safe : C → Safe s x k
  only : Completes x k → Safe s x k → C

theorem SafeExactly.of_iff {C : Prop} (h : Safe s x k ↔ C) : SafeExactly s x k C :=
  ⟨h.mpr, fun _ => h.mp⟩

theorem completes_of_bind (h : Completes (x >>= f) k) : Completes x k := by
  intro k' hx
  refine h k' ?_
  rw [run_bind, hx]

theorem safe_bind (hx : Safe s x k) (hf : ∀ a k', x k = .ok a k' → Safe s (f a) k') :
    Safe s (x >>= f) k := by
  have hb := run_bind x f k
  cases hr : x k with
  | ok a k' =>
    rw [hr] at hb
    have h := hf a k' hr
    have ho := hx.outside
    rw [hr] at ho
    refine ⟨fun k'' h' => h.noOverflow k'' (hb.symm.trans h'), fun i hi => ?_⟩
    rw [hb]
    exact (h.outside i hi).trans (ho i hi)
  | error e k' =>
    rw [hr] at hb
    have ho := hx.outside
    rw [hr] at ho
    refine ⟨fun k'' h' => ?_, fun i hi => ?_⟩
    · rw [hb] at h'
      cases h'
      exact hx.noOverflow _ hr
    · rw [hb]
      exact ho i hi

/-- A safe sequence whose second half changes no entry outside has a safe first. -/
theorem safe_of_bind (h : Safe s (x >>= f) k)
    (hf : ∀ a (pt : Nat → Pte), Keeps (OutsideIs s pt) (f a)) : Safe s x k := by
  have hb := run_bind x f k
  cases hr : x k with
  | ok a k' =>
    rw [hr] at hb
    refine ⟨fun k'' h' => (by rw [hr] at h'; cases h'), fun i hi => ?_⟩
    have h1 := (hf a (k'.pte s)).state (fun _ _ => rfl) i hi
    have h2 := h.outside i hi
    rw [hb] at h2
    rw [hr]
    exact h1.symm.trans h2
  | error e k' =>
    rw [hr] at hb
    refine ⟨fun k'' h' => ?_, fun i hi => ?_⟩
    · rw [hr] at h'
      cases h'
      exact h.noOverflow _ hb
    · have h2 := h.outside i hi
      rw [hb] at h2
      rw [hr]
      exact h2

theorem ignoreErr_safe_iff {x : KM φ Unit} : Safe s (ignoreErr x) k ↔ Safe s x k := by
  have hstate : stateOf (ignoreErr x k) = stateOf (x k) := by
    unfold ignoreErr
    split
    · rename_i h
      rw [h]
      rfl
    · rfl
  have hover : ∀ k', ignoreErr x k = .error .overflow k' ↔ x k = .error .overflow k' := by
    intro k'
    unfold ignoreErr
    split
    · rename_i h
      rw [h]
      exact ⟨fun h => (by cases h), fun h => (by cases h)⟩
    · exact Iff.rfl
  constructor
  · intro h
    exact ⟨fun k' hx => h.noOverflow k' ((hover k').mpr hx), fun i hi => hstate ▸ h.outside i hi⟩
  · intro h
    exact ⟨fun k' hx => h.noOverflow k' ((hover k').mp hx), fun i hi => hstate ▸ h.outside i hi⟩

theorem completes_of_ignoreErr {x : KM φ Unit} (h : Completes (ignoreErr x) k) : Completes x k := by
  intro k' hx
  refine h k' ?_
  unfold ignoreErr
  rw [hx]

theorem safe_congr {y : KM φ α} (h : x k = y k) : Safe s x k ↔ Safe s y k := by
  constructor
  · intro hx
    exact ⟨fun k' hy => hx.noOverflow k' (h.trans hy), fun i hi => h ▸ hx.outside i hi⟩
  · intro hy
    exact ⟨fun k' hx => hy.noOverflow k' (h.symm.trans hx), fun i hi => h ▸ hy.outside i hi⟩

theorem safeExactly_congr {y : KM φ α} {C : Prop} (h : x k = y k) :
    SafeExactly s y k C → SafeExactly s x k C := by
  intro hy
  have hc := safe_congr (s := s) h
  exact ⟨fun c => hc.mpr (hy.safe c),
    fun hcomp hs => hy.only (fun k' h' => hcomp k' (h.trans h')) (hc.mp hs)⟩

theorem safe_pure (a : α) : Safe s (pure a) k := safe_of_keeps (Keeping.pure a) (.pure a)

end

/-- A predicate on one space's entries that every clearing of a live entry in the
range keeps survives the release of the range. -/
theorem keeps_releaseRange_pte {Q : (Nat → Pte) → Prop} {E : Stop → Kernel φ → Prop} {stop : Nat}
    (hE : Asserts (fun k => Q (k.pte s)) E) (old : List Region)
    (hq : ∀ pt j, j < pagesIn start stop → Q pt →
      (pt (pageIndex (start + j * pageSize))).live = true →
      Q (Function.update pt (pageIndex (start + j * pageSize)) {})) :
    Keeping (fun k => Q (k.pte s)) (releaseRange A s start stop old) E := by
  have hupd : ∀ (k : Kernel φ) i e, (k.setPte s i e).pte s = Function.update (k.pte s) i e := by
    intro k i e
    funext j
    by_cases h : j = i
    · subst h
      rw [setPte_self, Function.update_self]
    · rw [setPte_ne k e h, Function.update_of_ne h]
  have hm : ∀ (k : Kernel φ) (t n : Nat), Q (k.pte s) →
      Q ((k.setSpace t { k.spaces t with committed := n }).pte s) := by
    intro k t n hk
    have he : (k.setSpace t { k.spaces t with committed := n }).pte s = k.pte s :=
      funext fun i => setSpace_pte k t s i rfl
    rw [he]
    exact hk
  refine .bind (keeps_reapShared hE (fun _ _ => id) (fun _ _ _ _ h => h) (fun _ _ => id) _)
    fun _ => ?_
  refine .bind (keeps_releasePages hE (fun _ _ => id) (fun _ _ _ _ h => h) (fun k j hj hk hl => ?_)
    (fun _ _ => id)) fun _ => ?_
  · rw [hupd]
    exact hq _ j hj hk hl
  · exact .bind (keeps_unchargePages (fun _ _ _ _ => id) (fun k n => hm k s n) _) fun _ =>
      keeps_unchargeSwap (fun _ _ _ _ => id) _

theorem raises_releaseRange (s start stop : Nat) (old : List Region) :
    Raises (· = .assertion) (releaseRange A s start stop old) :=
  .of_triple (keeps_releaseRange_pte (Q := fun _ => True) (fun _ _ => rfl) old fun _ _ _ h _ => h)

theorem releaseRange_outside {stop : Nat} {pt : Nat → Pte} (old : List Region)
    (hq : ∀ j < pagesIn start stop, Outside (pageIndex (start + j * pageSize)) →
      (pt (pageIndex (start + j * pageSize))).live = false) :
    Keeps (OutsideIs s pt) (releaseRange A s start stop old) := by
  refine keeps_releaseRange_pte (Q := fun p => ∀ i, Outside i → p i = pt i) .self old ?_
  intro p j hj hp hl i hi
  by_cases he : i = pageIndex (start + j * pageSize)
  · subst he
    rw [hp _ hi, hq j hj hi] at hl
    cases hl
  · rw [Function.update_of_ne he]
    exact hp i hi

/-- The entry at `i` holds no page. -/
def Dead (s i : Nat) (k : Kernel φ) : Prop := (k.pte s i).live = false

theorem freeSwapEntry_dead (s va : Nat) :
    Triple (fun _ : Kernel φ => True) (freeSwapEntry s va)
      (fun b k => (b = true → Dead s (pageIndex va) k) ∧
        (b = false → (k.pte s (pageIndex va)).present = true ∨ Dead s (pageIndex va) k))
      (fun _ _ => True) := by
  refine ⟨fun {k b k'} _ hr => ?_, fun _ _ => trivial⟩
  unfold freeSwapEntry leafEntry at hr
  simp only [run_bind, run_get, run_pure, run_ite] at hr
  split at hr
  · cases hr
    refine ⟨fun _ => ?_, fun h => by cases h⟩
    unfold Dead
    rw [setPte_self]
    rfl
  rename_i h
  cases hr
  refine ⟨fun h => (by cases h), fun _ => ?_⟩
  unfold Dead Pte.live
  cases hp : (k.pte s (pageIndex va)).present with
  | true => exact .inl rfl
  | false =>
    right
    rw [Bool.false_or, ← Bool.not_eq_true]
    intro hsw
    exact h ⟨by rw [hp]; rfl, hsw⟩

theorem unmap4k_dead (s va : Nat) :
    Triple (fun k : Kernel φ => (k.pte s (pageIndex va)).present = true ∨ Dead s (pageIndex va) k)
      (unmap4k s va) (fun _ k => Dead s (pageIndex va) k) (fun _ _ => True) := by
  refine ⟨fun {k o k'} hk hr => ?_, fun _ _ => trivial⟩
  unfold unmap4k leafEntry at hr
  simp only [run_bind, run_get, run_pure, run_ite] at hr
  split at hr
  · cases hr
    unfold Dead
    rw [setPte_self]
    rfl
  · rename_i h
    cases hr
    exact hk.resolve_left h

theorem releasePages_keeps_dead (s i va n : Nat) : Keeps (Dead s i) (releasePages A s va n) := by
  refine keeps_releasePages .self (fun _ _ => id) (fun _ _ _ _ h => h) (fun k j _ hk _ => ?_)
    (fun _ _ => id)
  unfold Dead
  by_cases h : i = pageIndex (va + j * pageSize)
  · rw [← h, setPte_self]
    rfl
  · rw [setPte_ne k _ h]
    exact hk

/-- A release that returns leaves no live entry in its range. -/
theorem releasePages_dead (s va n : Nat) :
    Triple (fun _ => True) (releasePages A s va n)
      (fun _ k => ∀ j < n, Dead s (pageIndex (va + j * pageSize)) k) (fun _ _ => True) := by
  induction n generalizing va with
  | zero => exact .pure fun _ _ j hj => absurd hj (Nat.not_lt_zero j)
  | succ n ih =>
    have hrest : Triple (Dead s (pageIndex va)) (releasePages A s (va + pageSize) n)
        (fun _ k => ∀ j < n + 1, Dead s (pageIndex (va + j * pageSize)) k) (fun _ _ => True) := by
      refine .mono (.and (releasePages_keeps_dead s (pageIndex va) _ n)
        (ih (va + pageSize))) (fun _ h => ⟨h, trivial⟩) (fun _ k h j hj => ?_) fun _ _ _ => trivial
      cases j with
      | zero =>
        exact h.1
      | succ j =>
        rw [← page_succ]
        exact h.2 j (Nat.lt_of_succ_lt_succ hj)
    refine .bind (freeSwapEntry_dead s va) fun b => ?_
    cases b with
    | true =>
      refine .pre (.bind hrest fun _ => .skip) (fun _ h => h.1 rfl)
    | false =>
      refine .bind (.pre (unmap4k_dead s va) (fun _ h => h.2 rfl)) fun o => ?_
      cases o with
      | none => exact hrest
      | some e =>
        refine .bind (.stop (keeps_pagePut .self (fun _ _ => id)
          (fun _ _ _ _ h => h) e.addr) fun _ _ _ => trivial) fun _ => ?_
        exact .bind hrest fun _ => .skip

theorem releaseRange_dead (s start stop : Nat) (old : List Region) :
    Triple (fun _ => True) (releaseRange A s start stop old)
      (fun _ k => ∀ j < pagesIn start stop, Dead s (pageIndex (start + j * pageSize)) k)
      (fun _ _ => True) := by
  refine .bind ⟨fun _ _ => trivial, fun _ _ => trivial⟩ fun _ => ?_
  refine .bind (releasePages_dead s start _) fun _ => ?_
  have hm : ∀ (k : Kernel φ) (t n : Nat),
      (∀ j < pagesIn start stop, Dead s (pageIndex (start + j * pageSize)) k) →
      ∀ j < pagesIn start stop, Dead s (pageIndex (start + j * pageSize))
        (k.setSpace t { k.spaces t with committed := n }) := by
    intro k t n h j hj
    have he : ∀ i, (k.setSpace t { k.spaces t with committed := n }).pte s i = k.pte s i :=
      fun i => setSpace_pte k t s i rfl
    unfold Dead
    rw [he]
    exact h j hj
  exact .bind (keeps_unchargePages (fun _ _ _ _ => id) (fun k n => hm k s n) _) fun _ =>
    keeps_unchargeSwap (fun _ _ _ _ => id) _

/-- What `unmap` needs: sums that fit, and nothing of the kernel's in the range. -/
structure UnmapSafe (k : Kernel φ) (s start len : Nat) : Prop where
  fits : UnmapOk (k.spaces s).regions start len
  quiet : Quiet k s (alignDown start) (rangeEnd start len)

theorem setRegions_pte (k : Kernel φ) (s t i : Nat) (rs : List Region) :
    (k.setRegions s rs).pte t i = k.pte t i := setSpace_pte k s t i rfl

theorem unmap_safe {len : Nat} (h : UnmapSafe k s start len) : Safe s (unmap A s start len) k := by
  have heq := unmap_eq A s start len k
  rw [if_pos h.fits] at heq
  constructor
  · intro k' hr
    rw [heq] at hr
    cases (raises_releaseRange s _ _ _).error hr
  · rw [heq]
    refine (releaseRange_outside _ ?_).state ?_
    · exact h.quiet
    · exact fun i _ => setRegions_pte k s s i _

/-- A safe call met `UnmapSafe`, or stopped at an assertion. -/
theorem unmapSafe_of_safe {len : Nat} (h : Safe s (unmap A s start len) k)
    (ha : Completes (unmap A s start len) k) : UnmapSafe k s start len := by
  have heq := unmap_eq A s start len k
  by_cases hok : UnmapOk (k.spaces s).regions start len
  swap
  · rw [if_neg hok] at heq
    exact absurd h (not_safe_overflow heq)
  refine ⟨hok, fun j hj ho => ?_⟩
  rw [if_pos hok] at heq
  cases hr : unmapCut A s start len k with
  | error e k' =>
    have he : e = .assertion := (raises_releaseRange s _ _ _).error hr
    rw [he] at hr
    exact absurd (heq.trans hr) (ha k')
  | ok u k' =>
    have hd := (releaseRange_dead s _ _ _).ok trivial hr j hj
    have hs := h.outside _ ho
    rw [heq, hr] at hs
    rw [← hs]
    exact hd

theorem reflag_present (e : Pte) (prot : Prot) : (e.reflag prot).present = e.present := rfl

theorem reflag_reflag (e : Pte) (prot : Prot) : (e.reflag prot).reflag prot = e.reflag prot := rfl

theorem reflagged_pte (k : Kernel φ) (s i0 i : Nat) (prot : Prot)
    (hp : (k.pte s i0).present = true) :
    (k.setPte s i0 ((k.pte s i0).reflag prot)).pte s i =
      if i = i0 then (k.pte s i).reflag prot else k.pte s i := by
  by_cases h : i = i0
  · subst h
    rw [setPte_self, if_pos rfl]
  · rw [setPte_ne k _ h, if_neg h]

theorem touched_succ (va n i : Nat) :
    (∃ j < n + 1, pageIndex (va + j * pageSize) = i) ↔
      i = pageIndex va ∨ ∃ j < n, pageIndex (va + pageSize + j * pageSize) = i := by
  constructor
  · rintro ⟨j, hj, rfl⟩
    cases j with
    | zero =>
      left
      rw [Nat.zero_mul, Nat.add_zero]
    | succ j => exact .inr ⟨j, Nat.lt_of_succ_lt_succ hj, by rw [page_succ]⟩
  · rintro (rfl | ⟨j, hj, rfl⟩)
    · exact ⟨0, Nat.succ_pos n, by rw [Nat.zero_mul, Nat.add_zero]⟩
    · exact ⟨j + 1, Nat.succ_lt_succ hj, by rw [page_succ]⟩

theorem protectPages_succ (s va n : Nat) (prot : Prot) (k : Kernel φ) :
    protectPages s va prot (n + 1) k =
      if (k.pte s (pageIndex va)).present = true then
        protectPages s (va + pageSize) prot n
          (k.setPte s (pageIndex va) ((k.pte s (pageIndex va)).reflag prot))
      else protectPages s (va + pageSize) prot n k := by
  exact run_ite _ _ _ _

/-- Every present entry of the range is re-flagged; nothing stops the loop. -/
theorem protectPages_eq (s va n : Nat) (prot : Prot) (k : Kernel φ) :
    ∃ k', protectPages s va prot n k = .ok () k' ∧ ∀ i, k'.pte s i =
      if (∃ j < n, pageIndex (va + j * pageSize) = i) ∧ (k.pte s i).present = true then
        (k.pte s i).reflag prot else k.pte s i := by
  induction n generalizing va k with
  | zero =>
    refine ⟨k, rfl, fun i => ?_⟩
    rw [if_neg]
    rintro ⟨⟨j, hj, -⟩, -⟩
    exact absurd hj (Nat.not_lt_zero j)
  | succ n ih =>
    simp only [touched_succ]
    by_cases hp : (k.pte s (pageIndex va)).present = true
    · obtain ⟨k', hr, hpt⟩ := ih (va + pageSize)
        (k.setPte s (pageIndex va) ((k.pte s (pageIndex va)).reflag prot))
      refine ⟨k', ?_, fun i => ?_⟩
      · rw [protectPages_succ, if_pos hp]
        exact hr
      rw [hpt, reflagged_pte k s _ i prot hp]
      by_cases hi : i = pageIndex va
      · subst hi
        rw [if_pos rfl, reflag_present, reflag_reflag, ite_self, if_pos ⟨Or.inl rfl, hp⟩]
      · simp only [hi, ↓reduceIte, false_or]
    · obtain ⟨k', hr, hpt⟩ := ih (va + pageSize) k
      refine ⟨k', ?_, fun i => ?_⟩
      · rw [protectPages_succ, if_neg hp]
        exact hr
      rw [hpt]
      by_cases hi : i = pageIndex va
      · subst hi
        rw [if_neg fun h => hp h.2, if_neg fun h => hp h.2]
      · simp only [hi, false_or]

/-- What `protect` needs once some region spans its range. -/
def ProtectSafe (k : Kernel φ) (s start len : Nat) (prot : Prot) : Prop :=
  start + len + pageSize < wordSize ∧
    ((k.spaces s).regions.any (fun r => r.start ≤ alignDown start ∧ rangeEnd start len ≤ r.end) =
        true →
      ProtectOk (k.spaces s).regions start len ∧
      ∀ j < pagesIn (alignDown start) (rangeEnd start len),
        Outside (pageIndex (alignDown start + j * pageSize)) →
        (k.pte s (pageIndex (alignDown start + j * pageSize))).present = true →
        (k.pte s (pageIndex (alignDown start + j * pageSize))).reflag prot =
          k.pte s (pageIndex (alignDown start + j * pageSize)))

theorem protect_safe_iff (start len : Nat) (prot : Prot) :
    Safe s (protect s start len prot) k ↔ ProtectSafe k s start len prot := by
  have heq := protect_eq s start len prot k
  by_cases h1 : start + len + pageSize < wordSize
  swap
  · rw [if_neg h1] at heq
    exact ⟨fun h => absurd h (not_safe_overflow heq), fun h => absurd h.1 h1⟩
  rw [if_pos h1] at heq
  by_cases h2 : (k.spaces s).regions.any
      (fun r => r.start ≤ alignDown start ∧ rangeEnd start len ≤ r.end) = true
  swap
  · rw [if_neg h2] at heq
    exact ⟨fun _ => ⟨h1, fun h => absurd h h2⟩, fun _ => safe_stop (by decide) heq⟩
  rw [if_pos h2] at heq
  by_cases h3 : ProtectOk (k.spaces s).regions start len
  swap
  · rw [if_neg h3] at heq
    exact ⟨fun h => absurd h (not_safe_overflow heq), fun h => absurd (h.2 h2).1 h3⟩
  rw [if_pos h3] at heq
  obtain ⟨k', hr, hpt⟩ := protectPages_eq s (alignDown start)
    (pagesIn (alignDown start) (rangeEnd start len)) prot
    (k.setRegions s ((k.spaces s).regions.flatMap
      (protectPieces (alignDown start) (rangeEnd start len) prot)))
  simp only [setRegions_pte] at hpt
  rw [hr] at heq
  constructor
  · intro h
    refine ⟨h1, fun _ => ⟨h3, fun j hj ho hp => ?_⟩⟩
    have hs := h.outside _ ho
    rw [heq] at hs
    have hpj := hpt (pageIndex (alignDown start + j * pageSize))
    rw [if_pos ⟨⟨j, hj, rfl⟩, hp⟩] at hpj
    exact hpj.symm.trans hs
  rintro ⟨-, h⟩
  obtain ⟨-, hsame⟩ := h h2
  refine ⟨fun k'' hr' => ?_, fun i hi => ?_⟩
  · rw [heq] at hr'
    cases hr'
  rw [heq]
  show k'.pte s i = k.pte s i
  rw [hpt]
  split
  · rename_i hc
    obtain ⟨⟨j, hj, rfl⟩, hp⟩ := hc
    exact hsame j hj hi hp
  · rfl

end Fastros.Mm
