import Fastros.Mm.Syscall

/-!
# Which memory system calls stay in user space

`mmap` and `brk` on top of `unmap`, and the four system calls together.
-/

namespace Fastros.Mm

open Lib.Stateful

variable {φ : Type} {A : FrameAllocator φ} {s : Nat} {k : Kernel φ}

variable {prot : Prot} {file : Option (Nat × Nat)} {shared : Bool}

theorem pushRegion_safe_iff (r : Region) :
    Safe s (pushRegion s r) k ↔ r.end + pageSize < wordSize := by
  have heq := pushRegion_eq s r k
  by_cases h : r.end + pageSize < wordSize
  swap
  · rw [if_neg h] at heq
    exact iff_of_false (not_safe_overflow heq) h
  refine iff_of_true ?_ h
  rw [if_pos h] at heq
  split at heq
  · exact safe_stop (by decide) heq
  split at heq
  · exact safe_stop (by decide) heq
  refine ⟨fun k' h' => ?_, fun i _ => ?_⟩
  · rw [heq] at h'
    cases h'
  · rw [heq]
    exact setRegions_pte k s s i _

theorem pushRegion_outside (pt : Nat → Pte) (r : Region) :
    Keeps (OutsideIs (φ := φ) s pt) (pushRegion s r) := by
  refine keeps_state fun k hk => ?_
  rw [pushRegion_eq]
  split
  · split
    · exact hk
    · split
      · exact hk
      · exact fun i hi => (setRegions_pte k s s i _).trans (hk i hi)
  · exact hk

theorem place_outside (pt : Nat → Pte) (start len : Nat) :
    Keeps (OutsideIs (φ := φ) s pt) (place s start len prot file shared) := by
  refine .bind (keeps_add _ _) fun e => ?_
  cases file with
  | some f =>
    refine Keeping.ite (fun _ => .bind .get fun k => ?_) fun _ => pushRegion_outside _ _
    cases (k.files f.1).sharedMmap with
    | some | none => exact pushRegion_outside _ _
  | none =>
    refine .ite (fun _ => .bind ?_ fun _ => pushRegion_outside _ _) fun _ => pushRegion_outside _ _
    exact Keeping.bind .get fun _ => .bind (.modify fun _ => id) fun _ => .pure _

/-- All that a failed placement leaves behind is an empty shared object. -/
def Untouched (k k' : Kernel φ) : Prop :=
  k' = k ∨ k' = { k with nobjs := k.nobjs + 1, objs := Function.update k.objs k.nobjs [] }

/-- Past the sum every branch of `place` is one push, after at most a fresh shared object. -/
theorem place_push (prot : Prot) (file : Option (Nat × Nat)) (shared : Bool) {start len : Nat}
    (hsum : start + len < wordSize) (k : Kernel φ) :
    ∃ r : Region, r.start = start ∧ r.end = start + len ∧ ∃ k1, Untouched k k1 ∧
      place s start len prot file shared k = pushRegion s r k1 := by
  unfold place
  rw [run_bind, add_eq, if_pos hsum]
  cases file with
  | some f =>
    obtain ⟨f, off⟩ := f
    cases shared with
    | false => exact ⟨_, rfl, rfl, k, .inl rfl, rfl⟩
    | true =>
      simp only [↓reduceIte, run_bind, run_get]
      cases (k.files f).sharedMmap with
      | some | none => exact ⟨_, rfl, rfl, k, .inl rfl, rfl⟩
  | none =>
    cases shared with
    | false => exact ⟨_, rfl, rfl, k, .inl rfl, rfl⟩
    | true =>
      refine ⟨{ start := start, «end» := start + len, prot := prot, shared := some k.nobjs },
        rfl, rfl, _, .inr rfl, ?_⟩
      show mapSharedRegion s start (start + len) prot k = _
      unfold mapSharedRegion newShared
      simp only [run_bind, run_get, run_modify, run_pure]

theorem place_safe_iff (prot : Prot) (file : Option (Nat × Nat)) (shared : Bool) (start len : Nat) :
    Safe s (place s start len prot file shared) k ↔ start + len + pageSize < wordSize := by
  by_cases hsum : start + len < wordSize
  swap
  · have hstop : place s start len prot file shared k = .error .overflow k := by
      unfold place
      rw [run_bind, add_eq, if_neg hsum]
    exact iff_of_false (not_safe_overflow hstop) (by omega)
  obtain ⟨r, -, hend, k1, hk1, heq⟩ := place_push (s := s) prot file shared hsum k
  have hpt : ∀ i, k1.pte s i = k.pte s i := fun i => by rcases hk1 with rfl | rfl <;> rfl
  rw [← hend, ← pushRegion_safe_iff]
  constructor
  · intro h
    exact ⟨fun k' h' => h.noOverflow k' (heq.trans h'), fun i hi => by
      rw [hpt, ← heq]; exact h.outside i hi⟩
  · intro h
    exact ⟨fun k' h' => h.noOverflow k' (heq.symm.trans h'), fun i hi => by
      rw [← hpt, heq]; exact h.outside i hi⟩

/-- What `mmap` needs. -/
def MmapSafe (k : Kernel φ) (s hint len : Nat) (fixed : Bool) : Prop :=
  max len 1 + pageSize < wordSize ∧
    if fixed then UnmapSafe k s (alignDown hint) (wholePages len)
    else
      (userStart ≤ hint → alignDown hint + wholePages len < wordSize) ∧
      (¬ (userStart ≤ hint ∧
          overlaps (k.spaces s).regions (alignDown hint) (alignDown hint + wholePages len) = false ∧
          alignDown hint + wholePages len ≤ userEnd) →
        wholePages len ≤ (k.spaces s).mmapTop →
        alignDown ((k.spaces s).mmapTop - wholePages len) + wholePages len + pageSize < wordSize)

/-- The unhinted half of `mmap`. -/
def mmapLow (s len : Nat) (prot : Prot) (file : Option (Nat × Nat)) (shared : Bool) : KM φ Nat := do
  let top := (← space s).mmapTop
  if top < len then throw (.errno .enomem)
  let start := alignDown (top - len)
  place s start len prot file shared
  modifySpace s fun sp => { sp with mmapTop := start }
  return start

theorem mmap_eq (A : FrameAllocator φ) (s : Nat) (prot : Prot) (file : Option (Nat × Nat))
    (shared : Bool) (hint len : Nat) (fixed : Bool) (k : Kernel φ) :
    mmap A s hint len prot fixed file shared k =
      if max len 1 + pageSize < wordSize then
        if fixed then (do
          ignoreErr (unmap A s (alignDown hint) (wholePages len))
          place s (alignDown hint) (wholePages len) prot file shared
          return alignDown hint : KM φ Nat) k
        else if userStart ≤ hint then
          if alignDown hint + wholePages len < wordSize then
            if overlaps (k.spaces s).regions (alignDown hint) (alignDown hint + wholePages len) =
                false ∧ alignDown hint + wholePages len ≤ userEnd then (do
              place s (alignDown hint) (wholePages len) prot file shared
              return alignDown hint : KM φ Nat) k
            else mmapLow s (wholePages len) prot file shared k
          else .error .overflow k
        else mmapLow s (wholePages len) prot file shared k
      else .error .overflow k := by
  unfold mmap
  rw [run_bind, alignUp_eq]
  by_cases h1 : max len 1 + pageSize < wordSize
  swap
  · rw [if_neg h1, if_neg h1]
  rw [if_pos h1, if_pos h1]
  have hn : alignDown (max len 1 + (pageSize - 1)) = wholePages len := rfl
  dsimp only
  rw [hn]
  generalize wholePages len = n
  cases fixed with
  | true => rfl
  | false =>
    rw [if_neg Bool.false_ne_true, if_neg Bool.false_ne_true]
    by_cases hh : userStart ≤ hint
    swap
    · rw [if_neg hh, if_neg hh]
      rfl
    rw [if_pos hh, if_pos hh, run_bind, hintFits_eq]
    by_cases hw : alignDown hint + n < wordSize
    swap
    · rw [if_neg hw, if_neg hw]
    rw [if_pos hw, if_pos hw]
    by_cases hf : overlaps (k.spaces s).regions (alignDown hint) (alignDown hint + n) = false ∧
        alignDown hint + n ≤ userEnd
    · rw [if_pos hf, decide_eq_true hf]
      rfl
    · rw [if_neg hf, decide_eq_false hf]
      rfl

theorem modifySpace_outside {f : AddressSpace → AddressSpace} (hf : ∀ sp, (f sp).pt = sp.pt)
    (pt : Nat → Pte) : Keeps (OutsideIs (φ := φ) s pt) (modifySpace s f) :=
  keeps_modifySpace fun k hk i hi => (setSpace_pte k s s i (hf _)).trans (hk i hi)

theorem mmapLow_eq (s : Nat) (prot : Prot) (file : Option (Nat × Nat)) (shared : Bool) (len : Nat)
    (k : Kernel φ) : mmapLow s len prot file shared k =
    if (k.spaces s).mmapTop < len then .error (.errno .enomem) k
    else (do
      place s (alignDown ((k.spaces s).mmapTop - len)) len prot file shared
      modifySpace s fun sp => { sp with mmapTop := alignDown ((k.spaces s).mmapTop - len) }
      return alignDown ((k.spaces s).mmapTop - len) : KM φ Nat) k := by
  unfold mmapLow space
  by_cases ht : (k.spaces s).mmapTop < len
  · simp only [run_bind, run_get, run_pure, ht, ↓reduceIte, run_throw]
  · simp only [run_bind, run_get, run_pure, ht, ↓reduceIte]

theorem mmapLow_safe_iff (len : Nat) :
    Safe s (mmapLow s len prot file shared) k ↔ (len ≤ (k.spaces s).mmapTop →
      alignDown ((k.spaces s).mmapTop - len) + len + pageSize < wordSize) := by
  have heq := mmapLow_eq s prot file shared len k
  by_cases ht : (k.spaces s).mmapTop < len
  · rw [if_pos ht] at heq
    exact iff_of_true (safe_stop (by decide) heq) fun h => absurd ht (Nat.not_lt.mpr h)
  rw [if_neg ht] at heq
  have hmove := fun pt => Keeping.bind (modifySpace_outside (φ := φ) (s := s)
    (f := fun sp => { sp with mmapTop := alignDown ((k.spaces s).mmapTop - len) })
    (fun _ => rfl) pt) fun _ => Keeping.pure (alignDown ((k.spaces s).mmapTop - len))
  rw [safe_congr heq, imp_iff_right (Nat.le_of_not_lt ht)]
  rw [← place_safe_iff prot file shared]
  constructor
  · intro h
    exact safe_of_bind h fun _ pt => hmove pt
  · intro h
    refine safe_bind h fun _ k' _ => safe_of_keeps (hmove _) ?_
    exact Raises.bind (.modify _) fun _ => .pure _

/-- `unmap`, its error dropped, then something harmless. -/
theorem unmapThen_safeExactly {start len : Nat} {α : Type} {f : Unit → KM φ α}
    (hf : start + len + pageSize < wordSize → ∀ k', Safe s (f ()) k')
    (ho : ∀ pt : Nat → Pte, Keeps (OutsideIs s pt) (f ())) :
    SafeExactly s (ignoreErr (unmap A s start len) >>= f) k (UnmapSafe k s start len) := by
  constructor
  · intro h
    exact safe_bind (ignoreErr_safe_iff.mpr (unmap_safe h)) fun _ k' _ => hf h.fits.1 k'
  · intro hc h
    have hu := ignoreErr_safe_iff.mp (safe_of_bind h fun _ pt => ho pt)
    exact unmapSafe_of_safe hu (completes_of_ignoreErr (completes_of_bind hc))

theorem mmap_safeExactly (prot : Prot) (file : Option (Nat × Nat)) (shared : Bool) (hint len : Nat)
    (fixed : Bool) :
    SafeExactly s (mmap A s hint len prot fixed file shared) k (MmapSafe k s hint len fixed) := by
  have heq := mmap_eq A s prot file shared hint len fixed k
  unfold MmapSafe
  by_cases h1 : max len 1 + pageSize < wordSize
  swap
  · rw [if_neg h1] at heq
    exact .of_iff (iff_of_false (not_safe_overflow heq) fun h => h1 h.1)
  rw [if_pos h1] at heq
  rw [and_iff_right h1]
  cases fixed with
  | true =>
    refine safeExactly_congr heq (unmapThen_safeExactly (fun hsum k' => ?_) fun pt => ?_)
    · exact safe_bind ((place_safe_iff prot file shared _ _).mpr hsum) fun _ _ _ => safe_pure _
    · exact Keeping.bind (place_outside pt _ _) fun _ => .pure _
  | false =>
    rw [if_neg Bool.false_ne_true] at heq ⊢
    refine .of_iff ?_
    by_cases hh : userStart ≤ hint
    swap
    · rw [if_neg hh] at heq
      rw [safe_congr heq, mmapLow_safe_iff]
      exact ⟨fun h => ⟨fun h' => absurd h' hh, fun _ => h⟩, fun h => h.2 fun h' => hh h'.1⟩
    rw [if_pos hh] at heq
    by_cases hw : alignDown hint + wholePages len < wordSize
    swap
    · rw [if_neg hw] at heq
      exact iff_of_false (not_safe_overflow heq) fun h => hw (h.1 hh)
    rw [if_pos hw] at heq
    by_cases hf : overlaps (k.spaces s).regions (alignDown hint) (alignDown hint + wholePages len) =
        false ∧ alignDown hint + wholePages len ≤ userEnd
    · rw [if_pos hf] at heq
      have hsum : alignDown hint + wholePages len + pageSize < wordSize :=
        Nat.lt_of_le_of_lt (Nat.add_le_add_right hf.2 _) (by decide)
      refine iff_of_true ?_ ⟨fun _ => hw, fun h => absurd ⟨hh, hf⟩ h⟩
      rw [safe_congr heq]
      exact safe_bind ((place_safe_iff prot file shared _ _).mpr hsum) fun _ _ _ => safe_pure _
    · rw [if_neg hf] at heq
      rw [safe_congr heq, mmapLow_safe_iff]
      exact ⟨fun h => ⟨fun _ => hw, fun _ => h⟩, fun h => h.2 fun h' => hf h'.2⟩

/-- What `brk` needs: the page of `addr` exists, and a shrink is a safe `unmap`. -/
def BrkSafe (k : Kernel φ) (s addr : Nat) : Prop :=
  (k.spaces s).brkBase ≤ addr → addr + pageSize < wordSize ∧
    (rangeEnd addr 0 < (k.spaces s).brk →
      UnmapSafe k s (rangeEnd addr 0) ((k.spaces s).brk - rangeEnd addr 0))

theorem brk_safeExactly (addr : Nat) : SafeExactly s (brk A s addr) k (BrkSafe k s addr) := by
  have heq := brk_eq A s addr k
  unfold BrkSafe
  by_cases h0 : addr < (k.spaces s).brkBase
  · rw [if_pos h0] at heq
    refine .of_iff (iff_of_true ?_ fun h => absurd h0 (Nat.not_lt.mpr h))
    exact (safe_congr heq).mpr (safe_pure _)
  rw [if_neg h0] at heq
  rw [imp_iff_right (Nat.le_of_not_lt h0)]
  by_cases h1 : addr + pageSize < wordSize
  swap
  · rw [if_neg h1] at heq
    exact .of_iff (iff_of_false (not_safe_overflow heq) fun h => h1 h.1)
  rw [if_pos h1] at heq
  rw [and_iff_right h1]
  generalize rangeEnd addr 0 = new at heq
  have hsame : ∀ {k' : Kernel φ} {n : Nat}, brk A s addr k = .ok n k' →
      (∀ i, k'.pte s i = k.pte s i) → ¬ new < (k.spaces s).brk →
      SafeExactly s (brk A s addr) k (new < (k.spaces s).brk →
        UnmapSafe k s new ((k.spaces s).brk - new)) := by
    intro k' n hr hpt hlt
    refine .of_iff (iff_of_true ⟨fun k'' h => ?_, fun i _ => ?_⟩ fun h => absurd h hlt)
    · rw [hr] at h
      cases h
    · rw [hr]
      exact hpt i
  have hmove : ∀ (k' : Kernel φ) i, (k'.moveBrk s new).pte s i = k'.pte s i :=
    fun k' i => setSpace_pte k' s s i rfl
  by_cases h2 : (k.spaces s).brk < new
  · rw [if_pos h2] at heq
    have hlt : ¬ new < (k.spaces s).brk := by omega
    split at heq
    · exact hsame heq (fun i => (hmove _ i).trans (setRegions_pte k s s i _)) hlt
    · split at heq
      · exact hsame heq (fun _ => rfl) hlt
      · exact hsame heq (fun i => (hmove _ i).trans (setRegions_pte k s s i _)) hlt
  rw [if_neg h2] at heq
  by_cases h3 : new < (k.spaces s).brk
  · rw [if_pos h3] at heq
    rw [imp_iff_right h3]
    have ho : ∀ pt : Nat → Pte, Keeps (OutsideIs s pt) (do
        modifySpace s fun sp => { sp with brk := new }
        return new : KM φ Nat) :=
      fun pt => .bind (modifySpace_outside (f := fun sp => { sp with brk := new })
        (fun _ => rfl) pt) fun _ => Keeping.pure _
    refine safeExactly_congr heq (unmapThen_safeExactly (fun _ k' => ?_) ho)
    exact safe_of_keeps (ho _) (.bind (.modify _) fun _ => .pure _)
  · rw [if_neg h3] at heq
    exact hsame heq (hmove k) h3

inductive SysCall where
  | mmap (addr len prot flags : Nat) (fd : Int) (off : Nat)
  | munmap (addr len : Nat)
  | mprotect (addr len prot : Nat)
  | brk (addr : Nat)

/-- The call made by a process with descriptors `fds` and address space `s`. -/
def SysCall.run (A : FrameAllocator φ) (fds : Int → Option Nat) (s : Nat) : SysCall → KM φ Nat
  | .mmap addr len prot flags fd off => sysMmap A fds s addr len prot flags fd off
  | .munmap addr len => sysMunmap A s addr len
  | .mprotect addr len prot => sysMprotect s addr len prot
  | .brk addr => sysBrk A s addr

/-- The arguments and states for which a call is safe. `mmap` fails before it does
anything on a zero length, on flags that are neither shared nor private, and on
a bad descriptor. -/
def SysCall.StaysInUser (fds : Int → Option Nat) (k : Kernel φ) (s : Nat) : SysCall → Prop
  | .mmap addr len _ flags fd _ =>
    len ≠ 0 → flags &&& (mapShared ||| mapPrivate) ≠ 0 →
      (flags &&& mapAnonymous = 0 ∧ 0 ≤ fd → fds fd ≠ none) →
      MmapSafe k s addr len (flags &&& mapFixed ≠ 0)
  | .munmap addr len => UnmapSafe k s addr len
  | .mprotect addr len prot => ProtectSafe k s addr len (protFrom prot)
  | .brk addr => BrkSafe k s addr

theorem mmapFile_eq (fds : Int → Option Nat) (flags : Nat) (fd : Int) (off : Nat) (k : Kernel φ) :
    ((flags &&& mapAnonymous = 0 ∧ 0 ≤ fd) ∧ fds fd = none ∧
        mmapFile fds flags fd off k = .error (.errno .ebadf) k) ∨
      ((flags &&& mapAnonymous = 0 ∧ 0 ≤ fd → fds fd ≠ none) ∧
        ∃ file, mmapFile fds flags fd off k = .ok file k) := by
  unfold mmapFile
  by_cases h : flags &&& mapAnonymous = 0 ∧ 0 ≤ fd
  · rw [if_pos h]
    cases hf : fds fd with
    | none => exact .inl ⟨h, rfl, rfl⟩
    | some f => exact .inr ⟨fun _ h' => (by cases h'), _, rfl⟩
  · rw [if_neg h]
    exact .inr ⟨fun h' => absurd h' h, _, rfl⟩

theorem sysMmap_safeExactly (fds : Int → Option Nat) (addr len prot flags : Nat) (fd : Int)
    (off : Nat) :
    SafeExactly s (sysMmap A fds s addr len prot flags fd off) k
      (SysCall.StaysInUser fds k s (.mmap addr len prot flags fd off)) := by
  rw [SysCall.StaysInUser]
  by_cases h1 : len = 0
  · have heq : sysMmap A fds s addr len prot flags fd off k = .error (.errno .einval) k := by
      unfold sysMmap
      rw [if_pos h1]
      rfl
    exact .of_iff (iff_of_true (safe_stop (by decide) heq) fun h => absurd h1 h)
  by_cases h2 : flags &&& (mapShared ||| mapPrivate) = 0
  · have heq : sysMmap A fds s addr len prot flags fd off k = .error (.errno .einval) k := by
      unfold sysMmap
      rw [if_neg h1, if_pos h2]
      rfl
    exact .of_iff (iff_of_true (safe_stop (by decide) heq) fun _ h => absurd h2 h)
  have hrun : sysMmap A fds s addr len prot flags fd off k =
      (mmapFile fds flags fd off >>= fun file => mmap A s addr len (mmapProt prot)
        (flags &&& mapFixed ≠ 0) file (flags &&& mapShared ≠ 0)) k := by
    unfold sysMmap
    rw [if_neg h1, if_neg h2]
  rw [run_bind] at hrun
  rcases mmapFile_eq fds flags fd off k with ⟨hc, hnone, hf⟩ | ⟨hc, file, hf⟩
  · rw [hf] at hrun
    exact .of_iff (iff_of_true (safe_stop (by decide) hrun) fun _ _ h => absurd hnone (h hc))
  rw [hf] at hrun
  dsimp only at hrun
  have h := mmap_safeExactly (A := A) (s := s) (k := k) (mmapProt prot) file
    (flags &&& mapShared ≠ 0) addr len (flags &&& mapFixed ≠ 0)
  have hC : ∀ {p : Prop}, (len ≠ 0 → flags &&& (mapShared ||| mapPrivate) ≠ 0 →
      (flags &&& mapAnonymous = 0 ∧ 0 ≤ fd → fds fd ≠ none) → p) ↔ p :=
    ⟨fun h => h h1 h2 hc, fun h _ _ _ => h⟩
  rw [hC]
  exact safeExactly_congr hrun h

/-- **A memory system call overflows nothing and changes no entry outside the user
range when `StaysInUser` holds, and only then unless an assertion stops it.** -/
theorem sysCall_safeExactly (A : FrameAllocator φ) (fds : Int → Option Nat) (s : Nat)
    (k : Kernel φ) (c : SysCall) : SafeExactly s (c.run A fds s) k (c.StaysInUser fds k s) := by
  have hret : ∀ {x : KM φ Unit} {C : Prop}, SafeExactly s x k C →
      SafeExactly s (do x; return 0 : KM φ Nat) k C := by
    intro x C h
    constructor
    · intro hC
      exact safe_bind (h.safe hC) fun _ _ _ => safe_pure _
    · intro hc hs
      exact h.only (completes_of_bind hc) (safe_of_bind hs fun _ _ => Keeping.pure _)
  cases c with
  | mmap addr len prot flags fd off => exact sysMmap_safeExactly fds addr len prot flags fd off
  | munmap addr len => exact hret ⟨unmap_safe, fun hc h => unmapSafe_of_safe h hc⟩
  | mprotect addr len prot => exact hret (.of_iff (protect_safe_iff addr len _))
  | brk addr => exact brk_safeExactly addr

def vmallocStart : Nat := 0xFFFFC00000000000

/-- A kernel with a stack page mapped in vmalloc space. -/
def stackKernel : Kernel (List PhysAddr) :=
  { bootKernel 4 with
    kpt := Function.update (fun _ => {}) (pageIndex (vmallocStart + 0x5000))
      { present := true, writable := true, addr := 0x1000 } }

/-- A length of `2^64 - 1` overflows in `align_up`, and `munmap` clears the
kernel's own entries. -/
theorem sysCall_escapes :
    ¬ Safe 0 (SysCall.run listAllocator (fun _ => none) 0
      (.mmap 0 0xFFFFFFFFFFFFFFFF 3 0x22 (-1) 0)) (bootKernel 4) ∧
    ¬ Safe 0 (SysCall.run listAllocator (fun _ => none) 0
      (.munmap (vmallocStart + 0x5000) 0x1000)) stackKernel := by
  constructor
  · exact not_safe_overflow rfl
  · intro h
    exact absurd (h.outside (pageIndex (vmallocStart + 0x5000)) (.inr (by decide))) (by decide)

end Fastros.Mm
