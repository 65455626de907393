import Fastros.Mm.Panics

/-!
# The processes of a container

Processes fault, map, fork, execute another image and exit; each owns one space.
`start_user_with` is the only place that charges a space to a container, and it does so
after the space was loaded or forked; `execve` replaces the space and charges the new one
to nobody. `elf::load` writes the initial stack of every program, so the first process of
a container has pages that its counter does not know of.
-/

namespace Fastros.Mm

open Lib.Stateful Lib.Run
open Finset (range)
open Function (update update_self update_of_ne)

variable {φ : Type}

/-- The kernel, and the container of the process that owns each space. -/
structure Machine (φ : Type) where
  kernel : Kernel φ
  member : Nat → Option String

/-- What the loader does to a new space: map regions, set the break, and write
the image's data and the initial stack through `fault_in`. -/
inductive LoadStep where
  | region (start «end» : Nat) (prot : Prot) (growsDown : Bool)
  | segment (start «end» : Nat) (prot : Prot) (file offset length : Nat)
  | brkBase (base : Nat)
  | touch (page : Nat) (write : Bool)

variable (A : FrameAllocator φ)

def LoadStep.run (s : Nat) : LoadStep → KM φ Unit
  | .region start «end» prot growsDown => mapRegion s start «end» prot growsDown
  | .segment start «end» prot file offset length =>
    mapFileRegion s start «end» prot file offset length
  | .brkBase base => setBrkBase s base
  | .touch page write => faultIn A s (alignDown page) write

def loadSteps (s : Nat) : List LoadStep → KM φ Unit
  | [] => return
  | l :: ls => do
    l.run A s
    loadSteps s ls

/-- `elf::load`; a failure drops the unfinished space. -/
def load (image : List LoadStep) : KM φ Nat := do
  let s ← newSpace A
  fun k => match loadSteps A s image k with
    | .error (.errno e) k' => (do dropSpace A s; throw (.errno e) : KM φ Nat) k'
    | .error e k' => .error e k'
    | .ok _ k' => .ok s k'

inductive Event where
  | call (s : Nat) (c : Call)
  | touch (s addr : Nat) (write : Bool)
  | spawn (cid : String) (image : List LoadStep)
  | fork (s : Nat)
  | exec (s : Nat) (image : List LoadStep)
  | exit (s : Nat)

/-- An error code is returned to the process, a panic ends the run. -/
def Machine.after {α : Type} (m : Machine φ) (member : α → Nat → Option String) :
    EStateM.Result Stop (Kernel φ) α → Option (Machine φ)
  | .ok a k => some ⟨k, member a⟩
  | .error (.errno _) k => some ⟨k, m.member⟩
  | .error _ _ => none

/-- `start_user_with` on a loaded image. -/
def spawn (cid : Option String) (image : List LoadStep) : KM φ Nat := do
  let s ← load A image
  setContainer s cid
  return s

/-- The `fork` system call. -/
def sysFork (cid : Option String) (s : Nat) : KM φ Nat := do
  let child ← fork A s
  setContainer child cid
  return child

/-- `execve`: the new space takes the process, the old one is dropped. -/
def execve (s : Nat) (image : List LoadStep) : KM φ Nat := do
  let s' ← load A image
  dropSpace A s
  return s'

def Machine.step : Event → Machine φ → Option (Machine φ)
  | .call s c, m => m.after (fun _ => m.member) (c.run A s m.kernel)
  | .touch s addr write, m => m.after (fun _ => m.member) (faultIn A s (alignDown addr) write m.kernel)
  | .spawn cid image, m =>
    m.after (update m.member · (some cid)) (spawn A (some cid) image m.kernel)
  | .fork s, m =>
    m.after (update m.member · (m.member s)) (sysFork A (m.member s) s m.kernel)
  | .exec s image, m =>
    m.after (fun s' => update (update m.member s' (m.member s)) s none) (execve A s image m.kernel)
  | .exit s, m => m.after (fun _ => update m.member s none) (dropSpace A s m.kernel)

/-- The present user pages of a page table. -/
def resident (pt : Nat → Pte) : Nat :=
  ∑ i ∈ Finset.range kernelHalf, if (pt i).present then 1 else 0

/-- The present user pages of the container's processes. -/
def Machine.total (m : Machine φ) (cid : String) : Nat :=
  ∑ s ∈ Finset.range m.kernel.nspaces,
    if m.member s = some cid then resident (m.kernel.spaces s).pt else 0

/-- The step makes a page of the new space present. -/
def LoadStep.touches : LoadStep → Bool
  | .touch .. => true
  | _ => false

/-- The event is one of the container's processes'. -/
def Event.By (cid : String) (m : Machine φ) : Event → Prop
  | .call s _ => m.member s = some cid
  | .touch s _ _ => m.member s = some cid
  | .spawn c _ => c = cid
  | .fork s => m.member s = some cid
  | .exec s _ => m.member s = some cid
  | .exit s => m.member s = some cid

/-- `cgroup::create`. -/
def createCgroup (k : Kernel φ) (cid : String) (memBytes : Nat) : Kernel φ :=
  k.setCgroup cid
    { memLimitPages := (memBytes + (pageSize - 1)) / pageSize
      swapLimitPages := (memBytes + (pageSize - 1)) / pageSize }

variable {A} {s : Nat} {c : String → Option Cgroup} {k : Kernel φ}

theorem resident_eq_zero {pt : Nat → Pte} : resident pt = 0 ↔ ∀ i < kernelHalf, (pt i).present = false := by
  unfold resident
  rw [Finset.sum_eq_zero_iff]
  constructor
  · intro h i hi
    have h0 := h i (Finset.mem_range.mpr hi)
    cases hp : (pt i).present with
    | false => rfl
    | true =>
      rw [hp] at h0
      cases h0
  · intro h i hi
    rw [h i (Finset.mem_range.mp hi)]
    rfl

theorem resident_pos {pt : Nat → Pte} {i : Nat} (hi : i < kernelHalf) (h : (pt i).present = true) :
    1 ≤ resident pt := by
  refine Nat.pos_of_ne_zero fun h0 => ?_
  rw [resident_eq_zero.mp h0 i hi] at h
  cases h

/-- A space that is charged to nobody, with the counters of all containers. -/
structure Uncharged (s : Nat) (c : String → Option Cgroup) (k : Kernel φ) : Prop where
  container : (k.spaces s).container = none
  cgroups : k.cgroups = c
  lt : s < k.nspaces
  high : ∀ r ∈ (k.spaces s).regions, r.end ≤ userEnd

/-- The counters stay as they are whatever faults in such a space. -/
theorem uncharged_unseen : Unseen s (Uncharged (φ := φ) s c) where
  rest hs hn hc h := ⟨by rw [hs, h.container], hc.trans h.cgroups, hn.symm ▸ h.lt,
    fun r hr => h.high r (by rwa [hs] at hr)⟩
  cgroup _ _ _ hc h := absurd (h.container.symm.trans hc) nofun
  space {k sp} hp hc h := by
    have hregions : sp.regions = (k.spaces s).regions := congrArg Prod.fst hp
    refine ⟨by rw [setSpace_self, hc, h.container], h.cgroups, h.lt, fun r hr => ?_⟩
    rw [setSpace_self, hregions] at hr
    exact h.high r hr

theorem uncharged_setSpace {sp : AddressSpace} (h : Uncharged s c k) (hc : sp.container = none)
    (hr : ∀ r ∈ sp.regions, r.end ≤ userEnd) : Uncharged s c (k.setSpace s sp) :=
  ⟨by rw [setSpace_self, hc], h.cgroups, h.lt, fun r hm => hr r (by rwa [setSpace_self] at hm)⟩

theorem pushRegion_uncharged (r : Region) : Keeps (Uncharged (φ := φ) s c) (pushRegion s r) := by
  refine keeps_state fun k hk => ?_
  rw [pushRegion_eq]
  split
  · split
    · exact hk
    next hb =>
    split
    · exact hk
    refine uncharged_setSpace hk hk.container fun q hq => ?_
    rcases List.mem_append.mp hq with hq | hq
    · exact hk.high q hq
    · rw [List.mem_singleton.mp hq]
      show rangeEnd r.end 0 ≤ userEnd
      omega
  · exact hk

/-- A step of the loader changes no counter. -/
theorem loadStep_uncharged (l : LoadStep) : Keeps (Uncharged (φ := φ) s c) (l.run A s) := by
  cases l with
  | region start stop prot growsDown => exact pushRegion_uncharged _
  | segment start stop prot file offset length => exact pushRegion_uncharged _
  | brkBase base =>
    exact .bind (keeps_alignUp _) fun _ =>
      keeps_modifySpace fun k h => uncharged_setSpace h h.container h.high
  | touch page write =>
    exact triple_faultIn .self (fun _ => id) (fun _ _ h _ => h)
      fun r => unseen_ensurePage uncharged_unseen _ r write

theorem loadSteps_uncharged (image : List LoadStep) :
    Keeps (Uncharged (φ := φ) s c) (loadSteps A s image) := by
  induction image with
  | nil => exact Keeping.pure _
  | cons l ls ih => exact .bind (loadStep_uncharged l) fun _ => ih

theorem dropSpace_uncharged : Keeping (Uncharged (φ := φ) s c) (dropSpace A s) Panics := by
  have hU : Unseen s (Uncharged (φ := φ) s c) := uncharged_unseen
  have hrest : ∀ {k k' : Kernel φ}, k'.spaces = k.spaces → k'.nspaces = k.nspaces →
      k'.cgroups = k.cgroups → Uncharged s c k → Uncharged s c k' := hU.rest
  have hpages : ∀ rs, Keeping (Uncharged (φ := φ) s c) (releaseRegions A s rs) Panics := by
    intro rs
    induction rs with
    | nil => exact .pure _
    | cons r rs ih =>
      exact .bind (keeps_releasePages (P := Uncharged s c) .panics (fun _ _ => hrest rfl rfl rfl)
        (fun _ _ _ _ => hrest rfl rfl rfl) (fun _ _ _ h _ => hU.setPte h)
        fun _ _ => hrest rfl rfl rfl) fun _ => .bind ih fun _ => .pure _
  refine .bind (keeps_space s) fun sp => .bind
    (keeps_modifySpace fun k h => uncharged_setSpace h h.container nofun) fun _ =>
    .bind (hpages _) fun fs => ?_
  refine .bind (keeps_reapShared (P := Uncharged s c) .panics (fun _ _ => hrest rfl rfl rfl)
    (fun _ _ _ _ => hrest rfl rfl rfl) (fun _ _ => hrest rfl rfl rfl) _) fun _ => ?_
  refine .bind (keeps_unchargePages hU.cgroup (fun _ _ => hU.space rfl rfl) _) fun _ =>
    .bind (keeps_unchargeSwap hU.cgroup _) fun _ => .bind (keeps_space s) fun _ => ?_
  refine .bind (keeps_freeTables (P := Uncharged s c) .panics (fun _ _ _ _ => hrest rfl rfl rfl) _) fun _ =>
    .bind (keeps_freeFrame (P := Uncharged s c) .panics (fun _ _ _ _ => hrest rfl rfl rfl) _) fun _ => ?_
  exact .modify fun k h => uncharged_setSpace h rfl nofun

/-- The page is present. -/
def PresentAt (s i : Nat) (k : Kernel φ) : Prop := (k.pte s i).present = true

theorem triple_any {α : Type} {P : Kernel φ → Prop} (x : KM φ α) :
    Triple P x (fun _ _ => True) fun _ _ => True :=
  .intro fun k _ => by cases x k with
    | ok a k' => exact .ok trivial
    | error e k' => exact .error trivial

theorem map4k_present {P : Kernel φ → Prop} (va phys : Nat) (fl : Pte) :
    Triple P (map4k A s va phys fl) (fun _ => PresentAt s (pageIndex va)) fun _ _ => True := by
  have hset : Triple (fun _ : Kernel φ => True)
      (setLeafEntry s va { fl with addr := phys, present := true })
      (fun _ => PresentAt s (pageIndex va)) fun _ _ => True :=
    .modify fun k _ => by unfold PresentAt; rw [setPte_self]
  refine .bind (triple_any _) fun ok => .ite (fun _ => ?_) fun _ => .throw fun _ _ => trivial
  refine .bind (triple_any _) fun e => .ite (fun _ => ?_) fun _ => hset
  exact .bind (.throw fun _ _ => trivial) fun _ => hset

theorem doCow_present (page : Nat) {e : Pte} (he : e.present = true) {P : Kernel φ → Prop} :
    Triple P (doCow A s page e) (fun _ => PresentAt s (pageIndex page)) fun _ _ => True := by
  refine .bind (triple_any _) fun _ => .ite (fun _ => ?_) fun _ => .bind (triple_any _) fun o => ?_
  · exact .modify fun k _ => by unfold PresentAt; rw [setPte_self]; exact he
  cases o with
  | none => exact .throw fun _ _ => trivial
  | some new =>
    refine .bind (triple_any _) fun _ => .bind (R := fun _ => PresentAt s (pageIndex page))
      (.modify fun k _ => by unfold PresentAt; rw [setPte_self]) fun _ => ?_
    exact keeps_pagePut (fun _ _ => trivial) (fun _ _ => id) (fun _ _ _ _ => id) _

theorem swapIn_present (page : Nat) (e : Pte) (r : Region) {P : Kernel φ → Prop} :
    Triple P (swapIn A s page e r) (fun _ => PresentAt s (pageIndex page)) fun _ _ => True := by
  have hrest : ∀ p, Triple (fun _ : Kernel φ => True) (do
      map4k A s page p (toPageFlags r.prot); freeSlot (e.addr / pageSize); unchargeSwap s 1)
      (fun _ => PresentAt s (pageIndex page)) fun _ _ => True := fun p =>
    .bind (map4k_present page p _) fun _ =>
      .bind (.stop (keeps_freeSlot (fun _ _ => id) _) fun _ _ _ => trivial) fun _ =>
        keeps_unchargeSwap (fun _ _ _ _ => id) 1
  refine .bind (triple_any _) fun _ => .bind (triple_any _) fun p => .bind (triple_any _) fun ok =>
    .ite (fun _ => ?_) fun _ => hrest p
  exact .bind (triple_any _) fun _ => .bind (triple_any _) fun _ =>
    .bind (.throw fun _ _ => trivial) fun _ => hrest p

/-- A fault that is resolved leaves its page present. -/
theorem ensurePage_present (page : Nat) (r : Region) (write : Bool) {P : Kernel φ → Prop} :
    Triple P (ensurePage A s page r write) (fun _ => PresentAt s (pageIndex page))
      fun _ _ => True := by
  refine .bind (triple_leafEntry s page) fun e => .ite (fun he => ?_) fun _ =>
    .ite (fun _ => swapIn_present page e r) fun _ => .bind (triple_any _) fun _ => ?_
  · refine .ite (fun _ => doCow_present page he) fun _ => .pure fun k hk => ?_
    unfold PresentAt
    rw [hk.2]
    exact he
  cases r.shared with
  | some obj =>
    exact .bind (triple_any _) fun _ => .bind (triple_any _) fun _ => map4k_present _ _ _
  | none => exact .bind (triple_any _) fun _ => .bind (triple_any _) fun _ => map4k_present _ _ _

/-- Some page of the space is present. -/
def Populated (s : Nat) (k : Kernel φ) : Prop := ∃ i < kernelHalf, PresentAt s i k

theorem touch_populated (page : Nat) (write : Bool) :
    Triple (Uncharged s c) (faultIn A s page write) (fun _ => Populated s) fun _ _ => True := by
  have hfind : Triple (Uncharged s c) (regionAt s page)
      (fun o (_ : Kernel φ) => ∀ r, o = some r → page < userEnd) fun _ _ => True :=
    .total fun k hk => ⟨_, k, rfl, fun r hr => lt_of_lt_of_le (findRegion_contains hr).2
      (hk.high r (List.mem_of_find?_eq_some hr))⟩
  refine .bind hfind fun o => ?_
  cases o with
  | none => exact .throw fun _ _ => trivial
  | some r =>
    have hpage : Triple (fun _ : Kernel φ => ∀ q, some r = some q → page < userEnd)
        (ensurePage A s page r write) (fun _ => Populated s) fun _ _ => True :=
      .intro fun k hk => (Triple.mono (P := fun _ => True) (ensurePage_present page r write)
        (fun _ _ => trivial) (fun _ _ h => ⟨_, pageIndex_lt (hk r rfl), h⟩) fun _ _ h => h).ends
        (P := fun _ => True) trivial
    refine .ite (fun _ => ?_) fun _ => hpage
    exact .bind (R := fun _ _ => False) (.throw fun _ _ => trivial) fun _ => triple_absurd fun _ => id

theorem populated_setSpace {sp : AddressSpace} (h : Populated s k) (hp : sp.pt = (k.spaces s).pt) :
    Populated s (k.setSpace s sp) := by
  obtain ⟨i, hi, hpres⟩ := h
  refine ⟨i, hi, ?_⟩
  unfold PresentAt
  rw [setSpace_pte k s s i hp]
  exact hpres

/-- With a page present, any further step leaves one present. -/
theorem loadStep_populated (l : LoadStep) :
    Triple (fun k => Uncharged s c k ∧ Populated s k) (l.run A s) (fun _ => Populated s)
      fun _ _ => True := by
  have hpush : ∀ r, Keeps (Populated (φ := φ) s) (pushRegion s r) := by
    intro r
    refine keeps_state fun k hk => ?_
    rw [pushRegion_eq]
    split
    · split
      · exact hk
      · split
        · exact hk
        · exact populated_setSpace hk rfl
    · exact hk
  have hlift : ∀ {x : KM φ Unit}, Keeps (Populated s) x →
      Triple (fun k => Uncharged s c k ∧ Populated s k) x (fun _ => Populated s) fun _ _ => True :=
    fun h => .mono h (fun _ h => h.2) (fun _ _ => id) fun _ _ _ => trivial
  cases l with
  | region start stop prot growsDown => exact hlift (hpush _)
  | segment start stop prot file offset length => exact hlift (hpush _)
  | brkBase base =>
    exact hlift (.bind (keeps_alignUp _) fun _ =>
      keeps_modifySpace fun k h => populated_setSpace h rfl)
  | touch page write => exact .pre (touch_populated _ write) fun _ h => h.1

theorem loadStep_both (l : LoadStep) {Q : Kernel φ → Prop}
    (h : Triple (fun k => Uncharged s c k ∧ Q k) (l.run A s) (fun _ => Populated s) fun _ _ => True) :
    Triple (fun k => Uncharged s c k ∧ Q k) (l.run A s)
      (fun _ k => Uncharged s c k ∧ Populated s k) fun _ _ => True :=
  .mono (.and (loadStep_uncharged l) h) (fun _ h => ⟨h.1, h⟩) (fun _ _ => id) fun _ _ _ => trivial

theorem loadSteps_populated (image : List LoadStep) :
    Triple (fun k => Uncharged s c k ∧ Populated s k) (loadSteps A s image) (fun _ => Populated s)
      fun _ _ => True := by
  induction image with
  | nil => exact .pure fun _ h => h.2
  | cons l ls ih => exact .bind (loadStep_both l (loadStep_populated l)) fun _ => ih

/-- An image that touches a page leaves a page present. -/
theorem loadSteps_touching (image : List LoadStep) (h : ∃ l ∈ image, l.touches = true) :
    Triple (Uncharged s c) (loadSteps A s image) (fun _ => Populated s) fun _ _ => True := by
  induction image with
  | nil => exact absurd h (by simp)
  | cons l ls ih =>
    by_cases hl : l.touches = true
    · cases l with
      | touch page write =>
        exact .bind (.pre (loadStep_both _ (.pre (touch_populated _ write) fun _ h => h.1))
          fun k hk => ⟨hk, trivial⟩) fun _ => loadSteps_populated ls
      | region | segment | brkBase => cases hl
    · obtain ⟨l', hm, ht⟩ := h
      rcases List.mem_cons.mp hm with rfl | hm
      · exact absurd ht hl
      · exact .bind (.stop (loadStep_uncharged l) fun _ _ _ => trivial) fun _ => ih ⟨l', hm, ht⟩

/-- A loaded program has a page, and no counter has moved, nor has one if the load fails. -/
theorem load_populated (image : List LoadStep) (h : ∃ l ∈ image, l.touches = true) :
    Triple (fun k : Kernel φ => k.cgroups = c) (load A image)
      (fun s k => Uncharged s c k ∧ Populated s k) (OrPanic fun k => k.cgroups = c) := by
  have hnew : Triple (fun k : Kernel φ => k.cgroups = c) (newSpace A) (fun s => Uncharged s c)
      (OrPanic fun k => k.cgroups = c) := by
    refine .intro fun k hk => ?_
    rw [newSpace_eq]
    cases hal : A.alloc k.frames with
    | none => exact .error (.inr hk)
    | some pf =>
      have hself : (k.addSpace pf.2 pf.1 { pml4 := pf.1 }).spaces k.nspaces = { pml4 := pf.1 } :=
        update_self ..
      exact .ok ⟨by rw [hself], hk, Nat.lt_succ_self _, fun r hr => by rw [hself] at hr; cases hr⟩
  refine .bind hnew fun s => ?_
  have hsteps : Triple (Uncharged s c) (loadSteps A s image)
      (fun _ k => Uncharged s c k ∧ Populated s k) (OrPanic (Uncharged s c)) :=
    .mono (.and (loadSteps_uncharged image) (loadSteps_touching image h)) (fun _ h => ⟨h, h⟩)
      (fun _ _ => id) fun _ _ h => .inr h.1
  have hundo : Triple (Uncharged s c) (dropSpace A s) (fun _ k => k.cgroups = c) Panics :=
    .mono dropSpace_uncharged (fun _ => id) (fun _ _ h => h.cgroups) fun _ _ => id
  exact triple_rescue hsteps hundo (.pure fun _ => id)

variable {cid : String} {m m' : Machine φ}

/-- As after `cgroup::create`: no process, and a counter of 0. -/
structure Machine.Idle (cid : String) (m : Machine φ) : Prop where
  alone : ∀ s, m.member s ≠ some cid
  zero : ∃ cg, m.kernel.cgroups cid = some cg ∧ cg.memPages = 0

/-- The counter is the number of present pages. -/
def Machine.Counted (cid : String) (m : Machine φ) : Prop :=
  ∃ cg, m.kernel.cgroups cid = some cg ∧ cg.memPages = m.total cid

/-- `elf::load` writes the initial stack of every program. -/
def Event.Loads : Event → Prop
  | .spawn _ image | .exec _ image => ∃ l ∈ image, l.touches = true
  | _ => True

theorem Machine.Idle.counted (h : m.Idle cid) : m.Counted cid := by
  obtain ⟨cg, hcg, hz⟩ := h.zero
  have htot : m.total cid = 0 := Finset.sum_eq_zero fun s _ => if_neg (h.alone s)
  exact ⟨cg, hcg, by rw [hz, htot]; rfl⟩

/-- From an idle state an event leads to an idle one, or a process is there whose pages
are not counted. -/
theorem step_idle (e : Event) (h : m.Idle cid) (hby : e.By cid m) (hl : e.Loads)
    (hstep : m.step A e = some m') :
    m'.Idle cid ∨ (∃ s, m'.member s = some cid) ∧ ¬ m'.Counted cid := by
  cases e with
  | call s _ | touch s _ _ | fork s | exec s _ | exit s => exact absurd hby (h.alone s)
  | spawn c image =>
    obtain rfl : c = cid := hby
    have hload : Triple (fun k : Kernel φ => k.cgroups = m.kernel.cgroups) (spawn A (some c) image)
        (fun s k => s < k.nspaces ∧ k.cgroups = m.kernel.cgroups ∧ Populated s k)
        (OrPanic fun k => k.cgroups = m.kernel.cgroups) := by
      refine .bind (load_populated image hl) fun s => .bind (R := fun _ k => s < k.nspaces ∧
        k.cgroups = m.kernel.cgroups ∧ Populated s k) (.modify fun k hk => ?_) fun _ =>
        .pure fun _ => id
      exact ⟨hk.1.lt, hk.1.cgroups, populated_setSpace hk.2 rfl⟩
    rw [Machine.step] at hstep
    cases hr : spawn A (some c) image m.kernel with
    | ok s k =>
      rw [hr] at hstep
      cases hstep
      obtain ⟨hlt, hcg, i, hi, hp⟩ := hload.ok rfl hr
      refine .inr ⟨⟨s, update_self ..⟩, fun ⟨cg, hc, hmem⟩ => ?_⟩
      obtain ⟨cg', hc', hz⟩ := h.zero
      replace hc : k.cgroups c = some cg := hc
      have hpos : 1 ≤ resident (k.spaces s).pt := by
        unfold PresentAt Kernel.pte at hp
        rw [if_pos hi] at hp
        exact resident_pos hi hp
      have hle : resident (k.spaces s).pt ≤
          (⟨k, update m.member s (some c)⟩ : Machine φ).total c := by
        have := Finset.single_le_sum (s := range k.nspaces) (f := fun t =>
          if update m.member s (some c) t = some c then resident (k.spaces t).pt else 0)
          (fun _ _ => Nat.zero_le _) (Finset.mem_range.mpr hlt)
        simpa [Machine.total] using this
      have hsame : cg = cg' := by
        have : k.cgroups c = m.kernel.cgroups c := by rw [hcg]
        rw [hc', hc] at this
        exact Option.some.inj this
      rw [hsame, hz] at hmem
      have hzero : (⟨k, update m.member s (some c)⟩ : Machine φ).total c = 0 :=
        Int.natCast_eq_zero.mp hmem.symm
      omega
    | error e k =>
      rw [hr] at hstep
      cases e with
      | errno n =>
        cases hstep
        have hcg := (hload.error rfl hr).resolve_left fun h => h n rfl
        obtain ⟨cg, hc, hz⟩ := h.zero
        exact .inl ⟨h.alone, cg, by rw [← hc, ← hcg], hz⟩
      | overflow => cases hstep
      | assertion => cases hstep

theorem create_idle (hm : ∀ s, m.member s ≠ some cid) (bytes : Nat) :
    Machine.Idle cid ⟨createCgroup m.kernel cid bytes, m.member⟩ :=
  ⟨hm, _, update_self .., rfl⟩

/-- A container with one mebibyte, and no process yet. -/
def newContainer : Machine (List PhysAddr) :=
  ⟨createCgroup (bootKernel 16) "c" 0x100000, fun _ => none⟩

/-- A process whose stack is written when it is loaded, and which forks. -/
def stackRun : List Event :=
  [.spawn "c" [.region 0x10000 0x11000 { read := true, write := true } true, .touch 0x10000 true],
   .fork 1]

end Fastros.Mm
