import Fastros.Mm.Fault

/-!
# What the primitives leave alone

Each lemma says which components of the kernel an operation can change: a
predicate that does not look at those components survives it.
-/

namespace Fastros.Mm

open Lib.Stateful

variable {φ : Type} {A : FrameAllocator φ} {P : Kernel φ → Prop} {E : Stop → Kernel φ → Prop}

/-- A failed assertion where `P` holds satisfies `E`. -/
def Asserts (P : Kernel φ → Prop) (E : Stop → Kernel φ → Prop) : Prop := ∀ k, P k → E .assertion k

theorem Asserts.self : Asserts P fun _ => P := fun _ => id

theorem keeps_assert (hE : Asserts P E) (b : Bool) : Keeping P (assert b) E := by
  exact .ite (fun _ => .pure _) (fun _ => Triple.throw hE)

theorem page_succ (va j : Nat) : va + pageSize + j * pageSize = va + (j + 1) * pageSize := by
  rw [Nat.succ_mul, Nat.add_assoc, Nat.add_comm pageSize]

theorem pages_succ {Q : Nat → Prop} {va n : Nat} (h : ∀ j < n + 1, Q (va + j * pageSize)) :
    Q va ∧ ∀ j < n, Q (va + pageSize + j * pageSize) := by
  refine ⟨?_, fun j hj => ?_⟩
  · have h0 := h 0 (Nat.succ_pos n)
    rwa [Nat.zero_mul, Nat.add_zero] at h0
  · rw [page_succ]
    exact h (j + 1) (Nat.succ_lt_succ hj)

/-- Stops `E` that leave `Q` behind, at least when they carry an error code. -/
structure Upholds (Q : Kernel φ → Prop) (E : Stop → Kernel φ → Prop) : Prop where
  stop : ∀ {e k}, Q k → E e k
  back : ∀ {n k}, E (.errno n) k → Q k

theorem Upholds.self : Upholds P fun _ => P := ⟨id, id⟩

theorem Upholds.keeps {α : Type} {x : KM φ α} (hE : Upholds P E) (h : Keeps P x) : Keeping P x E :=
  .stop h fun _ _ => hE.stop

section

variable {Q : Kernel φ → Prop} {x : KM φ Unit}

/-- A call that answers `b` for an error code, and `a` otherwise. -/
theorem triple_absorb {β : Type} (a b : β) (hE : Upholds Q E) (h : Triple P x (fun _ => Q) E) :
    Triple P (fun k => match x k with
        | .ok _ k' => .ok a k'
        | .error (.errno _) k' => .ok b k'
        | .error e k' => .error e k' : KM φ β) (fun _ => Q) E := by
  refine .intro fun k hk => ?_
  have hend := h.ends hk
  cases hx : x k with
  | ok u k' =>
    rw [hx] at hend
    cases hend with
    | ok h => exact .ok h
  | error e k' =>
    rw [hx] at hend
    cases hend with
    | error h =>
      cases e with
      | errno n => exact .ok (hE.back h)
      | overflow | assertion => exact .error h

/-- Ignoring an error keeps what the error upholds. -/
theorem triple_ignoreErr (hE : Upholds Q E) (h : Triple P x (fun _ => Q) E) :
    Triple P (ignoreErr x) (fun _ => Q) E := by
  have heq : ignoreErr x = fun k => match x k with
      | .ok _ k' => .ok () k'
      | .error (.errno _) k' => .ok () k'
      | .error e k' => .error e k' := by
    funext k
    unfold ignoreErr
    split <;> split <;> simp_all
  rw [heq]
  exact triple_absorb () () hE h

end

theorem keeps_ignoreErr {x : KM φ Unit} (h : Keeps P x) : Keeps P (ignoreErr x) :=
  triple_ignoreErr .self h

theorem keeps_space (s : Nat) : Keeping P (space s) E :=
  Triple.bind (.get fun _ => id) fun _ => .skip

theorem keeps_leafEntry (s va : Nat) : Keeps P (leafEntry s va) :=
  Keeping.bind .get fun _ => .pure _

theorem keeps_add (a b : Nat) : Keeps P (add a b) := by
  exact Keeping.ite (fun _ => .pure _) (fun _ => .throw _)

theorem keeps_alignUp (v : Nat) : Keeps P (alignUp v) := by
  exact Keeping.bind (keeps_add _ _) fun _ => .pure _

theorem keeps_refSlot (hE : Asserts P E) (p : PhysAddr) : Keeping P (refSlot p) E :=
  .bind .get fun _ => keeps_assert hE _

theorem keeps_pageCount (hE : Asserts P E) (p : PhysAddr) : Keeping P (pageCount p) E :=
  .bind (keeps_refSlot hE p) fun _ => .bind .get fun _ => .pure _

theorem keeps_freeFrame (hE : Asserts P E)
    (hf : ∀ k p fr, A.free k.frames p = some fr → P k → P { k with frames := fr })
    (p : PhysAddr) : Keeping P (freeFrame A p) E := by
  refine .intro fun k hk => ?_
  unfold freeFrame
  rw [run_bind, run_get]
  dsimp only
  cases h : A.free k.frames p with
  | none => exact .error (hE k hk)
  | some fr => exact .ok (hf k p fr h hk)

theorem keeps_allocZeroed (ha : ∀ k fr mem, P k → P { k with frames := fr, mem := mem }) :
    Keeping P (allocZeroed A) E := by
  refine .bind .get fun k => ?_
  cases A.alloc k.frames with
  | none => exact .pure _
  | some a => exact .bind (.modify fun k hk => ha k _ _ hk) fun _ => .pure _

theorem keeps_allocUserPage (hE : Asserts P E)
    (ha : ∀ k fr mem, P k → P { k with frames := fr, mem := mem })
    (hr : ∀ k refs, P k → P { k with refs := refs }) :
    Keeping P (allocUserPage A) E := by
  refine .bind (keeps_allocZeroed ha) fun o => ?_
  cases o with
  | none => exact .pure _
  | some p =>
    exact .bind (keeps_refSlot hE p) fun _ =>
      .bind (.modify fun k hk => hr k _ hk) fun _ => .pure _

theorem keeps_freeSlot (hs : ∀ k sw, P k → P { k with swap := sw }) (i : Nat) :
    Keeps P (freeSlot i) :=
  .modify fun k hk => hs k _ hk

variable {s va : Nat} {k : Kernel φ}

/-- Clearing a live entry is all `free_swap_entry` and `unmap_4k` do to a table. -/
theorem keeps_freeSwapEntry
    (hp : ∀ k, P k → (k.pte s (pageIndex va)).live = true → P (k.setPte s (pageIndex va) {}))
    (hs : ∀ k sw, P k → P { k with swap := sw }) :
    Keeping P (freeSwapEntry s va) E := by
  refine .intro fun k hk => ?_
  unfold freeSwapEntry leafEntry
  simp only [run_bind, run_get, run_pure, run_ite]
  by_cases h : (!(k.pte s (pageIndex va)).present) = true ∧ (k.pte s (pageIndex va)).swapped = true
  · rw [if_pos h]
    refine .ok (hp _ (hs k _ hk) ?_)
    show (k.pte s (pageIndex va)).live = true
    unfold Pte.live
    rw [h.2, Bool.or_true]
  · rw [if_neg h]
    exact .ok hk

theorem keeps_unmap4k
    (hp : ∀ k, P k → (k.pte s (pageIndex va)).live = true → P (k.setPte s (pageIndex va) {})) :
    Keeping P (unmap4k s va) E := by
  refine .intro fun k hk => ?_
  unfold unmap4k leafEntry
  simp only [run_bind, run_get, run_pure, run_ite]
  by_cases h : (k.pte s (pageIndex va)).present = true
  · rw [if_pos h]
    refine .ok (hp k hk ?_)
    unfold Pte.live
    rw [h, Bool.true_or]
  · rw [if_neg h]
    exact .ok hk

theorem keeps_pageGet (hE : Asserts P E) (hr : ∀ k refs, P k → P { k with refs := refs })
    (p : PhysAddr) : Keeping P (pageGet p) E :=
  .bind (keeps_refSlot hE p) fun _ => .bind .get fun _ =>
    .bind (keeps_assert hE _) fun _ => .modify fun k hk => hr k _ hk

section

variable (hE : Asserts P E) (hr : ∀ k refs, P k → P { k with refs := refs })
  (hf : ∀ k p fr, A.free k.frames p = some fr → P k → P { k with frames := fr })
include hE hr hf

theorem keeps_pagePut (p : PhysAddr) : Keeping P (pagePut A p) E := by
  refine .bind (keeps_refSlot hE p) fun _ => .bind .get fun _ =>
    .bind (keeps_assert hE _) fun _ => .bind (.modify fun k hk => hr k _ hk) fun _ => ?_
  exact .ite (fun _ => keeps_freeFrame hE hf p) (fun _ => .pure _)

theorem keeps_putAll (ps : List (Nat × PhysAddr)) : Keeping P (putAll A ps) E := by
  induction ps with
  | nil => exact .pure _
  | cons p ps ih => exact .bind (keeps_pagePut hE hr hf p.2) fun _ => ih

theorem keeps_reapShared (ho : ∀ k os, P k → P { k with objs := os }) (os : List Nat) :
    Keeping P (reapShared A os) E := by
  induction os with
  | nil => exact .pure _
  | cons o os ih =>
    refine .bind .get fun k => .ite (fun _ => ih) fun _ => ?_
    exact .bind .get fun _ => .bind (.modify fun k hk => ho k _ hk) fun _ =>
      .bind (keeps_putAll hE hr hf _) fun _ => ih

theorem keeps_releasePages {n : Nat}
    (hp : ∀ k j, j < n → P k → (k.pte s (pageIndex (va + j * pageSize))).live = true →
      P (k.setPte s (pageIndex (va + j * pageSize)) {}))
    (hs : ∀ k sw, P k → P { k with swap := sw }) :
    Keeping P (releasePages A s va n) E := by
  induction n generalizing va with
  | zero => exact .pure _
  | succ n ih =>
    have h0 : ∀ k, P k → (k.pte s (pageIndex va)).live = true → P (k.setPte s (pageIndex va) {}) := by
      intro k hk hl
      have h := hp k 0 (Nat.succ_pos n) hk
      exact h hl
    have hrest : Keeping P (releasePages A s (va + pageSize) n) E := by
      refine ih fun k j hj hk hl => ?_
      rw [page_succ] at hl ⊢
      exact hp k (j + 1) (Nat.succ_lt_succ hj) hk hl
    refine .bind (keeps_freeSwapEntry h0 hs) fun b => .ite (fun _ => ?_) fun _ => ?_
    · exact .bind hrest fun _ => .pure _
    refine .bind (keeps_unmap4k h0) fun o => ?_
    cases o with
    | none => exact hrest
    | some e =>
      exact .bind (keeps_pagePut hE hr hf _) fun _ => .bind hrest fun _ => .pure _

end

theorem keeps_modifySpace {f : AddressSpace → AddressSpace}
    (h : ∀ k, P k → P (k.setSpace s (f (k.spaces s)))) : Keeping P (modifySpace s f) E :=
  .modify h

theorem triple_space (s : Nat) : Triple P (space s) (fun sp k => P k ∧ k.spaces s = sp) E :=
  .total fun k hk => ⟨_, k, rfl, hk, rfl⟩

/-- `P` holds, and the space belongs to the container. -/
abbrev Within (P : Kernel φ → Prop) (s : Nat) (cid : String) (k : Kernel φ) : Prop :=
  P k ∧ (k.spaces s).container = some cid

/-- A call on the container of a space may rely on the space belonging to it. -/
theorem keeps_onContainer {α : Type} {x : String → KM φ α} (a : α)
    (h : ∀ cid, Triple (Within P s cid) (x cid) (fun _ => P) E) :
    Keeping P (do match (← space s).container with | none => return a | some cid => x cid) E := by
  refine Triple.bind (triple_space s) fun sp => ?_
  cases hcont : sp.container with
  | none => exact .pure fun _ h => h.1
  | some cid => exact .pre (h cid) fun k h => ⟨h.1, by rw [h.2, hcont]⟩

/-- A container that is not there is not charged. -/
theorem triple_onCgroup {α : Type} {x : Cgroup → KM φ α} (cid : String) (a : α)
    (h : ∀ cg, Triple (Within P s cid) (x cg) (fun _ => P) E) :
    Triple (Within P s cid)
      (do match (← get).cgroups cid with | none => return a | some cg => x cg) (fun _ => P) E := by
  refine .bind (R := fun _ => Within P s cid) (.get fun _ => id) fun k => ?_
  cases k.cgroups cid with
  | none => exact .pure fun _ h => h.1
  | some cg => exact h cg

section

-- a space only moves the counters of the container it is charged to
variable (hc : ∀ k cid cg, (k.spaces s).container = some cid → P k → P (k.setCgroup cid cg))
include hc

/-! Neither uncharging nor charging stops. -/

theorem triple_setCgroup (cid : String) (cg : Cgroup) :
    Triple (Within P s cid) (modify (·.setCgroup cid cg)) (fun _ => P) E :=
  .modify fun k hk => hc k _ _ hk.2 hk.1

theorem triple_cgroupUnchargePages (cid : String) (n : Nat) :
    Triple (Within P s cid) (cgroupUnchargePages cid n) (fun _ => P) E :=
  triple_onCgroup cid () fun _ => .ite (fun _ => .pure fun _ h => h.1) fun _ => triple_setCgroup hc cid _

theorem triple_cgroupUnchargeSwap (cid : String) (n : Nat) :
    Triple (Within P s cid) (cgroupUnchargeSwap cid n) (fun _ => P) E :=
  triple_onCgroup cid () fun _ => .ite (fun _ => .pure fun _ h => h.1) fun _ => triple_setCgroup hc cid _

theorem keeps_unchargePages
    (hm : ∀ k n, P k → P (k.setSpace s { k.spaces s with committed := n })) (n : Nat) :
    Keeping P (unchargePages s n) E :=
  .ite (fun _ => .pure _) fun _ => .bind (keeps_modifySpace fun k hk => hm k _ hk) fun _ =>
    keeps_onContainer () fun cid => triple_cgroupUnchargePages hc cid n

theorem keeps_unchargeSwap (n : Nat) : Keeping P (unchargeSwap s n) E :=
  keeps_onContainer () fun cid => triple_cgroupUnchargeSwap hc cid n

theorem triple_tryChargePage (cid : String) :
    Triple (Within P s cid) (tryChargePage cid) (fun _ => P) E :=
  triple_onCgroup cid true fun _ => .bind (triple_setCgroup hc cid _) fun _ => .skip

theorem triple_tryChargeSwap (cid : String) :
    Triple (Within P s cid) (tryChargeSwap cid) (fun _ => P) E :=
  triple_onCgroup cid true fun _ => .bind (triple_setCgroup hc cid _) fun _ => .skip

/-- Charging a page changes the space's own count and its container's. -/
theorem triple_chargePage (hm : ∀ k n, P k → P (k.setSpace s { k.spaces s with committed := n })) :
    Keeping P (chargePage s) E := by
  refine Triple.bind (triple_space s) fun sp => ?_
  have hcount : Keeping P (modifySpace s fun sp => { sp with committed := sp.committed + 1 })
      E := .modify fun k hk => hm k _ hk
  cases hcont : sp.container with
  | none =>
    exact Triple.bind (R := fun _ => P) (.pure fun _ h => h.1) fun ok =>
      .ite (fun _ => .bind hcount fun _ => .skip) fun _ => .skip
  | some cid =>
    exact Triple.bind (.pre (triple_tryChargePage hc cid) fun k h => ⟨h.1, by rw [h.2, hcont]⟩) fun ok =>
      .ite (fun _ => .bind hcount fun _ => .skip) fun _ => .skip

theorem triple_chargeSwap : Keeping P (chargeSwap s) E :=
  keeps_onContainer true (triple_tryChargeSwap hc)

end

section

variable {force : Bool}

theorem triple_reclaimRegion {n : Nat} (target freed : Nat)
    (h : ∀ j < n, Keeping P (tryEvict A s (va + j * pageSize) force) E) :
    Keeping P (reclaimRegion A s va force target n freed) E := by
  induction n generalizing va freed with
  | zero => exact Triple.pure fun _ => id
  | succ n ih =>
    obtain ⟨h0, hs⟩ := pages_succ (Q := fun va => Keeping P (tryEvict A s va force) E) h
    exact Triple.ite (fun _ => .pure fun _ => id) fun _ => .bind h0 fun _ => ih _ hs

theorem triple_reclaimRegions (target : Nat) (rs : List Region) (freed : Nat)
    (h : ∀ r ∈ rs, ∀ j < pagesIn r.start r.end,
      Keeping P (tryEvict A s (r.start + j * pageSize) force) E) :
    Keeping P (reclaimRegions A s force target rs freed) E := by
  induction rs generalizing freed with
  | nil => exact Triple.pure fun _ => id
  | cons r rs ih =>
    have hrest := fun freed => ih freed fun q hq => h q (List.mem_cons_of_mem r hq)
    refine Triple.ite (fun _ => ?_) fun _ => hrest _
    refine Triple.bind (triple_reclaimRegion target freed (h r (List.mem_cons_self))) fun _ => ?_
    exact Triple.ite (fun _ => .pure fun _ => id) fun _ => hrest _

/-- What every eviction from a region of the space keeps, reclaim keeps. -/
theorem triple_reclaim {target : Nat}
    (h : ∀ k, P k → ∀ r ∈ (k.spaces s).regions, ∀ j < pagesIn r.start r.end, ∀ force,
      Keeping P (tryEvict A s (r.start + j * pageSize) force) E) :
    Keeping P (reclaim A s target) E := by
  have hpass : ∀ target force, Keeping P (reclaimPass A s target force) E := by
    intro target force
    refine Triple.bind (R := fun sp k => P k ∧ ∃ k0, P k0 ∧ k0.spaces s = sp) ?_ fun sp => ?_
    · exact Triple.bind (.get fun k hk => (⟨hk, k, hk, rfl⟩ :
        (fun k1 k2 => P k2 ∧ ∃ k0, P k0 ∧ k0.spaces s = k1.spaces s) k k)) fun _ =>
        Triple.pure fun _ => id
    · refine Triple.fact fun hsp => triple_reclaimRegions target _ _ ?_
      obtain ⟨k, hk, rfl⟩ := hsp
      exact fun r hr j hj => h k hk r hr j hj force
  refine Triple.bind (.get fun _ => id) fun _ =>
    Triple.ite (fun _ => .pure fun _ => id) fun _ => ?_
  refine Triple.bind (hpass _ _) fun _ => .ite (fun _ => ?_) fun _ => .pure fun _ => id
  exact Triple.bind (hpass _ _) fun _ => .pure fun _ => id

end

/-! ## What eviction leaves alone

`try_evict` gives back a frame, moves counters and slots, and rewrites entries
that were present. -/

/-- A predicate that survives all of that on space `s`. -/
structure Steady (A : FrameAllocator φ) (s : Nat) (P : Kernel φ → Prop) : Prop where
  refs : ∀ k refs, P k → P { k with refs := refs }
  free : ∀ k p fr, A.free k.frames p = some fr → P k → P { k with frames := fr }
  swap : ∀ k sw, P k → P { k with swap := sw }
  cgroup : ∀ k cid cg, (k.spaces s).container = some cid → P k → P (k.setCgroup cid cg)
  committed : ∀ k n, P k → P (k.setSpace s { k.spaces s with committed := n })
  evict : ∀ k i e, (k.pte s i).present = true → P k → P (k.setPte s i e)

theorem triple_storePage (hs : ∀ k sw, P k → P { k with swap := sw })
    (p : PhysAddr) : Keeping P (storePage p) E := by
  refine Triple.bind (R := fun _ => P) ?_ fun o => ?_
  · refine Triple.bind (.get fun _ => id) fun k => ?_
    dsimp only
    split
    · exact .skip
    · exact .bind (.modify fun k hk => hs k _ hk) fun _ => .skip
  · cases o with
    | none => exact .skip
    | some i =>
      refine .bind (.get fun _ => id) fun k => .ite (fun _ => ?_) fun _ => ?_
      · exact .bind (.modify fun k hk => hs k _ hk) fun _ => .skip
      · exact .bind (.modify fun k hk => hs k _ hk) fun _ => .skip

/-- What an eviction does not pass over is present. -/
theorem present_of_not {p b : Bool} (h : ¬ (!p || b) = true) : p = true := by
  cases p with
  | true => rfl
  | false => exact absurd rfl h

theorem triple_leafEntry (s va : Nat) :
    Triple P (leafEntry s va) (fun e k => P k ∧ k.pte s (pageIndex va) = e) E :=
  .total fun k hk => ⟨_, k, rfl, hk, rfl⟩

section

variable (hP : Steady A s P)
include hP

theorem steady_pagePut (p : PhysAddr) : Keeps P (pagePut A p) := keeps_pagePut .self hP.refs hP.free p

theorem steady_chargePage : Keeps P (chargePage s) := triple_chargePage hP.cgroup hP.committed

theorem steady_unchargePages (n : Nat) : Keeps P (unchargePages s n) :=
  keeps_unchargePages hP.cgroup hP.committed n

/-- Rewriting an entry that is known to be present. -/
theorem steady_setPresent {e : Pte} (he : e.present = true) (e' : Pte) :
    Triple (fun k => P k ∧ k.pte s (pageIndex va) = e) (setLeafEntry s va e')
      (fun _ k => P k ∧ k.pte s (pageIndex va) = e') (fun _ => P) := by
  refine .modify fun k hk => ⟨hP.evict k _ _ ?_ hk.1, setPte_self k s _ e'⟩
  rw [hk.2]
  exact he

/-- Eviction keeps a steady property. -/
theorem steady_tryEvict (va : Nat) (force : Bool) : Keeps P (tryEvict A s va force) := by
  refine .bind (triple_leafEntry s va) fun e => ?_
  have hret : ∀ {Q : Kernel φ → Prop} (b : Bool), (∀ k, Q k → P k) →
      Triple Q (pure b : KM φ Bool) (fun _ => P) (fun _ => P) := fun _ h => .pure h
  refine .ite (fun _ => hret false fun _ h => h.1) fun hc => ?_
  have he := present_of_not hc
  refine .bind (.stop (keeps_pageCount .self _) fun _ _ h => h.1)
    fun n => .ite (fun _ => hret false fun _ h => h.1) fun _ => ?_
  refine .ite (fun _ => ?_) fun _ => ?_
  · exact .bind (steady_setPresent hP he _) fun _ => hret false fun _ h => h.1
  refine .bind (steady_setPresent hP he _) fun _ => ?_
  refine .bind (.pre (triple_storePage hP.swap _) (fun _ h => h.1)) fun o => ?_
  cases o with
  | none => exact Keeping.pure _
  | some slot =>
    refine .bind (triple_leafEntry s va) fun e' => .ite (fun _ => ?_) fun hc' => ?_
    · exact Triple.bind (Triple.pre (keeps_freeSlot hP.swap _) (fun _ h => h.1)) fun _ => Keeping.pure _
    rw [Bool.or_assoc] at hc'
    have he' := present_of_not hc'
    have hcharge : Keeping (fun k => P k ∧ k.pte s (pageIndex va) = e') (chargeSwap s)
        (fun _ => P) :=
      triple_chargeSwap fun k cid cg hc h => ⟨hP.cgroup k cid cg hc h.1, h.2⟩
    refine .bind hcharge fun ok => .ite (fun _ => ?_) fun _ => ?_
    · exact Triple.bind (Triple.pre (keeps_freeSlot hP.swap _) (fun _ h => h.1)) fun _ => Keeping.pure _
    refine .bind (steady_setPresent hP he' _) fun _ => ?_
    refine .bind (.pre (steady_pagePut hP _) (fun _ h => h.1)) fun _ => ?_
    exact Keeping.bind (steady_unchargePages hP 1) fun _ => .pure _

theorem steady_reclaim (target : Nat) : Keeps P (reclaim A s target) :=
  triple_reclaim fun _ _ _ _ _ _ _ => steady_tryEvict hP _ _

theorem steady_chargePressure : Keeps P (chargePressure A s) := by
  refine Keeping.bind (steady_chargePage hP) fun _ => .ite (fun _ => ?_) fun _ => .pure _
  exact Keeping.bind (steady_reclaim hP _) fun _ => .bind (steady_chargePage hP) fun _ =>
    Keeping.ite (fun _ => .throw _) fun _ => .pure _

end

/-! A predicate that survives every function below `ensure_page`: it looks at no page, and
at the space only for where its mappings lie and whom it is charged to. -/

/-- Where the mappings of a space lie and where the next one goes. -/
def AddressSpace.placement (sp : AddressSpace) : List Region × Nat × Nat × Nat :=
  (sp.regions, sp.mmapTop, sp.brk, sp.brkBase)

structure Unseen (s : Nat) (P : Kernel φ → Prop) : Prop where
  rest : ∀ {k k' : Kernel φ}, k'.spaces = k.spaces → k'.nspaces = k.nspaces →
    k'.cgroups = k.cgroups → P k → P k'
  cgroup : ∀ k cid cg, (k.spaces s).container = some cid → P k → P (k.setCgroup cid cg)
  space : ∀ {k sp}, sp.placement = (k.spaces s).placement →
    sp.container = (k.spaces s).container → P k → P (k.setSpace s sp)

section

variable (hP : Unseen s P)
include hP

theorem Unseen.setPte {i : Nat} {e : Pte} (h : P k) : P (k.setPte s i e) := by
  unfold Kernel.setPte
  split
  · exact hP.space rfl rfl h
  · exact hP.rest (k := k) rfl rfl rfl h

/-- A property that does not see the memory of a space is steady for it. -/
theorem Unseen.steady : Steady A s P where
  refs _ _ := hP.rest rfl rfl rfl
  free _ _ _ _ := hP.rest rfl rfl rfl
  swap _ _ := hP.rest rfl rfl rfl
  cgroup := hP.cgroup
  committed _ _ := hP.space rfl rfl
  evict _ _ _ _ := hP.setPte

theorem unseen_setLeafEntry (va : Nat) (e : Pte) : Keeps P (setLeafEntry s va e) :=
  .modify fun _ => hP.setPte

theorem unseen_unchargeSwap (n : Nat) : Keeps P (unchargeSwap s n) := keeps_unchargeSwap hP.cgroup n

theorem unseen_allocUserPage : Keeps P (allocUserPage A) :=
  keeps_allocUserPage .self (fun _ _ _ => hP.rest rfl rfl rfl)
    fun _ _ => hP.rest rfl rfl rfl

theorem unseen_pageGet (p : PhysAddr) : Keeps P (pageGet p) :=
  keeps_pageGet (P := P) .self (fun _ _ => hP.rest rfl rfl rfl) p

theorem unseen_walkCreate (path : List (Nat × Nat)) :
    Keeps P (walkCreate A s path) := by
  induction path with
  | nil => exact Keeping.pure _
  | cons key rest ih =>
    refine .bind (keeps_space s) fun sp => .ite (fun _ => ih) fun _ => ?_
    refine .bind (keeps_allocZeroed fun _ _ _ => hP.rest rfl rfl rfl) fun o => ?_
    cases o with
    | none => exact Keeping.pure _
    | some p =>
      exact .bind (keeps_modifySpace fun _ => hP.space rfl rfl) fun _ => ih

theorem unseen_map4k (va phys : Nat) (fl : Pte) : Keeps P (map4k A s va phys fl) := by
  refine Keeping.bind (unseen_walkCreate hP _) fun ok => .ite (fun _ => ?_) fun _ => .throw _
  refine Keeping.bind (keeps_leafEntry s va) fun e => ?_
  exact Keeping.ite (fun _ => .bind (.throw _) fun _ => unseen_setLeafEntry hP _ _)
    fun _ => unseen_setLeafEntry hP _ _

theorem unseen_readSlot (i : Nat) (p : PhysAddr) : Keeps P (readSlot i p) := by
  refine Keeping.bind .get fun k => .ite (fun _ => ?_) fun _ => .pure _
  exact Keeping.bind (.modify fun _ => hP.rest rfl rfl rfl) fun _ => .pure _

theorem unseen_allocPressure : Keeps P (allocPressure A s) := by
  refine .bind (unseen_allocUserPage hP) fun o => ?_
  cases o with
  | none => exact .bind (steady_reclaim hP.steady _) fun _ => unseen_allocUserPage hP
  | some p => exact Keeping.pure _

theorem unseen_allocCharged : Keeps P (allocCharged A s) := by
  refine .bind (unseen_allocPressure hP) fun o => ?_
  cases o with
  | none => exact Keeping.bind (steady_unchargePages (hP.steady (A := A)) _) fun _ => .throw _
  | some p => exact Keeping.pure _

theorem unseen_doCow (page : Nat) (e : Pte) : Keeps P (doCow A s page e) := by
  refine .bind (keeps_pageCount .self _) fun _ => .ite (fun _ => unseen_setLeafEntry hP _ _)
    fun _ => ?_
  refine .bind (unseen_allocUserPage hP) fun o => ?_
  cases o with
  | none => exact Keeping.throw _
  | some p =>
    exact Keeping.bind (.modify fun _ => hP.rest rfl rfl rfl) fun _ =>
      .bind (unseen_setLeafEntry hP _ _) fun _ => steady_pagePut hP.steady _

theorem unseen_swapIn (page : Nat) (e : Pte) (r : Region) : Keeps P (swapIn A s page e r) := by
  refine Keeping.bind (steady_chargePressure hP.steady) fun _ =>
    Keeping.bind (unseen_allocCharged hP) fun p => .bind (unseen_readSlot hP _ _) fun ok => ?_
  have hrest : Keeps P (do map4k A s page p (toPageFlags r.prot); freeSlot (e.addr / pageSize)
                           unchargeSwap s 1) :=
    Keeping.bind (unseen_map4k hP _ _ _) fun _ => .bind (keeps_freeSlot (hP.steady (A := A)).swap _) fun _ =>
      unseen_unchargeSwap hP _
  refine Keeping.ite (fun _ => ?_) fun _ => hrest
  exact Keeping.bind (steady_pagePut hP.steady _) fun _ => .bind (steady_unchargePages (hP.steady (A := A)) _) fun _ =>
    Keeping.bind (.throw _) fun _ => hrest

theorem unseen_sharedFrame (obj key : Nat) : Keeps P (sharedFrame A s obj key) := by
  refine Keeping.bind .get fun k => ?_
  cases (k.objs obj).lookup key with
  | some p => exact Keeping.bind (unseen_pageGet hP p) fun _ => .pure _
  | none =>
    exact Keeping.bind (unseen_allocCharged hP) fun p =>
      Keeping.bind (.modify fun _ => hP.rest rfl rfl rfl) fun _ =>
        Keeping.bind (unseen_pageGet hP p) fun _ => .pure _

theorem unseen_fillFromFile (phys page : Nat) (r : Region) :
    Keeps P (fillFromFile phys page r) := by
  unfold fillFromFile
  cases r.backing with
  | none => exact Keeping.pure _
  | some b =>
    refine Keeping.ite (fun _ => ?_) fun _ => .pure _
    exact .bind (keeps_add _ _) fun _ => .modify fun _ => hP.rest rfl rfl rfl

/-- Bringing in a page, of whatever kind, is not seen. -/
theorem unseen_ensurePage (page : Nat) (r : Region) (write : Bool) :
    Keeps P (ensurePage A s page r write) := by
  refine .bind (keeps_leafEntry s page) fun e => .ite (fun _ => ?_) fun _ => ?_
  · exact Keeping.ite (fun _ => unseen_doCow hP _ _) fun _ => .pure _
  refine .ite (fun _ => unseen_swapIn hP _ _ _) fun _ => ?_
  refine .bind (steady_chargePressure hP.steady) fun _ => ?_
  cases r.shared with
  | some obj =>
    exact .bind (keeps_add _ _) fun _ => .bind (unseen_sharedFrame hP _ _) fun _ =>
      unseen_map4k hP _ _ _
  | none =>
    exact .bind (unseen_allocCharged hP) fun _ =>
      .bind (unseen_fillFromFile hP _ _ _) fun _ => unseen_map4k hP _ _ _

end

/-- The predicate reads nothing but placements and the number of spaces. -/
def PlacementOnly (P : Kernel φ → Prop) : Prop :=
  ∀ k k' : Kernel φ, k'.nspaces = k.nspaces →
    (∀ t, (k'.spaces t).placement = (k.spaces t).placement) → P k → P k'

theorem placementOnly_not (hP : PlacementOnly P) : PlacementOnly (fun k => ¬ P k) :=
  fun k k' hc h hn hk => hn (hP k' k hc.symm (fun t => (h t).symm) hk)

section

variable (hP : PlacementOnly P)
include hP

theorem placement_rest {k' : Kernel φ} (h : k'.spaces = k.spaces)
    (hc : k'.nspaces = k.nspaces) : P k → P k' :=
  hP k k' hc fun t => by rw [h]

/-- The contents of a space do not matter to a property of the placement. -/
theorem PlacementOnly.unseen (s : Nat) : Unseen s P where
  rest h hn _ := placement_rest hP h hn
  cgroup _ _ _ _ := placement_rest hP rfl rfl
  space h _ := hP _ _ rfl fun t => setSpace_congr (·.placement) _ h t

theorem placement_setPte {i : Nat} {e : Pte} : P k → P (k.setPte s i e) := (hP.unseen s).setPte

theorem placement_setLeafEntry (s va : Nat) (e : Pte) : Keeps P (setLeafEntry s va e) :=
  unseen_setLeafEntry (hP.unseen s) va e

/-- Releasing pages does not move a region. -/
theorem placement_releaseRange (s start stop : Nat) (old : List Region) :
    Keeps P (releaseRange A s start stop old) := by
  refine .bind (keeps_reapShared (P := P) .self (fun _ _ => placement_rest hP rfl rfl)
    (fun _ _ _ _ => placement_rest hP rfl rfl) (fun _ _ => placement_rest hP rfl rfl) _) fun _ => ?_
  refine .bind (keeps_releasePages (P := P) .self (fun _ _ => placement_rest hP rfl rfl)
    (fun _ _ _ _ => placement_rest hP rfl rfl) (fun _ _ _ h _ => placement_setPte hP h)
    (fun _ _ => placement_rest hP rfl rfl)) fun _ => ?_
  exact .bind (steady_unchargePages ((hP.unseen s).steady (A := A)) _) fun _ =>
    unseen_unchargeSwap (hP.unseen s) _

theorem placement_protectPages (s va : Nat) (prot : Prot) (n : Nat) :
    Keeps P (protectPages s va prot n) := by
  induction n generalizing va with
  | zero => exact Keeping.pure _
  | succ n ih =>
    refine .bind (keeps_leafEntry s va) fun e => ?_
    exact .ite (fun _ => .bind (placement_setLeafEntry hP s va _) fun _ => ih _) fun _ => ih _

end

end Fastros.Mm
