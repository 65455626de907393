import Fastros.Mm.Ownership
import Fastros.Mm.Panics

/-!
# Every path that takes or drops a frame keeps the ownership

`Guard` is the ownership of the frames in a kernel state, with the region lists
the spaces have (`real`) and those that justify their pages (`regs`, which
differ only while a fork builds its child). Each function of the fault, unmap
and reclaim paths is taken through it once.
-/

namespace Fastros.Mm

open Lib.Stateful List Kernel
open Function (update update_self update_of_ne)

variable {φ : Type} {A : FrameAllocator φ} {s : Nat} {k : Kernel φ}

def Kernel.tally (A : FrameAllocator φ) (k : Kernel φ) : Tally where
  isFree := A.isFree k.frames
  refs := k.refs
  pt := fun t => (k.spaces t).pt
  tables := fun t => (k.spaces t).tableFrames
  objs := k.objs
  nspaces := k.nspaces
  nobjs := k.nobjs
  exported := fun o => ∃ f, (k.files f).sharedMmap = some o

/-- What the ownership is taken relative to. -/
structure Watch where
  live : Nat → Prop
  regs : Nat → List Region
  real : Nat → List Region
  exempt : Nat → Nat → Prop
  count : Nat

def Guard (A : FrameAllocator φ) (W : Watch) (pend : List PhysAddr) (k : Kernel φ) : Prop :=
  Guarded W.live W.regs W.exempt pend (k.tally A) ∧ (∀ t, (k.spaces t).regions = W.real t) ∧
    k.nspaces = W.count

/-- A call that stops ends the machine, or leaves the ownership intact. -/
def Stops (A : FrameAllocator φ) (W : Watch) (pend : List PhysAddr) (e : Stop) (k : Kernel φ) : Prop :=
  Panicked e ∨ Guard A W pend k

variable {W : Watch} {pend pend' : List PhysAddr}

theorem guard_forget {f : PhysAddr} (h : Guard A W (f :: pend) k) : Guard A W pend k :=
  ⟨guarded_forget h.1 fun _ => count_le_count_cons, h.2⟩

theorem tally_setSpace (k : Kernel φ) (s : Nat) {sp : AddressSpace} (hp : sp.pt = (k.spaces s).pt)
    (ht : sp.tableFrames = (k.spaces s).tableFrames) : (k.setSpace s sp).tally A = k.tally A := by
  have h1 : (fun t => ((k.setSpace s sp).spaces t).pt) = fun t => (k.spaces t).pt :=
    funext (setSpace_congr (·.pt) k hp)
  have h2 : (fun t => ((k.setSpace s sp).spaces t).tableFrames) =
      fun t => (k.spaces t).tableFrames := funext (setSpace_congr (·.tableFrames) k ht)
  unfold tally
  rw [h1, h2]
  rfl

theorem guard_setSpace {sp : AddressSpace} (h : Guard A W pend k) (hp : sp.pt = (k.spaces s).pt)
    (ht : sp.tableFrames = (k.spaces s).tableFrames) (hr : sp.regions = (k.spaces s).regions) :
    Guard A W pend (k.setSpace s sp) := by
  refine ⟨?_, fun t => ?_, h.2.2⟩
  · rw [tally_setSpace k s hp ht]
    exact h.1
  · rw [setSpace_congr (·.regions) k hr t]
    exact h.2.1 t

variable {i va phys page : Nat} {e fl : Pte} {P : Kernel φ → Prop} {C : Tally → Prop}
  {E : Stop → Kernel φ → Prop}

theorem tally_setPte (k : Kernel φ) (s : Nat) (e : Pte) (hi : i < kernelHalf) :
    (k.setPte s i e).tally A = (k.tally A).setPt s i e := by
  have hset : k.setPte s i e =
      k.setSpace s { k.spaces s with pt := update (k.spaces s).pt i e } := if_pos hi
  have h1 : (fun t => ((k.setPte s i e).spaces t).pt) =
      update (fun t => (k.spaces t).pt) s (update (k.spaces s).pt i e) := by
    funext t
    rw [hset]
    by_cases h : t = s
    · subst h
      rw [setSpace_self, update_self]
    · rw [setSpace_ne k _ h, update_of_ne h]
  have h2 : (fun t => ((k.setPte s i e).spaces t).tableFrames) =
      fun t => (k.spaces t).tableFrames :=
    funext fun t => setPte_congr (·.tableFrames) (fun _ _ => rfl) k s i t e
  unfold tally Tally.setPt
  rw [h1, h2, hset]
  rfl

theorem tally_pt (k : Kernel φ) (s : Nat) (hi : i < kernelHalf) :
    (k.tally A).pt s i = k.pte s i := by
  unfold pte
  rw [if_pos hi]
  rfl

theorem guard_setPte (hi : i < kernelHalf) (h : Guard A W pend k)
    (hc : ∀ f, pend'.count f + e.share f ≤ pend.count f + (k.pte s i).share f)
    (hp : ¬ W.exempt s i → PageOk (W.regs s) ((k.tally A).setPt s i e) s i e)
    (hq : e.present = true → (k.tally A).Maps s i e.addr ∨ (k.tally A).Quiet W.exempt e.addr)
    (hr : e.present = true → s < W.count) : Guard A W pend' (k.setPte s i e) := by
  have hcount : k.nspaces = W.count := h.2.2
  refine ⟨?_, fun t => ?_, ?_⟩
  · rw [tally_setPte k s e hi]
    exact guarded_setPt hi h.1 (fun f => by rw [tally_pt k s hi]; exact hc f) hp hq
      fun he => Nat.lt_of_lt_of_eq (hr he) hcount.symm
  · rw [setPte_regions]
    exact h.2.1 t
  · unfold setPte
    rw [if_pos hi]
    exact hcount

/-- Rewriting a present entry: it may lose the right to write, gain it if it is
the only mapping of its frame or the frame an object's, and become copy-on-write
in a private region. -/
theorem guard_rewrite (hi : i < kernelHalf) (h : Guard A W pend k)
    (hp : (k.pte s i).present = true) (hep : e.present = true) (ha : e.addr = (k.pte s i).addr)
    (hw : e.writable = true → (k.pte s i).writable = true ∨ (k.tally A).InObject e.addr ∨
      ∀ t j, (k.tally A).Maps t j e.addr → t = s ∧ j = i)
    (hcow : e.cow = true → (k.pte s i).cow = true ∨
      ∀ r ∈ W.regs s, r.Covers i → r.shared = none) : Guard A W pend (k.setPte s i e) := by
  have hmap : (k.tally A).Maps s i e.addr := ⟨hi, by rw [tally_pt k s hi]; exact hp, by
    rw [tally_pt k s hi, ha]⟩
  have hmaps : ∀ t j, ((k.tally A).setPt s i e).Maps t j e.addr → (k.tally A).Maps t j e.addr := by
    intro t j hm
    by_cases hts : t = s ∧ j = i
    · obtain ⟨rfl, rfl⟩ := hts
      exact hmap
    · exact (maps_setPt_ne hts).mp hm
  refine guard_setPte hi h (fun f => ?_) (fun hD => ⟨fun _ => ?_, fun hn => ?_⟩) (fun _ => .inl hmap)
    fun _ => h.2.2 ▸ h.1.room s i hi (by rw [tally_pt k s hi]; exact hp)
  · unfold Pte.share
    rw [hep, hp, ha]
  · have hok := (h.1.page s i hi hD).1 (by rw [tally_pt k s hi]; exact hp)
    rw [tally_pt k s hi] at hok
    obtain ⟨r, hr, hcov, he⟩ := hok
    refine ⟨r, hr, hcov, ?_⟩
    unfold EntryOk at he ⊢
    split at he
    · refine ⟨?_, fun hwe t j hm => ?_⟩
      · rw [ha]
        exact he.1
      rcases hw hwe with hold | hobj | hall
      · exact he.2 hold t j (ha ▸ hmaps t j hm)
      · exact absurd (ha ▸ hobj) he.1
      · exact hall t j (hmaps t j hm)
    · rename_i _ o hs
      refine ⟨by rw [ha]; exact he.1, Bool.eq_false_iff.mpr fun hc => ?_⟩
      rcases hcow hc with hold | hpriv
      · rw [he.2] at hold
        cases hold
      · rw [hpriv r hr hcov] at hs
        cases hs
  · rw [hep] at hn
    cases hn

/-- A private page of a region that covers the address, or an exempt one. -/
def PrivateAt (W : Watch) (s i : Nat) : Prop :=
  ¬ W.exempt s i → ∃ r ∈ W.regs s, r.Covers i ∧ r.shared = none

/-- Taking a present entry out of the table: the call carries its reference. -/
theorem guard_remove (hi : i < kernelHalf) (h : Guard A W pend k)
    (hp : (k.pte s i).present = true) (hep : e.present = false)
    (hsw : e.swapped = true → PrivateAt W s i) :
    Guard A W ((k.pte s i).addr :: pend) (k.setPte s i e) := by
  refine guard_setPte hi h (fun f => ?_) (fun hD => ⟨fun hn => ?_, fun _ hs => hsw hs hD⟩)
    (fun hn => ?_) fun hn => ?_
  · have h0 : e.share f = 0 := share_neg fun hn => by rw [hep] at hn; cases hn.1
    rw [h0]
    by_cases hf : (k.pte s i).addr = f
    · rw [share_pos ⟨hp, hf⟩, ← hf, count_cons_self]
    · rw [count_cons_of_ne hf]
      omega
  · rw [hep] at hn; cases hn
  · rw [hep] at hn; cases hn
  · rw [hep] at hn; cases hn

theorem guard_unswap (h : Guard A W pend k) : Guard A W pend (k.setPte s i {}) := by
  by_cases hi : i < kernelHalf
  · refine guard_setPte hi h (fun f => ?_) (fun _ => ⟨fun hn => (by cases hn), fun _ hs =>
      (by cases hs)⟩) (fun hn => by cases hn) fun hn => by cases hn
    have h0 : ({} : Pte).share f = 0 := share_neg fun hn => by cases hn.1
    omega
  · unfold setPte
    rw [if_neg hi]
    exact h

/-- The carried reference of the frame becomes the entry's. -/
theorem count_install (e old : Pte) (pend : List PhysAddr) (f : PhysAddr) :
    pend.count f + e.share f ≤ (e.addr :: pend).count f + old.share f := by
  by_cases hf : e.addr = f
  · subst hf
    have : e.share e.addr ≤ 1 := by unfold Pte.share; split <;> omega
    rw [count_cons_self]
    omega
  · rw [share_neg fun hn => hf hn.2]
    exact le_trans count_le_count_cons (Nat.le_add_right _ _)

/-- A frame whose only reference the call carries goes into a private page. -/
theorem guard_fresh (hi : i < kernelHalf) (h : Guard A W (e.addr :: pend) k)
    (h1 : k.refs e.addr = 1) (hs : s < W.count) (hr : PrivateAt W s i)
    (hc : ∀ f, pend'.count f + e.share f ≤ (e.addr :: pend).count f + (k.pte s i).share f) :
    Guard A W pend' (k.setPte s i e) := by
  have hun := guarded_unheld h.1 h1
  refine guard_setPte hi h hc (fun hD => ?_) (fun _ => .inr fun t j hm _ _ => ?_) fun _ => hs
  · obtain ⟨r, hr, hcov, hsh⟩ := hr hD
    refine ⟨fun _ => ⟨r, hr, hcov, ?_⟩, fun _ _ => ⟨r, hr, hcov, hsh⟩⟩
    rw [hsh]
    refine ⟨fun ⟨o, key, hm⟩ => hun (.object o key) hm, fun _ t j hm => ?_⟩
    by_contra hne
    exact hun (.page t j) ((maps_setPt_ne hne).mp hm)
  · exact absurd hm (hun (.page t j))

/-- A frame of an object goes into a page of a region that shows the object. -/
theorem guard_share {o : Nat} (hi : i < kernelHalf) (h : Guard A W (e.addr :: pend) k)
    (ho : ∃ key, (key, e.addr) ∈ k.objs o) (hc : e.cow = false) (hs : s < W.count)
    (hep : e.present = true)
    (hr : ¬ W.exempt s i → ∃ r ∈ W.regs s, r.Covers i ∧ r.shared = some o) :
    Guard A W pend (k.setPte s i e) := by
  obtain ⟨key, hkey⟩ := ho
  refine guard_setPte hi h (count_install e _ _) (fun hD => ?_) (fun _ => .inr fun t j _ _ _ =>
    ⟨o, key, hkey⟩) fun _ => hs
  · obtain ⟨r, hr, hcov, hsh⟩ := hr hD
    refine ⟨fun _ => ⟨r, hr, hcov, ?_⟩, fun hn => ?_⟩
    · rw [hsh]
      exact ⟨⟨key, hkey⟩, hc⟩
    · rw [hep] at hn
      cases hn

theorem refSlot_eq (p : PhysAddr) (k : Kernel φ) : (refSlot p : KM φ Unit) k =
    if p / pageSize < k.refFrames then .ok () k else .error .assertion k := by
  unfold refSlot assert
  rw [run_bind, run_get]
  by_cases h : p / pageSize < k.refFrames
  · rw [if_pos h]
    simp only [h, decide_true]
    rfl
  · rw [if_neg h]
    simp only [h, decide_false]
    rfl

theorem assert_guard (b : Bool) :
    Triple P (assert b : KM φ Unit) (fun _ k => P k ∧ b = true) Panics := by
  cases b with
  | true => exact .total fun k hk => ⟨(), k, rfl, hk, rfl⟩
  | false =>
    refine ⟨fun _ hr => (by cases hr), fun _ hr => ?_⟩
    cases hr
    exact panicked_assertion rfl

theorem refSlot_guard (p : PhysAddr) : Keeping P (refSlot p) Panics := keeps_refSlot .panics p

theorem freeFrame_eq (f : PhysAddr) (k : Kernel φ) : freeFrame A f k =
    match A.free k.frames f with
    | none => .error .assertion k
    | some fr => .ok () { k with frames := fr } := by
  unfold freeFrame
  rw [run_bind, run_get]
  dsimp only
  cases A.free k.frames f <;> rfl

theorem pagePut_guard (f : PhysAddr) :
    Triple (Guard A W (f :: pend)) (pagePut A f) (fun _ => Guard A W pend)
      Panics := by
  refine .bind (refSlot_guard f) fun _ => ?_
  refine .bind (R := fun k' k => Guard A W (f :: pend) k ∧ k' = k)
    (.get fun _ h => ⟨h, rfl⟩) fun k' => ?_
  refine .bind (assert_guard _) fun _ => ?_
  refine ⟨fun {k u k''} hk hr => ?_, fun {k e k''} hk hr => ?_⟩
  · obtain ⟨⟨hG, rfl⟩, -⟩ := hk
    obtain ⟨_, k1, hm, hr⟩ := bind_eq_ok.mp hr
    cases hm
    split at hr
    · rename_i h1
      rw [freeFrame_eq] at hr
      cases hfr : A.free k'.frames f with
      | none =>
        rw [hfr] at hr
        cases hr
      | some fr =>
        rw [hfr] at hr
        cases hr
        exact ⟨guarded_put hG.1 fun q hq => ((A.free_iff hfr q).mp hq).imp id fun h => ⟨h, h1⟩, hG.2⟩
    · cases hr
      exact ⟨guarded_put hG.1 fun q hq => .inl hq, hG.2⟩
  · obtain ⟨⟨hG, rfl⟩, -⟩ := hk
    rcases bind_eq_error.mp hr with hr | ⟨_, k1, hm, hr⟩
    · cases hr
    rw [run_ite] at hr
    split at hr
    · exact (keeps_freeFrame (P := fun _ => True) .panics (fun _ _ _ _ h => h) f).error trivial hr
    · cases hr

theorem pageGet_guard (f : PhysAddr) :
    Triple (fun k => Guard A W pend k ∧ ∃ h, (k.tally A).Holds f h) (pageGet f)
      (fun _ k => Guard A W (f :: pend) k ∧ ∃ h, (k.tally A).Holds f h) Panics := by
  refine .bind (refSlot_guard f) fun _ => ?_
  refine .bind (R := fun k' k => (Guard A W pend k ∧ ∃ h, (k.tally A).Holds f h) ∧ k' = k)
    (.get fun _ h => ⟨h, rfl⟩) fun k' => ?_
  refine .bind (assert_guard _) fun _ => .modify fun k hk => ?_
  obtain ⟨⟨⟨hG, hh⟩, rfl⟩, -⟩ := hk
  exact ⟨⟨guarded_get hG.1 hh, hG.2⟩, hh⟩

/-- What `alloc_user_page` hands out. -/
def Fetched (A : FrameAllocator φ) (W : Watch) (pend : List PhysAddr) (o : Option PhysAddr)
    (k : Kernel φ) : Prop :=
  match o with
  | none => Guard A W pend k
  | some p => Guard A W (p :: pend) k ∧ k.refs p = 1

theorem allocUserPage_guard :
    Triple (Guard A W pend) (allocUserPage A) (Fetched A W pend) Panics := by
  refine ⟨fun {k o k'} hk hr => ?_, fun {k e k'} hk hr => ?_⟩
  · unfold allocUserPage allocZeroed at hr
    simp only [run_bind, run_get] at hr
    cases hal : A.alloc k.frames with
    | none =>
      rw [hal] at hr
      cases hr
      exact hk
    | some pf =>
      obtain ⟨p, fr⟩ := pf
      rw [hal] at hr
      simp only [run_bind, run_modify, run_pure, refSlot_eq] at hr
      split at hr
      · rename_i hs
        split at hs
        · cases hs
          cases hr
          refine ⟨⟨guarded_alloc hk.1 (A.alloc_isFree hal) fun q hq => (A.alloc_iff hal q).mp hq,
            hk.2⟩, update_self ..⟩
        · cases hs
      · cases hr
  · exact panics_allocUserPage.error hr

/-- A predicate that does not see which frames are free or serve as tables. -/
def TableBlind (C : Tally → Prop) : Prop :=
  ∀ T isFree tables, C T → C { T with isFree := isFree, tables := tables }

theorem guard_addTable (hC : TableBlind C) {key : Nat × Nat} {p : PhysAddr}
    {fr : φ} (hal : A.alloc k.frames = some (p, fr)) (hk : Guard A W pend k ∧ C (k.tally A)) :
    Guard A W pend (({ k with frames := fr, mem := update k.mem p fun _ => 0 } :
        Kernel φ).setSpace s { k.spaces s with tables := (key, p) :: (k.spaces s).tables }) ∧
      C ((({ k with frames := fr, mem := update k.mem p fun _ => 0 } :
        Kernel φ).setSpace s { k.spaces s with tables := (key, p) :: (k.spaces s).tables }).tally A) := by
  have hpt : (fun t => (update k.spaces s { k.spaces s with
      tables := (key, p) :: (k.spaces s).tables } t).pt) = fun t => (k.spaces t).pt := by
    funext t
    by_cases h : t = s
    · subst h
      rw [update_self]
    · rw [update_of_ne h]
  have htb : (fun t => (update k.spaces s { k.spaces s with
      tables := (key, p) :: (k.spaces s).tables } t).tableFrames) =
      update (fun t => (k.spaces t).tableFrames) s (p :: (k.spaces s).tableFrames) := by
    funext t
    by_cases h : t = s
    · subst h
      rw [update_self, update_self]
      rfl
    · rw [update_of_ne h, update_of_ne h]
  refine ⟨⟨?_, fun t => ?_, hk.1.2.2⟩, ?_⟩
  · have h := guarded_addTable (s := s) hk.1.1 (A.alloc_isFree hal)
      fun q hq => (A.alloc_iff hal q).mp hq
    unfold setSpace tally
    rw [hpt, htb]
    exact h
  · by_cases h : t = s
    · subst h
      rw [setSpace_self]
      exact hk.1.2.1 t
    · rw [setSpace_ne _ _ h]
      exact hk.1.2.1 t
  · unfold setSpace tally
    rw [hpt]
    exact hC _ _ _ hk.2

theorem walkCreate_guard (hC : TableBlind C) (path : List (Nat × Nat)) :
    Keeping (fun k => Guard A W pend k ∧ C (k.tally A)) (walkCreate A s path) E := by
  induction path with
  | nil => exact .skip
  | cons key rest ih =>
    refine .bind (.total fun k hk => ⟨_, k, rfl, hk⟩) fun sp => .ite (fun _ => ih) fun _ => ?_
    have hstep : ∀ k : Kernel φ, Guard A W pend k ∧ C (k.tally A) →
        allocZeroed A k = .ok none k ∨ ∃ p k', allocZeroed A k = .ok (some p) k' ∧
          Guard A W pend (k'.setSpace s
            { k'.spaces s with tables := (key, p) :: (k'.spaces s).tables }) ∧
          C ((k'.setSpace s
            { k'.spaces s with tables := (key, p) :: (k'.spaces s).tables }).tally A) := by
      intro k hk
      unfold allocZeroed
      simp only [run_bind, run_get]
      cases hal : A.alloc k.frames with
      | none => exact .inl rfl
      | some pf => exact .inr ⟨pf.1, _, rfl, guard_addTable hC hal hk⟩
    refine .intro fun k hk => ?_
    rw [run_bind]
    rcases hstep k hk with h | ⟨p, k1, h, hG⟩
    · rw [h]
      exact .ok hk
    · rw [h]
      exact ih.ends hG

theorem map4k_guard (hC : TableBlind C)
    (hgo : ∀ k : Kernel φ, Guard A W (phys :: pend) k → C (k.tally A) →
      Guard A W pend (k.setPte s (pageIndex va) { fl with addr := phys, present := true })) :
    Ensures (fun k => Guard A W (phys :: pend) k ∧ C (k.tally A)) (map4k A s va phys fl)
      (Guard A W pend) := by
  refine .bind (walkCreate_guard hC _) fun b => .ite (fun _ => ?_) fun _ => ?_
  · refine .bind (triple_leafEntry s va) fun e => ?_
    have hset : Ensures (fun k => (Guard A W (phys :: pend) k ∧ C (k.tally A)) ∧
        k.pte s (pageIndex va) = e)
        (setLeafEntry s va { fl with addr := phys, present := true }) (Guard A W pend) :=
      .modify fun k hk => hgo k hk.1.1 hk.1.2
    exact .ite (fun _ => .bind (R := fun _ _ => False)
      (.throw fun _ h => .inr (guard_forget h.1.1)) fun _ =>
        ⟨fun h _ => h.elim, fun h _ => h.elim⟩) fun _ => hset
  · exact .throw fun _ h => .inr (guard_forget h.1)

theorem map4k_fresh (hi : pageIndex va < kernelHalf) (hs : s < W.count)
    (hr : PrivateAt W s (pageIndex va)) :
    Ensures (fun k => Guard A W (phys :: pend) k ∧ k.refs phys = 1) (map4k A s va phys fl)
      (Guard A W pend) :=
  map4k_guard (C := fun T => T.refs phys = 1) (fun _ _ _ => id)
    fun _ hG h1 => guard_fresh hi hG h1 hs hr (count_install _ _ _)

theorem map4k_object {o : Nat} (hi : pageIndex va < kernelHalf) (hs : s < W.count)
    (hc : fl.cow = false)
    (hr : ¬ W.exempt s (pageIndex va) → ∃ r ∈ W.regs s, r.Covers (pageIndex va) ∧ r.shared = some o) :
    Ensures (fun k => Guard A W (phys :: pend) k ∧ ∃ key, (key, phys) ∈ k.objs o)
      (map4k A s va phys fl) (Guard A W pend) :=
  map4k_guard (C := fun T => ∃ key, (key, phys) ∈ T.objs o) (fun _ _ _ => id)
    fun _ hG ho => guard_share hi hG ho hc hs rfl hr

theorem guard_committed (n : Nat) (h : Guard A W pend k) :
    Guard A W pend (k.setSpace s { k.spaces s with committed := n }) :=
  guard_setSpace h rfl rfl rfl

theorem chargePage_guard : Keeping (Guard A W pend) (chargePage s) E :=
  triple_chargePage (fun _ _ _ _ => id) fun _ _ h => guard_committed _ h

theorem unchargePages_guard (n : Nat) : Keeping (Guard A W pend) (unchargePages s n) Panics :=
  keeps_unchargePages (fun _ _ _ _ => id) (fun _ _ h => guard_committed _ h) n

theorem unchargeSwap_guard (n : Nat) : Keeping (Guard A W pend) (unchargeSwap s n) Panics :=
  keeps_unchargeSwap (fun _ _ _ _ => id) n

/-- The ownership, with a known entry at `va` whose frame has one reference. -/
def GuardSole (A : FrameAllocator φ) (W : Watch) (pend : List PhysAddr) (s va : Nat) (e : Pte)
    (k : Kernel φ) : Prop :=
  (Guard A W pend k ∧ k.refs e.addr = 1) ∧ k.pte s (pageIndex va) = e

/-- A frame with one reference has no holder beside the page that maps it. -/
theorem sole_holder (hi : i < kernelHalf) (h : Guard A W pend k) (hp : (k.pte s i).present = true)
    (h1 : k.refs (k.pte s i).addr = 1) {x : Holder} (hx : (k.tally A).Holds (k.pte s i).addr x) :
    x = .page s i := by
  by_contra hne
  have hpt := tally_pt (A := A) k s hi
  have hc := h.1.refs (k.pte s i).addr [.page s i, x] (by simp [Ne.symm hne]) fun y hy => by
    rcases mem_cons.mp hy with rfl | hy
    · exact ⟨hi, by rw [hpt]; exact hp, by rw [hpt]⟩
    · rw [mem_singleton.mp hy]
      exact hx
  have : (k.tally A).refs (k.pte s i).addr = 1 := h1
  simp only [length_cons, length_nil] at hc
  omega

/-- A page whose frame has one reference is private. -/
theorem sole_private (hi : i < kernelHalf) (h : Guard A W pend k)
    (hp : (k.pte s i).present = true) (h1 : k.refs (k.pte s i).addr = 1) : PrivateAt W s i := by
  intro hD
  have hpt := tally_pt (A := A) k s hi
  obtain ⟨r, hr, hcov, he⟩ := (h.1.page s i hi hD).1 (by rw [hpt]; exact hp)
  refine ⟨r, hr, hcov, ?_⟩
  cases hs : r.shared with
  | none => rfl
  | some o =>
    -- the object would be a second holder
    rw [hs] at he
    obtain ⟨⟨key, hkey⟩, -⟩ := he
    have hsole := sole_holder hi h hp h1 (x := .object o key) (by rw [← hpt]; exact hkey)
    cases hsole

theorem setLeafEntry_sole (e' : Pte) (hi : pageIndex va < kernelHalf)
    (he : e.present = true) (hp : e'.present = true) (ha : e'.addr = e.addr)
    (hw : e'.writable = e.writable) (hc : e'.cow = e.cow) :
    Triple (GuardSole A W pend s va e) (setLeafEntry s va e') (fun _ => GuardSole A W pend s va e')
      E := by
  refine .modify fun k hk => ?_
  obtain ⟨⟨hG, h1⟩, rfl⟩ := hk
  refine ⟨⟨guard_rewrite hi hG he hp ha (fun h => .inl (hw ▸ h)) fun h => .inl (hc ▸ h), ?_⟩,
    setPte_self k s _ e'⟩
  unfold setPte
  rw [if_pos hi, ha]
  exact h1

theorem tryEvict_guard (hi : pageIndex va < kernelHalf) (force : Bool) :
    Keeping (Guard A W pend) (tryEvict A s va force) Panics := by
  have hret : ∀ {e : Pte} (b : Bool), Triple (GuardSole A W pend s va e) (pure b : KM φ Bool)
      (fun _ => Guard A W pend) Panics := fun b => Triple.pure fun _ h => h.1.1
  have hfree : ∀ {e : Pte} (i : Nat), Triple (GuardSole A W pend s va e) (do freeSlot i; return false)
      (fun _ => Guard A W pend) Panics := fun i =>
    Triple.bind (.modify fun _ => id) fun _ => hret false
  refine Triple.bind (triple_leafEntry s va) fun e => .ite
    (fun _ => Triple.pure fun _ h => h.1) fun hc => ?_
  have he := present_of_not hc
  have hcount : Triple (fun k => Guard A W pend k ∧ k.pte s (pageIndex va) = e)
      (pageCount e.addr : KM φ Nat) (fun n k => (Guard A W pend k ∧ k.pte s (pageIndex va) = e) ∧
        k.refs e.addr = n) Panics :=
    Triple.bind (refSlot_guard e.addr) fun _ => .bind
      (Triple.get (Q := fun k' k => (Guard A W pend k ∧ k.pte s (pageIndex va) = e) ∧ k' = k)
        fun _ h => ⟨h, rfl⟩) fun k' => Triple.pure fun k h => ⟨h.1, by rw [h.2]⟩
  refine Triple.bind hcount fun n => .ite (fun _ => .pure fun _ h => h.1.1) fun hn => ?_
  have hone : n = 1 := by
    by_contra h
    exact hn h
  subst hone
  refine Triple.pre (P := GuardSole A W pend s va e) ?_ fun _ h => ⟨⟨h.1.1, h.2⟩, h.1.2⟩
  refine Triple.ite (fun _ => ?_) fun _ => ?_
  · exact Triple.bind (setLeafEntry_sole { e with accessed := false } hi he he rfl rfl rfl)
      fun _ => hret false
  refine Triple.bind (setLeafEntry_sole { e with dirty := false } hi he he rfl rfl rfl) fun _ => ?_
  have hstore : Keeping (fun k => Guard A W pend k ∧ k.refs e.addr = 1)
      (storePage e.addr : KM φ (Option Nat)) Panics := triple_storePage (fun _ _ => id) _
  refine Triple.bind (.pre hstore (fun _ h => h.1)) fun o => ?_
  cases o with
  | none => exact Triple.pure fun _ h => h.1
  | some slot =>
    refine Triple.bind (triple_leafEntry s va) fun e' => .ite (fun _ => ?_) fun hc' => ?_
    · exact Triple.bind (.modify fun _ h => h.1.1) fun _ =>
        Triple.skip
    have he' : e'.present = true ∧ e'.addr = e.addr := by
      simp only [Bool.or_eq_true, not_or, Bool.not_eq_true', decide_eq_true_eq] at hc'
      exact ⟨by simpa using hc'.1.1, by simpa using hc'.1.2⟩
    obtain ⟨hp', ha'⟩ := he'
    rw [← ha']
    have hcharge : Keeping (GuardSole A W pend s va e') (chargeSwap s : KM φ Bool) Panics :=
      triple_chargeSwap fun _ _ _ _ => id
    refine Triple.bind hcharge fun ok => .ite (fun _ => hfree slot) fun _ => ?_
    refine Triple.bind (.modify fun k hk => ?_)
      fun _ => Triple.bind (pagePut_guard _) fun _ =>
        Triple.bind (unchargePages_guard 1) fun _ => .skip
    obtain ⟨⟨hG, h1⟩, rfl⟩ := hk
    exact guard_remove hi hG hp' rfl fun _ hD => sole_private hi hG hp' h1 hD

section

variable (ht : ∀ r ∈ W.real s, r.end ≤ userEnd)
include ht

theorem reclaim_guard (target : Nat) : Keeping (Guard A W pend) (reclaim A s target) Panics := by
  refine triple_reclaim fun k hk r hr j hj force => tryEvict_guard (pageIndex_lt ?_) force
  rw [hk.2.1 s] at hr
  exact lt_of_lt_of_le (page_lt_end hj) (ht r hr)

theorem chargePressure_guard : Keeping (Guard A W pend) (chargePressure A s) (Stops A W pend) := by
  refine Triple.bind chargePage_guard fun _ => .ite (fun _ => ?_) fun _ => .skip
  refine Triple.bind (.stop (reclaim_guard ht _) fun _ _ h => .inl h) fun _ => .bind chargePage_guard fun _ => ?_
  exact Triple.ite (fun _ => .throw fun _ h => .inr h) fun _ => .skip

theorem allocPressure_guard :
    Triple (Guard A W pend) (allocPressure A s) (Fetched A W pend) Panics := by
  refine .bind allocUserPage_guard fun o => ?_
  cases o with
  | some p => exact .pure fun _ => id
  | none => exact .bind (reclaim_guard ht _) fun _ => allocUserPage_guard

theorem allocCharged_guard :
    Triple (Guard A W pend) (allocCharged A s) (fun p k => Guard A W (p :: pend) k ∧ k.refs p = 1)
      (Stops A W pend) := by
  refine .bind (.stop (allocPressure_guard ht) fun _ _ h => .inl h) fun o => ?_
  cases o with
  | some p => exact .pure fun _ => id
  | none =>
    exact .bind (.stop (unchargePages_guard 1) fun _ _ h => .inl h) fun _ => .throw fun _ h => .inr h

end

theorem panicStops {α : Type} {x : KM φ α} {Q : α → Kernel φ → Prop}
    (h : Triple P x Q Panics) : Triple P x Q (Stops A W pend) :=
  .stop h fun _ _ h => .inl h

theorem swapIn_guard (ht : ∀ r ∈ W.real s, r.end ≤ userEnd) (e : Pte) (r : Region)
    (hi : pageIndex page < kernelHalf) (hs : s < W.count) (hp : PrivateAt W s (pageIndex page)) :
    Keeping (Guard A W pend) (swapIn A s page e r) (Stops A W pend) := by
  refine Triple.bind (chargePressure_guard ht) fun _ => .bind (allocCharged_guard ht) fun p => ?_
  have hread : Keeping (fun k => Guard A W (p :: pend) k ∧ k.refs p = 1)
      (readSlot (e.addr / pageSize) p) (Stops A W pend) :=
    Triple.bind (.get fun _ => id)
      fun _ => .ite (fun _ => .bind (.modify fun _ => id) fun _ => .skip) fun _ => .skip
  refine .bind hread fun ok => ?_
  have hmap : Ensures (fun k => Guard A W (p :: pend) k ∧ k.refs p = 1) (do
      map4k A s page p (toPageFlags r.prot)
      freeSlot (e.addr / pageSize)
      unchargeSwap s 1) (Guard A W pend) :=
    .bind (map4k_fresh hi hs hp) fun _ => .bind (.modify
      fun _ => id) fun _ => panicStops (unchargeSwap_guard 1)
  refine .ite (fun _ => ?_) fun _ => hmap
  refine .bind (panicStops (.pre (pagePut_guard p) (fun _ h => h.1))) fun _ => .bind (panicStops (unchargePages_guard 1)) fun _ => ?_
  exact .bind (R := fun _ _ => False) (.throw fun _ h => .inr h) fun _ =>
    ⟨fun h _ => h.elim, fun h _ => h.elim⟩

theorem steady_objs (C : (Nat → List (Nat × PhysAddr)) → Prop) :
    Steady A s (fun k : Kernel φ => C k.objs) := by
  refine ⟨fun _ _ => id, fun _ _ _ _ h => h, fun _ _ => id, fun _ _ _ _ => id, fun _ _ => id,
    fun k i e _ h => ?_⟩
  unfold setPte
  split <;> exact h

theorem keeps_allocCharged_objs (C : (Nat → List (Nat × PhysAddr)) → Prop) :
    Keeps (fun k : Kernel φ => C k.objs) (allocCharged A s) := by
  have hst := steady_objs (A := A) (s := s) C
  have hal : Keeps (fun k : Kernel φ => C k.objs) (allocUserPage A) :=
    keeps_allocUserPage .self (fun _ _ _ => id) fun _ _ => id
  have hpr : Keeps (fun k : Kernel φ => C k.objs) (allocPressure A s) := by
    refine .bind hal fun o => ?_
    cases o with
    | some p => exact Keeping.pure _
    | none => exact .bind (steady_reclaim hst _) fun _ => hal
  refine .bind hpr fun o => ?_
  cases o with
  | some p => exact Keeping.pure _
  | none => exact Keeping.bind (steady_unchargePages hst 1) fun _ => .throw _

theorem sharedFrame_guard (ht : ∀ r ∈ W.real s, r.end ≤ userEnd) (o key : Nat)
    (ho : ∃ r ∈ W.regs s, r.shared = some o) :
    Triple (Guard A W pend) (sharedFrame A s o key)
      (fun p k => Guard A W (p :: pend) k ∧ ∃ key, (key, p) ∈ k.objs o) (Stops A W pend) := by
  have hget : ∀ p, Triple (fun k => Guard A W pend k ∧ ∃ key, (key, p) ∈ k.objs o) (do
      pageGet p
      return p : KM φ PhysAddr) (fun p k => Guard A W (p :: pend) k ∧ ∃ key, (key, p) ∈ k.objs o)
      (Stops A W pend) := by
    intro p
    have hobj : Keeps (fun k : Kernel φ => ∃ key, (key, p) ∈ k.objs o) (pageGet p) :=
      keeps_pageGet .self (fun _ _ => id) p
    refine .bind (panicStops (.mono (.and (pageGet_guard p) hobj)
      (fun k h => ⟨⟨h.1, ?_⟩, h.2⟩) (fun _ k h => (⟨h.1.1, h.2⟩ : Guard A W (p :: pend) k ∧
        ∃ key, (key, p) ∈ k.objs o)) fun _ _ h => h.1)) fun _ => .pure fun _ => id
    obtain ⟨key, hkey⟩ := h.2
    exact ⟨.object o key, hkey⟩
  refine .bind (.get (Q := fun k' k => Guard A W pend k ∧ k' = k) fun _ h => ⟨h, rfl⟩) fun k' => ?_
  cases hl : (k'.objs o).lookup key with
  | some p =>
    refine .pre (hget p) (fun k h => ⟨h.1, key, ?_⟩)
    obtain ⟨l1, l2, he, -⟩ := lookup_eq_some_iff.mp hl
    rw [← h.2, he]
    exact mem_append_right _ mem_cons_self
  | none =>
    have hnone : Triple (fun k => Guard A W pend k ∧ k' = k) (allocCharged A s)
        (fun p k => (Guard A W (p :: pend) k ∧ k.refs p = 1) ∧ k.objs = k'.objs)
        (Stops A W pend) :=
      .mono (.and (allocCharged_guard ht)
        (keeps_allocCharged_objs fun objs => objs = k'.objs)) (fun _ h => ⟨h.1, by rw [h.2]⟩)
        (fun _ _ => id) fun _ _ h => h.1
    refine .bind hnone fun p => ?_
    refine .bind (.modify fun k h => ?_) fun _ => hget p
    obtain ⟨⟨hG, h1⟩, he⟩ := h
    obtain ⟨r, hr, hsh⟩ := ho
    have hkey : key ∉ (k.objs o).map Prod.fst := by
      rw [he]
      intro hm
      obtain ⟨x, hx, hxk⟩ := mem_map.mp hm
      have := lookup_eq_none_iff.mp hl x hx
      simp [hxk] at this
    refine ⟨⟨guarded_insert hG.1 h1 hkey (hG.1.named s r hr o hsh), hG.2⟩, key, ?_⟩
    dsimp only
    rw [update_self]
    exact mem_cons_self

/-- The only mapping of a frame with one reference. -/
theorem sole_maps (hi : i < kernelHalf) (h : Guard A W pend k)
    (hp : (k.pte s i).present = true) (h1 : k.refs (k.pte s i).addr = 1) (t j : Nat)
    (hm : (k.tally A).Maps t j (k.pte s i).addr) : t = s ∧ j = i := by
  exact Holder.page.inj (sole_holder hi h hp h1 hm)

theorem cow_private (hi : i < kernelHalf) (h : Guard A W pend k)
    (hp : (k.pte s i).present = true) (hc : (k.pte s i).cow = true) : PrivateAt W s i := by
  intro hD
  have hpt := tally_pt (A := A) k s hi
  obtain ⟨r, hr, hcov, he⟩ := (h.1.page s i hi hD).1 (by rw [hpt]; exact hp)
  refine ⟨r, hr, hcov, ?_⟩
  cases hs : r.shared with
  | none => rfl
  | some o =>
    rw [hs] at he
    have h2 := he.2
    rw [hpt, hc] at h2
    cases h2

/-- A fresh frame takes the place of the one a page maps. -/
theorem guard_replace (hi : i < kernelHalf) (h : Guard A W (e.addr :: pend) k)
    (h1 : k.refs e.addr = 1) (hp : (k.pte s i).present = true) (hs : s < W.count)
    (hr : PrivateAt W s i) : Guard A W ((k.pte s i).addr :: pend) (k.setPte s i e) := by
  refine guard_fresh hi h h1 hs hr fun f => ?_
  have hin := count_install e ({} : Pte) pend f
  have h0 : ({} : Pte).share f = 0 := share_neg fun hn => by cases hn.1
  by_cases hf : (k.pte s i).addr = f
  · rw [share_pos ⟨hp, hf⟩, ← hf, count_cons_self]
    rw [h0, ← hf] at hin
    omega
  · rw [count_cons_of_ne hf]
    omega

theorem doCow_guard (hi : pageIndex page < kernelHalf) (hs : s < W.count)
    (he : e.present = true) (hc : e.cow = true) :
    Ensures (fun k => Guard A W pend k ∧ k.pte s (pageIndex page) = e) (doCow A s page e)
      (Guard A W pend) := by
  have hcount : Triple (fun k => Guard A W pend k ∧ k.pte s (pageIndex page) = e)
      (pageCount e.addr : KM φ Nat) (fun n k => (Guard A W pend k ∧ k.pte s (pageIndex page) = e) ∧
        k.refs e.addr = n) (Stops A W pend) :=
    panicStops (.bind (refSlot_guard e.addr) fun _ => .bind
      (.get (Q := fun k' k => (Guard A W pend k ∧ k.pte s (pageIndex page) = e) ∧ k' = k)
        fun _ h => ⟨h, rfl⟩) fun k' => .pure fun k h => ⟨h.1, by rw [h.2]⟩)
  refine .bind hcount fun n => .ite (fun hn => ?_) fun _ => ?_
  · refine .modify fun k hk => ?_
    obtain ⟨⟨hG, rfl⟩, h1⟩ := hk
    refine guard_rewrite hi hG he he rfl (fun _ => .inr (.inr fun t j hm => ?_)) fun h => by cases h
    exact sole_maps hi hG he (h1.trans hn) t j hm
  have hal : Triple (fun k => (Guard A W pend k ∧ k.pte s (pageIndex page) = e) ∧
      k.refs e.addr = n) (allocUserPage A)
      (fun o k => Fetched A W pend o k ∧ (k.pte s (pageIndex page) = e ∧
        PrivateAt W s (pageIndex page))) (Stops A W pend) := by
    have hkeep : Keeps (fun k : Kernel φ => k.pte s (pageIndex page) = e ∧
        PrivateAt W s (pageIndex page)) (allocUserPage A) :=
      keeps_allocUserPage .self (fun _ _ _ => id) fun _ _ => id
    refine panicStops (.mono (.and allocUserPage_guard hkeep)
      (fun k h => ⟨h.1.1, h.1.2, ?_⟩) (fun _ _ => id) fun _ _ h => h.1)
    have h2 := h.1.2
    exact cow_private hi h.1.1 (by rw [h2]; exact he) (by rw [h2]; exact hc)
  refine .bind hal fun o => ?_
  cases o with
  | none => exact .throw fun _ h => .inr h.1
  | some new =>
    refine .bind (.modify (Q := fun _ k => (Guard A W (new :: pend) k ∧
      k.refs new = 1) ∧ (k.pte s (pageIndex page) = e ∧ PrivateAt W s (pageIndex page)))
      fun _ => id) fun _ => ?_
    refine .bind (.modify fun k hk => ?_) fun _ => panicStops (pagePut_guard e.addr)
    obtain ⟨⟨hG, h1⟩, rfl, hpriv⟩ := hk
    exact guard_replace hi (by exact hG) h1 he hs hpriv

theorem fillFromFile_guard (p page : Nat) (r : Region) :
    Keeping (fun k => Guard A W (p :: pend) k ∧ k.refs p = 1) (fillFromFile p page r)
      (Stops A W pend) := by
  unfold fillFromFile
  cases r.backing with
  | none => exact Triple.skip
  | some b =>
    refine Triple.ite (fun _ => ?_) fun _ => .skip
    refine Triple.bind ?_ fun _ =>
      Triple.modify fun _ => id
    exact Triple.ite (fun _ => .skip) fun _ =>
      Triple.throw fun _ _ => .inl fun n h => by cases h

theorem ensurePage_guard (ht : ∀ r ∈ W.real s, r.end ≤ userEnd) {r : Region}
    {write : Bool} (hi : pageIndex page < kernelHalf) (hs : s < W.count)
    (hr : r ∈ W.regs s) (hcov : r.Covers (pageIndex page)) :
    Keeping (Guard A W pend) (ensurePage A s page r write) (Stops A W pend) := by
  refine Triple.bind (triple_leafEntry s page) fun e => .ite (fun hp => ?_) fun hp => ?_
  · refine .ite (fun hc => ?_) fun _ => .pure fun _ h => h.1
    exact doCow_guard hi hs hp (Bool.and_eq_true_iff.mp hc).2
  refine .ite (fun hsw => ?_) fun _ => ?_
  · have hpriv : ∀ k : Kernel φ, Guard A W pend k ∧ k.pte s (pageIndex page) = e →
        PrivateAt W s (pageIndex page) := by
      rintro k ⟨hG, rfl⟩ hD
      have h := (hG.1.page s (pageIndex page) hi hD).2
      rw [tally_pt k s hi] at h
      exact h (by simpa using hp) hsw
    exact .intro fun k hk => (swapIn_guard ht e r hi hs (hpriv k hk)).ends hk.1
  refine .bind (.pre (chargePressure_guard ht) (fun _ h => h.1)) fun _ => ?_
  cases hsh : r.shared with
  | some o =>
    refine .bind (R := fun _ => Guard A W pend) ?_ fun key => ?_
    · unfold add
      exact .ite (fun _ => .skip) fun _ =>
        .throw fun _ _ => .inl fun n h => by cases h
    · exact .bind (sharedFrame_guard ht o key ⟨r, hr, hsh⟩) fun p =>
        map4k_object hi hs rfl fun _ => ⟨r, hr, hcov, hsh⟩
  | none =>
    exact .bind (allocCharged_guard ht) fun p => .bind (fillFromFile_guard p page r)
      fun _ => map4k_fresh hi hs fun _ => ⟨r, hr, hcov, hsh⟩

theorem putAll_guard (ps : List (Nat × PhysAddr)) :
    Triple (Guard A W (ps.map Prod.snd ++ pend)) (putAll A ps) (fun _ => Guard A W pend)
      Panics := by
  induction ps with
  | nil => exact .skip
  | cons x xs ih => exact .bind (pagePut_guard x.2) fun _ => ih

theorem reapShared_guard (ha : ∀ t r, r ∈ W.regs t → r ∈ W.real t ∨ ∀ i, W.exempt t i)
    (os : List Nat) : Keeping (Guard A W pend) (reapShared A os) Panics := by
  induction os with
  | nil => exact .skip
  | cons o os ih =>
    refine Triple.bind (.get (Q := fun k' k => Guard A W pend k ∧ k' = k)
      fun _ h => ⟨h, rfl⟩) fun k' => .ite (fun _ => Triple.pre ih (fun _ h => h.1)) fun hn => ?_
    refine Triple.bind (.get (Q := fun k'' k => (Guard A W pend k ∧ k' = k) ∧ k'' = k)
      fun _ h => ⟨h, rfl⟩) fun k'' => ?_
    refine .bind (Triple.modify fun k hk => ?_) fun _ => .bind (putAll_guard _) fun _ => ih
    obtain ⟨⟨hG, rfl⟩, rfl⟩ := hk
    refine ⟨guarded_clear hG.1 fun t j hj hp hD r hr hsh => hn ?_, hG.2⟩
    have hlt := hG.1.room t j hj hp
    have hreal := (ha t r hr).resolve_right fun h => hD (h j)
    rw [← hG.2.1 t] at hreal
    unfold referenced
    rw [Bool.or_eq_true]
    right
    refine any_eq_true.mpr ⟨t, mem_range.mpr hlt, ?_⟩
    exact any_eq_true.mpr ⟨r, hreal, decide_eq_true hsh⟩

theorem freeSwapEntry_guard (va : Nat) {C : Kernel φ → Prop}
    (hC : ∀ k i, C k → C (k.setPte s i {})) (hsw : ∀ k sw, C k → C { k with swap := sw }) :
    Keeping (fun k => Guard A W pend k ∧ C k) (freeSwapEntry s va) Panics := by
  refine Triple.bind (triple_leafEntry s va) fun e => .ite (fun hc => ?_) fun _ =>
    Triple.pure fun _ h => h.1
  refine Triple.bind (.modify (Q := fun _ k => Guard A W pend k ∧ C k)
    fun k h => ⟨h.1.1, hsw k _ h.1.2⟩) fun _ => ?_
  exact Triple.bind (.modify fun k h => ⟨guard_unswap h.1, hC k _ h.2⟩) fun _ => Triple.skip

theorem releasePages_guard (va n : Nat) :
    Triple (fun k => Guard A W pend k ∧ KernelQuiet k s va n) (releasePages A s va n)
      (fun _ => Guard A W pend) Panics := by
  induction n generalizing va with
  | zero => exact .pure fun _ h => h.1
  | succ n ih =>
    have hrest : Triple (fun k => Guard A W pend k ∧ KernelQuiet k s va (n + 1))
        (releasePages A s (va + pageSize) n) (fun _ => Guard A W pend) Panics :=
      .pre (ih (va + pageSize)) fun _ h => ⟨h.1, (kernelQuiet_succ h.2).2⟩
    refine .bind (freeSwapEntry_guard va (fun _ _ => kernelQuiet_clear) fun _ _ => id)
      fun b => .ite (fun _ => .bind hrest fun _ => .skip) fun _ => ?_
    have hun : Triple (fun k => Guard A W pend k ∧ KernelQuiet k s va (n + 1)) (unmap4k s va)
        (fun o k => Guard A W (o.toList.map (·.addr) ++ pend) k ∧ KernelQuiet k s va (n + 1))
        Panics := by
      refine .bind (triple_leafEntry s va) fun e => .ite (fun hp => ?_) fun _ =>
        .pure fun _ h => h.1
      refine .bind (.modify fun k hk => ?_) fun _ => .pure fun _ => id
      obtain ⟨⟨hG, hq⟩, rfl⟩ := hk
      have hi : pageIndex va < kernelHalf := by
        by_contra hh
        have h0 := hq 0 (Nat.succ_pos n)
        rw [Nat.zero_mul, Nat.add_zero] at h0
        have := h0 (Nat.not_lt.mp hh)
        rw [this] at hp
        cases hp
      exact ⟨guard_remove hi hG hp rfl fun h => (by cases h), kernelQuiet_clear hq⟩
    refine .bind hun fun o => ?_
    cases o with
    | none => exact hrest
    | some e =>
      have hput : Triple (fun k => Guard A W (e.addr :: pend) k ∧ KernelQuiet k s va (n + 1))
          (pagePut A e.addr) (fun _ k => Guard A W pend k ∧ KernelQuiet k s va (n + 1))
          Panics :=
        .stop (.and (pagePut_guard e.addr) (keeps_pagePut .self
          (fun _ _ => id) (fun _ _ _ _ h => h) e.addr))
          fun _ _ h => h.1
      exact .bind hput fun _ => .bind hrest fun _ => .skip

end Fastros.Mm
