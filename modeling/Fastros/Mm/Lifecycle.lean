import Fastros.Mm.Private

/-!
# Spaces made, forked and dropped

A call of one process leaves the other spaces where they are. A fork shares
frames that no private page may write to any more; a drop hands back what the
space still holds.
-/

namespace Fastros.Mm

open Lib.Stateful List
open Function (update update_self update_of_ne update_idem)

variable {φ : Type} {A : FrameAllocator φ} {live : Nat → Prop} {s : Nat} {k : Kernel φ}

/-- The predicate reads the placement of spaces other than `s` only. -/
def Elsewhere (s : Nat) (P : Kernel φ → Prop) : Prop :=
  ∀ k k' : Kernel φ, k'.nspaces = k.nspaces →
    (∀ t, t ≠ s → (k'.spaces t).placement = (k.spaces t).placement) → P k → P k'

section

variable {P : Kernel φ → Prop} (hP : Elsewhere s P)
include hP

theorem elsewhere_placement : PlacementOnly P := fun k k' hc h => hP k k' hc fun t _ => h t

theorem elsewhere_setSpace (sp : AddressSpace) (hk : P k) : P (k.setSpace s sp) :=
  hP k _ rfl (fun t ht => by rw [setSpace_ne k _ ht]) hk

theorem unmap_elsewhere (start len : Nat) : Keeps P (unmap A s start len) := by
  refine keeps_state fun k hk => ?_
  rw [unmap_eq]
  split
  · exact (placement_releaseRange (elsewhere_placement hP) _ _ _ _).state
      (elsewhere_setSpace hP _ hk)
  · exact hk

theorem protect_elsewhere (start len : Nat) (prot : Prot) : Keeps P (protect s start len prot) := by
  refine keeps_state fun k hk => ?_
  rw [protect_eq]
  split
  · split
    · split
      · exact (placement_protectPages (elsewhere_placement hP) _ _ _ _).state
          (elsewhere_setSpace hP _ hk)
      · exact hk
    · exact hk
  · exact hk

theorem pushRegion_elsewhere (r : Region) : Keeps P (pushRegion s r) := by
  refine keeps_state fun k hk => ?_
  rw [pushRegion_eq]
  split
  · split
    · exact hk
    · split
      · exact hk
      · exact elsewhere_setSpace hP _ hk
  · exact hk

theorem place_elsewhere (start len : Nat) (prot : Prot) (file : Option (Nat × Nat)) (shared : Bool) :
    Keeps P (place s start len prot file shared) :=
  triple_place .self (pushRegion_elsewhere hP) (fun _ _ => placement_rest
    (elsewhere_placement hP) rfl rfl) _ _ _ _ _

theorem mmap_elsewhere (hint len : Nat) (prot : Prot) (fixed : Bool) (file : Option (Nat × Nat))
    (shared : Bool) : Keeps P (mmap A s hint len prot fixed file shared) :=
  triple_mmap (C := fun _ => True) .self (fun _ => id) (fun _ => unmap_elsewhere hP _ _)
    (fun _ _ => place_elsewhere hP _ _ _ _ _) (fun _ _ _ => trivial)
    fun _ _ _ => elsewhere_setSpace hP _

theorem attachShared_elsewhere (hint len : Nat) (prot : Prot) (obj : Nat) :
    Keeps P (attachShared s hint len prot obj) := by
  refine triple_attachShared (fun _ _ => id) (fun _ _ => id) (fun _ _ _ _ => trivial)
    (fun _ _ hk _ => ⟨elsewhere_setSpace hP _ hk, trivial⟩) fun start n k _ hk => ?_
  rw [attachAt_eq]
  split
  · split
    · exact hk
    · exact elsewhere_setSpace hP _ hk
  · exact hk

theorem brk_elsewhere (addr : Nat) : Keeps P (brk A s addr) :=
  triple_brk .self (fun _ => id) (fun _ => .pre (unmap_elsewhere hP _ _) fun _ h => h.1) (fun _ => elsewhere_setSpace hP _)
    (fun _ hk _ _ => elsewhere_setSpace hP _ hk) fun _ hk _ _ => elsewhere_setSpace hP _ hk

theorem tryGrowStack_elsewhere (page : Nat) : Keeps P (tryGrowStack s page) := by
  refine .bind (keeps_space s) fun sp => ?_
  dsimp only
  split
  · exact Keeping.pure _
  split
  · exact Keeping.pure _
  · exact Keeping.ite (fun _ => .pure _) fun _ => .bind
      (keeps_modifySpace fun _ => elsewhere_setSpace hP _) fun _ => Keeping.pure _

/-- A call of one process leaves the other spaces in place. -/
theorem call_elsewhere (c : Call) : Keeps P (c.run A s) := by
  have heff : ∀ {α : Type} {x : KM φ α}, Keeps P x → Keeps P (effect x) := fun h =>
    Keeping.bind h fun _ => .pure _
  cases c with
  | mapRegion | mapSegment => exact pushRegion_elsewhere hP _
  | setBrkBase base =>
    exact Keeping.bind (keeps_alignUp _) fun _ => keeps_modifySpace fun _ => elsewhere_setSpace hP _
  | mmap hint len prot fixed file shared => exact heff (mmap_elsewhere hP _ _ _ _ _ _)
  | attachShared hint len prot obj => exact heff (attachShared_elsewhere hP _ _ _ _)
  | unmap start len => exact unmap_elsewhere hP _ _
  | protect start len prot => exact protect_elsewhere hP _ _ _
  | brk addr => exact heff (brk_elsewhere hP _)
  | fault addr write exec =>
    exact heff (keeps_handleFault (elsewhere_placement hP) (fun _ => tryGrowStack_elsewhere hP _) _ _)

end

theorem tally_blank (k : Kernel φ) (c : Nat) {sp : AddressSpace} (hp : sp.pt = fun _ => {}) :
    (k.setSpace c sp).tally A = (k.tally A).blank c sp.tableFrames := by
  have hpt : (fun t => ((k.setSpace c sp).spaces t).pt) =
      update (fun t => (k.spaces t).pt) c (fun _ => {}) := by
    funext t
    by_cases ht : t = c
    · rw [ht, setSpace_self, update_self, hp]
    · rw [setSpace_ne k _ ht, update_of_ne ht]
  have htb : (fun t => ((k.setSpace c sp).spaces t).tableFrames) =
      update (fun t => (k.spaces t).tableFrames) c sp.tableFrames := by
    funext t
    by_cases ht : t = c
    · rw [ht, setSpace_self, update_self]
    · rw [setSpace_ne k _ ht, update_of_ne ht]
  unfold Kernel.tally Tally.blank
  rw [hpt, htb]
  rfl

/-- A new space owns the frame of its root table. -/
theorem own_addSpace {p : PhysAddr} {fr : φ} (hal : A.alloc k.frames = some (p, fr))
    (h : Own A live k) (hl : ¬ live k.nspaces) :
    Own A (fun t => live t ∨ t = k.nspaces) (k.addSpace fr p { pml4 := p }) := by
  have hregs : ∀ t, t ≠ k.nspaces →
      ((k.addSpace fr p { pml4 := p }).spaces t).regions = (k.spaces t).regions := fun t ht =>
    congrArg AddressSpace.regions (update_of_ne ht ..)
  have hself : (k.addSpace fr p { pml4 := p }).spaces k.nspaces = { pml4 := p } := update_self ..
  have hblank : Guarded live (fun t => ((k.addSpace fr p { pml4 := p }).spaces t).regions)
      (fun _ _ => False) [] ((k.tally A).blank k.nspaces []) :=
    guarded_blank [] h hl hregs fun r hr => by
      rw [hself] at hr
      cases hr
  have hopen := guarded_open hblank (update_self ..)
    (A.alloc_isFree hal) (fun q hq => (A.alloc_iff hal q).mp hq) (Nat.le_succ _)
  have htally : (k.addSpace fr p { pml4 := p }).tally A =
      { (k.tally A).blank k.nspaces [p] with isFree := A.isFree fr, nspaces := k.nspaces + 1 } :=
    congrArg (fun T : Tally => { T with isFree := A.isFree fr, nspaces := k.nspaces + 1 })
      (tally_blank k k.nspaces (rfl : ({ pml4 := p } : AddressSpace).pt = fun _ => {}))
  unfold Own
  rw [htally]
  unfold Tally.blank at hopen ⊢
  rw [update_idem] at hopen
  exact hopen

variable {W : Watch} {P : Kernel φ → Prop}
variable {pend todo : List PhysAddr}

theorem releaseRegions_guard (rs : List Region) (hs : ∀ r ∈ rs, r.Sound) :
    Keeping (Guard A W pend) (releaseRegions A s rs) Panics := by
  induction rs with
  | nil => exact .skip
  | cons r rs ih =>
    have hr := hs r mem_cons_self
    refine .bind (.pre (releasePages_guard r.start _) (fun k h => ⟨h, sound_quiet hr⟩)) fun fs => ?_
    exact .bind (ih fun q hq => hs q (mem_cons_of_mem _ hq)) fun _ =>
      .skip

/-- Table frames that belong to no space any more. -/
def Spare (A : FrameAllocator φ) (W : Watch) (todo : List PhysAddr) (k : Kernel φ) : Prop :=
  Guard A W [] k ∧ todo.Nodup ∧ ∀ p ∈ todo, ¬ (k.tally A).Used [] p ∧
    ∀ t, W.live t → p ∉ (k.tally A).tables t

theorem freeFrame_spare (p : PhysAddr) :
    Triple (Spare A W (p :: todo)) (freeFrame A p) (fun _ => Spare A W todo)
      Panics := by
  refine .intro fun k ⟨hG, hnd, hall⟩ => ?_
  rw [freeFrame_eq]
  cases hfr : A.free k.frames p with
  | none => exact .error (panicked_assertion rfl)
  | some fr =>
    obtain ⟨hp, hnd⟩ := nodup_cons.mp hnd
    obtain ⟨hunused, hnot⟩ := hall p mem_cons_self
    refine .ok ⟨⟨guarded_freeTable hG.1 hunused hnot fun q hq => (A.free_iff hfr q).mp hq, hG.2⟩,
      hnd, fun q hq => ?_⟩
    obtain ⟨hq', hnot'⟩ := hall q (mem_cons_of_mem _ hq)
    refine ⟨fun hu => hq' ?_, hnot'⟩
    rcases hu with hf | hu
    · rcases (A.free_iff hfr q).mp hf with hf | rfl
      · exact .inl hf
      · exact absurd hq hp
    · exact .inr hu

/-- The page tables are freed one by one. -/
theorem freeTables_spare (ts : List ((Nat × Nat) × PhysAddr)) :
    Triple (Spare A W (ts.map Prod.snd ++ todo)) (freeTables A ts) (fun _ => Spare A W todo)
      Panics := by
  induction ts with
  | nil => exact .skip
  | cons t ts ih => exact .bind (freeFrame_spare t.2) fun _ => ih

theorem spare_tables (h : Guard A W [] k) (hs : W.live s) :
    Spare A { W with live := fun t => W.live t ∧ t ≠ s } (k.spaces s).tableFrames k :=
  ⟨⟨guarded_live h.1 fun _ ht => ht.1, h.2⟩, h.1.tables_nodup s hs, fun p hp =>
    ⟨h.1.tables_unused s hs p hp, fun t ht => h.1.tables_apart s t hs ht.1 (Ne.symm ht.2) p hp⟩⟩

/-- What is left of a space without tables is nothing. -/
theorem own_blank (h : Guard A W [] k) (hl : ¬ W.live s)
    (hex : ∀ t i, W.exempt t i → t = s) (hreg : ∀ t, t ≠ s → W.regs t = W.real t) :
    Own A W.live (k.setSpace s {}) := by
  have hne : ∀ t, t ≠ s → (k.setSpace s {}).spaces t = k.spaces t := fun t ht =>
    setSpace_ne k _ ht
  have hblank : Guarded W.live (fun t => ((k.setSpace s {}).spaces t).regions) W.exempt []
      ((k.tally A).blank s [0]) :=
    guarded_blank [0] h.1 hl (fun t ht => by rw [hne t ht, hreg t ht]; exact h.2.1 t) fun r hr => by
      rw [setSpace_self] at hr
      cases hr
  unfold Own
  rw [tally_blank k s rfl]
  refine guarded_regions hblank (fun t i hi _ => ?_) hblank.named
  by_cases ht : t = s
  · have he : ((k.tally A).blank s [0]).pt t = fun _ => {} := by
      rw [ht]
      exact update_self s _ (k.tally A).pt
    rw [show ({} : AddressSpace).tableFrames = [0] from rfl, he]
    exact ⟨fun h => (by cases h), fun _ h => (by cases h)⟩
  · exact hblank.page t i hi fun hD => ht (hex t i hD)

theorem releaseRegions_pml4 {p : PhysAddr} (rs : List Region) :
    Keeps (fun k => (k.spaces s).pml4 = p) (releaseRegions A s rs) := by
  induction rs with
  | nil => exact Keeping.pure _
  | cons r rs ih =>
    refine .bind (keeps_releasePages .self (fun _ _ => id) (fun _ _ _ _ h => h)
      (fun k _ _ h _ => (setPte_congr (·.pml4) (fun _ _ => rfl) k s _ s _).trans h) fun _ _ => id) fun _ => Keeping.bind ih fun _ => .pure _

/-- After a space is dropped, ownership holds for the others. -/
theorem dropSpace_own (hs : W.live s) (hex : ∀ t i, ¬ W.exempt t i)
    (hreg : ∀ t, t ≠ s → W.regs t = W.real t) (hsound : ∀ r ∈ W.real s, r.Sound) :
    Triple (Guard A W []) (dropSpace A s) (fun _ => Own A fun t => W.live t ∧ t ≠ s)
      Panics := by
  -- while the pages go, every page of the space is exempt
  let W' : Watch := { W with real := update W.real s [], exempt := fun t _ => t = s }
  let I : PhysAddr → Kernel φ → Prop := fun p k => Guard A W' [] k ∧ (k.spaces s).pml4 = p
  have hspace : Triple (Guard A W []) (space s) (fun sp k => (Guard A W [] k ∧
      (k.spaces s).pml4 = sp.pml4) ∧ sp.regions = W.real s) Panics :=
    .total fun k hk => ⟨_, k, rfl, ⟨hk, rfl⟩, hk.2.1 s⟩
  refine .bind hspace fun sp => .fact fun hsp => ?_
  have hclear : Triple (fun k => Guard A W [] k ∧ (k.spaces s).pml4 = sp.pml4) (setRegions s [])
      (fun _ => I sp.pml4) Panics := by
    refine .modify fun k hk => ?_
    have htally : (k.setRegions s []).tally A = k.tally A := tally_setRegions k s []
    have hreal : ∀ t, ((k.setRegions s []).spaces t).regions = update W.real s [] t := by
      intro t
      by_cases ht : t = s
      · rw [ht, setRegions_regions, update_self]
      · rw [Kernel.setRegions, setSpace_ne k _ ht, hk.1.2.1 t, update_of_ne ht]
    have hG : Guard A W' [] (k.setRegions s []) := by
      refine ⟨?_, hreal, hk.1.2.2⟩
      rw [htally]
      exact guarded_regions hk.1.1 (fun t i hi _ => hk.1.1.page t i hi (hex t i)) hk.1.1.named
    refine ⟨hG, ?_⟩
    rw [setSpace_self]
    exact hk.2
  have hkeep : ∀ {α : Type} {x : KM φ α}, Keeping (Guard A W' []) x
      Panics → Keeps (fun k => (k.spaces s).pml4 = sp.pml4) x →
      Keeping (I sp.pml4) x Panics := fun h1 h2 =>
    .stop (.and h1 h2) fun _ _ h => h.1
  have hreap : ∀ t r, r ∈ W'.regs t → r ∈ W'.real t ∨ ∀ i, W'.exempt t i := fun t r hr => by
    by_cases ht : t = s
    · exact .inr fun _ => ht
    refine Or.inl ?_
    show r ∈ update W.real s [] t
    rw [update_of_ne ht, ← hreg t ht]
    exact hr
  refine .bind hclear fun _ => .bind (hkeep (releaseRegions_guard _ ?_)
    (releaseRegions_pml4 _)) fun fs => ?_
  · rw [hsp]
    exact hsound
  refine .bind (hkeep (reapShared_guard hreap _) (keeps_reapShared .self (fun _ _ => id)
    (fun _ _ _ _ h => h) (fun _ _ => id) _)) fun _ => ?_
  refine .bind (hkeep (unchargePages_guard fs.1) (keeps_unchargePages (fun _ _ _ _ => id)
    (fun k n h => by rw [setSpace_self]; exact h) _)) fun _ => ?_
  refine .bind (hkeep (unchargeSwap_guard fs.2) (keeps_unchargeSwap (fun _ _ _ _ => id) _))
    fun _ => ?_
  let W'' : Watch := { W' with live := fun t => W.live t ∧ t ≠ s }
  refine .bind (R := fun sp' => Spare A W'' (sp'.tables.map Prod.snd ++ [sp.pml4]))
    (.total fun k hk => ⟨_, k, rfl, ?_⟩) fun sp' => ?_
  · have h := spare_tables hk.1 hs
    unfold AddressSpace.tableFrames at h
    rw [hk.2] at h
    exact h
  refine .bind (freeTables_spare _) fun _ => .bind (freeFrame_spare _) fun _ => ?_
  refine .modify fun k hk => own_blank hk.1 (fun h => h.2 rfl) (fun t i h => h) fun t ht => ?_
  show W.regs t = update W.real s [] t
  rw [update_of_ne ht]
  exact hreg t ht

instance : Std.Symm Region.Apart := ⟨fun _ _ h => h.symm⟩

/-- Regions that are apart cover a page once. -/
theorem covers_unique {rs : List Region} {r q : Region} {i : Nat} (h : rs.Pairwise Region.Apart)
    (hr : r ∈ rs) (hq : q ∈ rs) (hri : r.Covers i) (hqi : q.Covers i) : r = q := by
  by_contra hne
  have ha := h.forall hr hq hne
  unfold Region.Covers at hri hqi
  unfold Region.Apart at ha
  omega

/-- The entry both sides of a fork get. -/
def Pte.forked (e : Pte) (r : Region) : Pte :=
  if r.shared.isNone && e.writable then { e with writable := false, cow := true } else e

/-- A forked entry maps the same frame, writable only if it is shared. -/
theorem forked_eq (e : Pte) (r : Region) : (e.forked r).present = e.present ∧
    (e.forked r).addr = e.addr ∧ ((e.forked r).writable = true → r.shared.isNone = false) ∧
    ((e.forked r).writable = true → e.writable = true) ∧
    ((e.forked r).cow = true → e.cow = true ∨ r.shared = none) := by
  unfold Pte.forked
  split
  · rename_i h
    rw [Bool.and_eq_true, Option.isNone_iff_eq_none] at h
    exact ⟨rfl, rfl, fun h' => (by cases h'), fun h' => (by cases h'), fun _ => .inr h.1⟩
  · rename_i h
    refine ⟨rfl, rfl, fun hw => ?_, id, Or.inl⟩
    rw [hw, Bool.and_true] at h
    exact Bool.eq_false_iff.mpr h

section

variable {child : Nat} {r : Region}
variable {i n va : Nat}

/-- The child's entry for a page the parent maps without the right to write, or
as a page of an object. -/
theorem guard_forked {e : Pte} (hap : (W.regs s).Pairwise Region.Apart)
    (hr : r ∈ W.regs s) (hcov : r.Covers i) (hi : i < kernelHalf) (hcr : W.regs child = W.regs s)
    (hc : child < W.count) (hex : ∀ t j, ¬ W.exempt t j) (hp : e.present = true)
    (hw : e.writable = true → r.shared.isNone = false) (h : Guard A W [e.addr] k)
    (he : (k.tally A).pt s i = e) : Guard A W [] (k.setPte child i e) := by
  have hmap : (k.tally A).Maps s i e.addr := ⟨hi, by rw [he]; exact hp, by rw [he]⟩
  obtain ⟨r', hr', hcov', hok⟩ := (h.1.page s i hi (hex s i)).1 (by rw [he]; exact hp)
  rw [he, covers_unique hap hr' hr hcov' hcov] at hok
  refine guard_setPte hi h (count_install e _ _) (fun _ => ⟨fun _ => ⟨r, ?_, hcov, ?_⟩, fun hn => ?_⟩)
    (fun _ => .inr fun t j hm _ hwt => ?_) fun _ => hc
  · rw [hcr]
    exact hr
  · cases hsh : r.shared with
    | none =>
      rw [hsh] at hok hw
      exact ⟨hok.1, fun hwe => absurd (hw hwe) (by decide)⟩
    | some o =>
      rw [hsh] at hok
      exact hok
  · rw [hp] at hn
    cases hn
  · -- a private page that may write is the only one, but the parent's cannot write
    obtain ⟨q, hq, hqj, hokq⟩ := (h.1.page t j hm.1 (hex t j)).1 hm.2.1
    unfold EntryOk at hokq
    rw [hm.2.2] at hokq
    cases hsh : q.shared with
    | none =>
      rw [hsh] at hokq
      obtain ⟨rfl, rfl⟩ := hokq.2 hwt s i hmap
      rw [he] at hwt
      have hne := hw hwt
      rw [← covers_unique hap hq hr hqj hcov, hsh] at hne
      cases hne
    | some o =>
      rw [hsh] at hokq
      obtain ⟨key, hkey⟩ := hokq.1
      exact ⟨o, key, hkey⟩

/-- Every page of a placed region is covered by it and a user page. -/
theorem placed_pages (hr : r.Placed) : ∀ j < pagesIn r.start r.end,
    r.Covers (pageIndex (r.start + j * pageSize)) ∧
      pageIndex (r.start + j * pageSize) < kernelHalf := by
  intro j hj
  have hend := page_lt_end hj
  have hlt := lt_of_lt_of_le hend hr.high
  refine ⟨covers_page ?_ hlt ⟨Nat.le_add_right _ _, hend⟩, pageIndex_lt hlt⟩
  rw [Nat.add_mul_mod_self_right]
  exact hr.start_mod

variable (ht : ∀ r ∈ W.real s, r.end ≤ userEnd) (hcr : W.regs child = W.regs s) (hs : s < W.count)
  (hc : child < W.count) (hex : ∀ t j, ¬ W.exempt t j)
include ht hcr hs hc hex

theorem forkPage_guard (hap : (W.regs s).Pairwise Region.Apart) (hr : r ∈ W.regs s)
    (hcov : r.Covers (pageIndex va)) (hi : pageIndex va < kernelHalf) :
    Keeping (Guard A W []) (forkPage A s child va r) (Stops A W []) := by
  have hshare : Keeping (Guard A W []) (do
      let e ← leafEntry s va
      if e.present then
        setLeafEntry s va (e.forked r)
        pageGet e.addr
        map4k A child va e.addr (e.forked r)) (Stops A W []) := by
    refine Triple.bind (triple_leafEntry s va) fun e => .ite (fun hp => ?_) fun _ =>
      Triple.pure fun _ h => h.1
    obtain ⟨hp', ha', hns, hw', hcow'⟩ := forked_eq e r
    generalize e.forked r = e' at hp' ha' hns hw' hcow'
    rw [hp] at hp'
    have hset : Triple (fun k => Guard A W [] k ∧ k.pte s (pageIndex va) = e) (setLeafEntry s va e')
        (fun _ k => (Guard A W [] k ∧ ∃ h, (k.tally A).Holds e.addr h) ∧
          (k.tally A).pt s (pageIndex va) = e') (Stops A W []) := by
      refine Triple.modify fun k ⟨hG, he⟩ => ?_
      have hpt : ((k.setPte s (pageIndex va) e').tally A).pt s (pageIndex va) = e' := by
        rw [tally_setPte k s e' hi, setPt_pt_same]
      refine ⟨⟨guard_rewrite hi hG (by rw [he]; exact hp) hp' (by rw [he]; exact ha')
        (fun hw => .inl (by rw [he]; exact hw' hw)) fun hc => ?_,
        .page s (pageIndex va), hi, by rw [hpt]; exact hp', by rw [hpt]; exact ha'⟩, hpt⟩
      rw [he]
      refine (hcow' hc).imp id fun hnone q hq hqc => ?_
      rw [covers_unique hap hq hr hqc hcov]
      exact hnone
    have hget : Keeps (fun k => (k.tally A).pt s (pageIndex va) = e') (pageGet e.addr) :=
      keeps_pageGet .self (fun _ _ => id) _
    refine Triple.bind hset fun _ => .bind (.mono (.and (pageGet_guard _) hget)
      (fun _ => id) (fun _ _ h => (⟨h.1.1, h.2⟩ : _ ∧ _)) fun _ _ h => .inl h.1) fun _ => ?_
    refine map4k_guard (C := fun T => T.pt s (pageIndex va) = e') (fun _ _ _ => id)
      fun k hG hpt => ?_
    have heq : ({ e' with addr := e.addr, present := true } : Pte) = e' := by
      rw [← ha', ← hp']
    rw [heq]
    rw [← ha'] at hG
    exact guard_forked hap hr hcov hi hcr hc hex hp' hns hG hpt
  refine Triple.bind (triple_leafEntry s va) fun e => .ite (fun hsw => ?_) fun _ =>
    Triple.pre hshare (fun _ h => h.1)
  refine Triple.bind ?_ fun _ => hshare
  rw [Bool.and_eq_true, Bool.not_eq_true'] at hsw
  have hpriv : ∀ k : Kernel φ, Guard A W [] k ∧ k.pte s (pageIndex va) = e →
      PrivateAt W s (pageIndex va) := fun k hk _ => by
    have hok := (hk.1.1.page s _ hi (hex s _)).2
    rw [tally_pt k s hi, hk.2] at hok
    exact hok hsw.1 hsw.2
  exact triple_ignoreErr .panicked (Triple.intro fun k hk =>
    (swapIn_guard ht e r hi hs (hpriv k hk)).ends hk.1)

theorem forkPages_guard (hap : (W.regs s).Pairwise Region.Apart) (hr : r ∈ W.regs s)
    (hpages : ∀ j < n, r.Covers (pageIndex (va + j * pageSize)) ∧
      pageIndex (va + j * pageSize) < kernelHalf) :
    Keeping (Guard A W []) (forkPages A s child va r n) (Stops A W []) := by
  induction n generalizing va with
  | zero => exact .skip
  | succ n ih =>
    obtain ⟨h0, hrest⟩ := pages_succ (Q := fun va => r.Covers (pageIndex va) ∧ pageIndex va < kernelHalf)
      hpages
    exact .bind (forkPage_guard ht hcr hs hc hex hap hr h0.1 h0.2) fun _ => ih hrest

theorem forkRegions_guard (rs : List Region) (hsub : ∀ r ∈ rs, r ∈ W.regs s)
    (hw : WellPlaced (W.regs s)) :
    Keeping (Guard A W []) (forkRegions A s child rs) (Stops A W []) := by
  induction rs with
  | nil => exact .skip
  | cons r rs ih =>
    have hr := hsub r mem_cons_self
    exact .bind (forkPages_guard ht hcr hs hc hex hw.apart hr (placed_pages (hw.placed r hr)))
      fun _ => ih fun q hq => hsub q (mem_cons_of_mem _ hq)

end

theorem placement_forkPage (hP : PlacementOnly P) (child va : Nat) (r : Region) :
    Keeps P (forkPage A s child va r) := by
  have hshare : Keeps P (do
      let e ← leafEntry s va
      if e.present then
        setLeafEntry s va (e.forked r)
        pageGet e.addr
        map4k A child va e.addr (e.forked r)) :=
    Keeping.bind (keeps_leafEntry s va) fun e => .ite (fun _ =>
      Keeping.bind (placement_setLeafEntry hP _ _ _) fun _ => .bind (unseen_pageGet (hP.unseen s) _)
        fun _ => unseen_map4k (hP.unseen child) _ _ _) fun _ => Keeping.pure _
  exact Keeping.bind (keeps_leafEntry s va) fun e => .ite (fun _ =>
    Keeping.bind (keeps_ignoreErr (unseen_swapIn (hP.unseen s) _ _ _)) fun _ => hshare) fun _ => hshare

theorem placement_forkPages (hP : PlacementOnly P) (child va n : Nat)
    (r : Region) : Keeps P (forkPages A s child va r n) := by
  induction n generalizing va with
  | zero => exact Keeping.pure _
  | succ n ih => exact .bind (placement_forkPage hP _ _ _) fun _ => ih _

theorem placement_forkRegions (hP : PlacementOnly P) (child : Nat)
    (rs : List Region) : Keeps P (forkRegions A s child rs) := by
  induction rs with
  | nil => exact Keeping.pure _
  | cons r rs ih => exact .bind (placement_forkPages hP _ _ _ _) fun _ => ih

end Fastros.Mm
