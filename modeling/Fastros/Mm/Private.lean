import Fastros.Mm.Isolation

/-!
# The calls of a process keep the ownership

Between calls every page is justified by the regions its space has. The calls
that edit regions first: what a region covered is covered by a region of the
same kind, or is about to be unmapped.
-/

namespace Fastros.Mm

open Lib.Stateful List Watch

variable {φ : Type} {A : FrameAllocator φ} {live : Nat → Prop} {s : Nat} {k : Kernel φ}

/-- The ownership between two calls. -/
def Own (A : FrameAllocator φ) (live : Nat → Prop) (k : Kernel φ) : Prop :=
  Guarded live (fun t => (k.spaces t).regions) (fun _ _ => False) [] (k.tally A)

/-- A call stops the machine, or leaves the ownership intact. -/
def OwnStops (A : FrameAllocator φ) (live : Nat → Prop) (e : Stop) (k : Kernel φ) : Prop :=
  Panicked e ∨ Own A live k

/-- The watch on a state between two calls. -/
def Watch.now (live : Nat → Prop) (k : Kernel φ) : Watch where
  live := live
  regs := fun t => (k.spaces t).regions
  real := fun t => (k.spaces t).regions
  exempt := fun _ _ => False
  count := k.nspaces

theorem own_guard (h : Own A live k) : Guard A (now live k) [] k := ⟨h, fun _ => rfl, rfl⟩

theorem guard_own {k' : Kernel φ} (h : Guard A (now live k) [] k') : Own A live k' := by
  have hr : (fun t => (k'.spaces t).regions) = (now live k).regs := funext h.2.1
  unfold Own
  rw [hr]
  exact h.1

variable {P Q : Kernel φ → Prop} {i' j new obj page t : Nat} {p r' : Region}

/-- What keeps the watch keeps the ownership. -/
theorem own_of_guard {α : Type} {x : KM φ α}
    (h : ∀ k0, P k0 → Own A live k0 → Keeping (Guard A (now live k0) []) x
      (Stops A (now live k0) [])) : Ensures (fun k => Own A live k ∧ P k) x (Own A live) := by
  refine .intro fun k hk => ?_
  exact (Triple.mono (h k hk.2 hk.1) (fun _ => id) (fun _ _ => guard_own)
    fun _ _ h => h.imp id guard_own).ends (own_guard hk.1)

theorem tally_setRegions (k : Kernel φ) (s : Nat) (rs : List Region) :
    (k.setRegions s rs).tally A = k.tally A := tally_setSpace k s rfl rfl

/-- Ownership holds for new regions that cover what the old ones covered. -/
theorem own_setRegions {rs : List Region} (h : Own A live k)
    (hc : ∀ r ∈ (k.spaces s).regions, ∀ i, r.Covers i → ∃ r' ∈ rs, r'.Covers i ∧ r'.shared = r.shared)
    (hn : ∀ r ∈ rs, ∀ o, r.shared = some o → o < k.nobjs) : Own A live (k.setRegions s rs) := by
  unfold Own
  rw [tally_setRegions]
  refine guarded_recover h (fun t i _ _ => ⟨id, fun r hr hcov => ?_⟩) fun t r hr o ho => ?_
  · by_cases ht : t = s
    · subst ht
      rw [setRegions_regions]
      exact hc r hr i hcov
    · rw [Kernel.setRegions, setSpace_ne k _ ht]
      exact ⟨r, hr, hcov, rfl⟩
  · by_cases ht : t = s
    · subst ht
      rw [setRegions_regions] at hr
      exact hn r hr o ho
    · rw [Kernel.setRegions, setSpace_ne k _ ht] at hr
      exact h.named t r hr o ho

/-- Changing a space outside its page table and regions. -/
theorem own_setSpace {sp : AddressSpace} (h : Own A live k) (hp : sp.pt = (k.spaces s).pt)
    (ht : sp.tableFrames = (k.spaces s).tableFrames) (hr : sp.regions = (k.spaces s).regions) :
    Own A live (k.setSpace s sp) :=
  guard_own (guard_setSpace (own_guard h) hp ht hr)

variable {r : Region} {start stop i : Nat}

theorem own_push (h : Own A live k) (hn : ∀ o, r.shared = some o → o < k.nobjs) :
    Own A live (k.setRegions s ((k.spaces s).regions ++ [r])) := by
  refine own_setRegions h (fun q hq i hcov => ⟨q, mem_append_left _ hq, hcov, rfl⟩)
    fun q hq o ho => ?_
  rcases mem_append.mp hq with hq | hq
  · exact h.named s q hq o ho
  · rw [mem_singleton.mp hq] at ho
    exact hn o ho

theorem own_widen {l l' : List Region} (h : Own A live k)
    (he : (k.spaces s).regions = l ++ r :: l') (hs : r'.start ≤ r.start) (hend : r.end ≤ r'.end)
    (hsh : r'.shared = r.shared) : Own A live (k.setRegions s (l ++ r' :: l')) := by
  refine own_setRegions h (fun q hq i hi => ?_) fun q hq o ho => ?_
  · rw [he, mem_append, mem_cons] at hq
    rcases hq with hq | rfl | hq
    · exact ⟨q, by simp [hq], hi, rfl⟩
    · exact ⟨r', by simp, ⟨le_trans hs hi.1, lt_of_lt_of_le hi.2 hend⟩, hsh⟩
    · exact ⟨q, by simp [hq], hi, rfl⟩
  · rw [mem_append, mem_cons] at hq
    rcases hq with hq | rfl | hq
    · exact h.named s q (by simp [he, hq]) o ho
    · exact h.named s r (by simp [he]) o (hsh ▸ ho)
    · exact h.named s q (by simp [he, hq]) o ho

theorem triple_states {α : Type} {x : KM φ α} (h : ∀ k, P k → Q (stateOf (x k))) : Ensures P x Q :=
  .of_state h fun _ _ => .inr

theorem pushRegion_own :
    Ensures (fun k => Own A live k ∧ ∀ o, r.shared = some o → o < k.nobjs) (pushRegion s r)
      (Own A live) := by
  have hstate : ∀ k : Kernel φ, (Own A live k ∧ ∀ o, r.shared = some o → o < k.nobjs) →
      Own A live (stateOf (pushRegion s r k)) := by
    intro k hk
    rw [pushRegion_eq]
    split
    · split
      · exact hk.1
      · split
        · exact hk.1
        · exact own_push hk.1 hk.2
    · exact hk.1
  exact triple_states hstate

theorem pushRegion_private (hr : r.shared = none) :
    Keeping (Own A live) (pushRegion s r) (OwnStops A live) :=
  .pre pushRegion_own (fun k h => ⟨h, fun o ho => (by rw [hr] at ho; cases ho)⟩)

theorem own_newShared (h : Own A live k) :
    Own A live { k with nobjs := k.nobjs + 1, objs := Function.update k.objs k.nobjs [] } := by
  have hobjs : Function.update k.objs k.nobjs [] = k.objs := by
    funext o
    by_cases ho : o = k.nobjs
    · subst ho
      rw [Function.update_self]
      exact (h.fresh k.nobjs le_rfl).symm
    · rw [Function.update_of_ne ho]
  rw [hobjs]
  exact { h with fresh := fun o ho => h.fresh o (Nat.le_of_succ_le ho),
                 named := fun t r hr o ho => Nat.lt_succ_of_lt (h.named t r hr o ho),
                 exported := fun o ho => Nat.lt_succ_of_lt (h.exported o ho) }

theorem place_own (start len : Nat) (prot : Prot) (file : Option (Nat × Nat)) (shared : Bool) :
    Keeping (Own A live) (place s start len prot file shared) (OwnStops A live) := by
  have hadd : Keeping (Own A live) (add start len) (OwnStops A live) := by
    exact Triple.ite (fun _ => .skip) fun _ =>
      Triple.throw fun _ _ => .inl fun n h => by cases h
  refine Triple.bind hadd fun e => ?_
  cases file with
  | some f =>
    refine Triple.ite (fun _ => ?_) fun _ => pushRegion_private rfl
    refine Triple.bind (.get (Q := fun k' k => Own A live k ∧ k' = k) fun _ h => ⟨h, rfl⟩)
      fun k' => ?_
    cases hf : (k'.files f.1).sharedMmap with
    | some obj =>
      refine Triple.pre pushRegion_own (fun k h => ⟨h.1, fun o ho => ?_⟩)
      obtain ⟨hO, rfl⟩ := h
      cases ho
      exact hO.exported obj ⟨f.1, hf⟩
    | none =>
      exact Triple.pre (pushRegion_private rfl) (fun _ h => h.1)
  | none =>
    refine Triple.ite (fun _ => ?_) fun _ => pushRegion_private rfl
    refine Triple.bind (R := fun obj k => Own A live k ∧ obj < k.nobjs) ?_ fun obj => ?_
    · refine Triple.total fun k hk => ⟨_, _, rfl, own_newShared hk, Nat.lt_succ_self _⟩
    · refine Triple.pre pushRegion_own (fun k h => ⟨h.1, fun o ho => ?_⟩)
      cases ho
      exact h.2

theorem unmapPieces_shared (h : p ∈ unmapPieces start stop r) : p.shared = r.shared := by
  unfold unmapPieces at h
  split at h
  · rw [mem_singleton.mp h]
  rcases mem_append.mp h with h | h
  · rw [(mem_headPiece.mp h).2]
  · rw [(mem_tailPieces.mp h).2]
    rfl

/-- What is left of a region covers its pages outside the range. -/
theorem unmapPieces_covers (hr : r.Covers i) (ho : i * pageSize < start ∨ stop ≤ i * pageSize) :
    ∃ p ∈ unmapPieces start stop r, p.Covers i := by
  unfold unmapPieces
  obtain ⟨h1, h2⟩ := hr
  split
  · exact ⟨r, mem_singleton.mpr rfl, h1, h2⟩
  · rcases ho with ho | ho
    · exact ⟨_, mem_append_left _ (mem_headPiece.mpr ⟨by omega, rfl⟩), h1, ho⟩
    · exact ⟨_, mem_append_right _ (mem_tailPieces.mpr ⟨by omega, rfl⟩), ho, h2⟩

theorem releaseRange_guard {W : Watch} {pend : List PhysAddr}
    (ha : ∀ t r, r ∈ W.regs t → r ∈ W.real t ∨ ∀ i, W.exempt t i) (start stop : Nat)
    (old : List Region) :
    Triple (fun k => Guard A W pend k ∧ KernelQuiet k s start (pagesIn start stop))
      (releaseRange A s start stop old) (fun _ => Guard A W pend) Panics := by
  have hreap : Keeping (fun k => Guard A W pend k ∧ KernelQuiet k s start (pagesIn start stop))
      (reapShared A (old.filterMap (·.shared))) Panics :=
    .stop (.and (reapShared_guard ha _) (keeps_reapShared .self
      (fun _ _ => id) (fun _ _ _ _ h => h)
      (fun _ _ => id) _)) fun _ _ h => h.1
  refine .bind hreap fun _ => .bind (releasePages_guard start _) fun fs => ?_
  exact .bind (unchargePages_guard fs.1) fun _ => unchargeSwap_guard fs.2

/-- Unmapping keeps ownership where no page is left behind. -/
theorem unmap_own (start len : Nat) :
    Ensures (fun k => Own A live k ∧ UnmapQuiet s start len k) (unmap A s start len)
      (Own A live) := by
  refine triple_unmap fun {k k'} ⟨hO, hq⟩ hr => ?_
  -- while the range is released its pages are exempt
  let k0 := k.setRegions s ((k.spaces s).regions.flatMap
    (unmapPieces (alignDown start) (rangeEnd start len)))
  let W : Watch := { now live k0 with
    exempt := fun t i => t = s ∧ alignDown start ≤ i * pageSize ∧
      i * pageSize < rangeEnd start len }
  have htally : k0.tally A = k.tally A := tally_setRegions k s _
  have hregs : ∀ t, t ≠ s → (k0.spaces t).regions = (k.spaces t).regions := fun t ht => by
    show ((k.setSpace s _).spaces t).regions = _
    rw [setSpace_ne k _ ht]
  have hregs' : (k0.spaces s).regions = (k.spaces s).regions.flatMap
      (unmapPieces (alignDown start) (rangeEnd start len)) := setRegions_regions k s _
  have hW : Guard A W [] k0 := by
    refine ⟨?_, fun _ => rfl, rfl⟩
    rw [htally]
    refine guarded_recover hO (fun t i _ hD => ⟨id, fun r hm hcov => ?_⟩) fun t r hm o ho => ?_
    · by_cases ht : t = s
      · subst ht
        have hout : i * pageSize < alignDown start ∨ rangeEnd start len ≤ i * pageSize := by
          by_contra hin
          exact hD ⟨rfl, by omega, by omega⟩
        obtain ⟨p, hp, hpc⟩ := unmapPieces_covers hcov hout
        refine ⟨p, ?_, hpc, unmapPieces_shared hp⟩
        show p ∈ (k0.spaces t).regions
        rw [hregs']
        exact mem_flatMap.mpr ⟨r, hm, hp⟩
      · refine ⟨r, ?_, hcov, rfl⟩
        show r ∈ (k0.spaces t).regions
        rw [hregs t ht]
        exact hm
    · have hr' : r ∈ (k0.spaces t).regions := hm
      by_cases ht : t = s
      · subst ht
        rw [hregs'] at hr'
        obtain ⟨q, hq, hqr⟩ := mem_flatMap.mp hr'
        rw [unmapPieces_shared hqr] at ho
        exact hO.named t q hq o ho
      · rw [hregs t ht] at hr'
        exact hO.named t r hr' o ho
  have hquiet : KernelQuiet k0 s (alignDown start)
      (pagesIn (alignDown start) (rangeEnd start len)) := fun j hj hh => by
    unfold Absent
    rw [show k0.pte s = k.pte s from funext fun i => setRegions_pte ..]
    exact hq j hj hh
  have hG := (releaseRange_guard (fun t r h => .inl h) _ _ _).ok ⟨hW, hquiet⟩ hr
  have hdead := (releaseRange_dead s _ _ _).ok trivial hr
  have hreal : (fun t => (k'.spaces t).regions) = W.regs := funext hG.2.1
  unfold Own
  rw [hreal]
  refine guarded_regions hG.1 (fun t i hi _ => ?_) hG.1.named
  by_cases hD : W.exempt t i
  · obtain ⟨rfl, h1, h2⟩ := hD
    obtain ⟨j, hj, he⟩ := exists_page (alignDown_mod start) h1 h2
    have hd := hdead j hj
    rw [← he, pageIndex_mul hi] at hd
    unfold Dead Pte.live at hd
    rw [Bool.or_eq_false_iff] at hd
    rw [tally_pt k' t hi]
    exact ⟨fun h => (by rw [hd.1] at h; cases h), fun _ h => (by rw [hd.2] at h; cases h)⟩
  · exact hG.1.page t i hi hD

theorem protectPieces_shared {prot : Prot}
    (h : p ∈ protectPieces start stop prot r) : p.shared = r.shared := by
  rcases mem_protectPieces_iff.mp h with h | ⟨-, rfl⟩
  · exact unmapPieces_shared h
  · rfl

/-- The pieces of a region cover it. -/
theorem protectPieces_covers {prot : Prot} (hr : r.Covers i) :
    ∃ p ∈ protectPieces start stop prot r, p.Covers i := by
  by_cases ho : i * pageSize < start ∨ stop ≤ i * pageSize
  · obtain ⟨p, hp, hc⟩ := unmapPieces_covers hr ho
    exact ⟨p, mem_protectPieces_iff.mpr (.inl hp), hc⟩
  obtain ⟨h1, h2⟩ := hr
  refine ⟨_, mem_protectPieces_iff.mpr (.inr ⟨?_, rfl⟩), ?_, ?_⟩
  · unfold Region.Untouched
    omega
  · show max start r.start ≤ i * pageSize
    omega
  · show i * pageSize < min stop r.end
    omega

/-- Giving the page the right to write leaves nobody else with its frame: it is
copy-on-write, or an object's, or mapped nowhere else. -/
def WriteSafe (A : FrameAllocator φ) (k : Kernel φ) (s i : Nat) : Prop :=
  (k.pte s i).present = true → (k.pte s i).cow = false →
    (k.tally A).InObject (k.pte s i).addr ∨
      ∀ t j, (k.tally A).Maps t j (k.pte s i).addr → t = s ∧ j = i

/-- `protect` grants write access to safe pages only. -/
def ProtectSafely (A : FrameAllocator φ) (s start len : Nat) (prot : Prot) (k : Kernel φ) : Prop :=
  prot.write = true → ∀ j < pagesIn (alignDown start) (rangeEnd start len),
    WriteSafe A k s (pageIndex (alignDown start + j * pageSize))

theorem maps_reflag {f : PhysAddr} (prot : Prot) (hi : i < kernelHalf) :
    ((k.setPte s i ((k.pte s i).reflag prot)).tally A).Maps t j f ↔ (k.tally A).Maps t j f := by
  rw [tally_setPte k s _ hi]
  by_cases h : t = s ∧ j = i
  · obtain ⟨rfl, rfl⟩ := h
    rw [maps_setPt_same]
    unfold Tally.Maps
    rw [tally_pt k t hi]
    rfl
  · exact maps_setPt_ne h

theorem writeSafe_reflag (prot : Prot) (hi : i < kernelHalf) (h : WriteSafe A k s i') :
    WriteSafe A (k.setPte s i ((k.pte s i).reflag prot)) s i' := by
  have hobj : ∀ f, ((k.setPte s i ((k.pte s i).reflag prot)).tally A).InObject f ↔
      (k.tally A).InObject f := fun f => by
    rw [tally_setPte k s _ hi]
    rfl
  have hsame : ((k.setPte s i ((k.pte s i).reflag prot)).pte s i').present = (k.pte s i').present ∧
      ((k.setPte s i ((k.pte s i).reflag prot)).pte s i').cow = (k.pte s i').cow ∧
      ((k.setPte s i ((k.pte s i).reflag prot)).pte s i').addr = (k.pte s i').addr := by
    by_cases he : i' = i
    · subst he
      rw [setPte_self]
      exact ⟨rfl, rfl, rfl⟩
    · rw [setPte_ne k _ he]
      exact ⟨rfl, rfl, rfl⟩
  unfold WriteSafe
  rw [hsame.1, hsame.2.1, hsame.2.2]
  intro hp hc
  refine (h hp hc).imp (hobj _).mpr fun hall t j hm => hall t j ((maps_reflag prot hi).mp hm)

theorem protectPages_own (prot : Prot) (n : Nat) : ∀ (va : Nat) (k : Kernel φ), Own A live k →
    (∀ j < n, pageIndex (va + j * pageSize) < kernelHalf) →
    (prot.write = true → ∀ j < n, WriteSafe A k s (pageIndex (va + j * pageSize))) →
    Own A live (stateOf (protectPages s va prot n k)) := by
  induction n with
  | zero => exact fun _ _ h _ _ => h
  | succ n ih =>
    intro va k hO hu hw
    obtain ⟨hu0, hus⟩ := pages_succ (Q := fun va => pageIndex va < kernelHalf) hu
    have hrest : ∀ k' : Kernel φ, Own A live k' →
        (prot.write = true → ∀ j < n + 1, WriteSafe A k' s (pageIndex (va + j * pageSize))) →
        Own A live (stateOf (protectPages s (va + pageSize) prot n k')) := fun k' hO' hw' =>
      ih _ k' hO' hus fun hp => (pages_succ (Q := fun va => WriteSafe A k' s (pageIndex va)) (hw' hp)).2
    rw [protectPages_succ]
    split
    · rename_i hp
      refine hrest _ (guard_own (guard_rewrite hu0 (own_guard hO) hp hp rfl (fun h => .inr ?_)
        fun h => .inl h)) fun hpw j hj => writeSafe_reflag prot hu0 (hw hpw j hj)
      obtain ⟨hpw, hc⟩ := Bool.and_eq_true_iff.mp h
      have hs := hw hpw 0 (Nat.succ_pos n)
      exact hs hp (by simpa using hc)
    · exact hrest k hO hw

/-- The regions end in user space. -/
def Tidy (s : Nat) (k : Kernel φ) : Prop := ∀ r ∈ (k.spaces s).regions, r.end ≤ userEnd

/-- `protect` keeps ownership if it makes no shared page writable. -/
theorem protect_own (start len : Nat) (prot : Prot) :
    Ensures (fun k => Own A live k ∧ Tidy s k ∧ ProtectSafely A s start len prot k)
      (protect s start len prot) (Own A live) := by
  refine triple_states fun k ⟨hO, ht, hsafe⟩ => ?_
  rw [protect_eq]
  split
  · split
    · rename_i hany
      split
      · obtain ⟨r, hr, hin⟩ := any_eq_true.mp hany
        have hin := of_decide_eq_true hin
        have hO' : Own A live (k.setRegions s ((k.spaces s).regions.flatMap
            (protectPieces (alignDown start) (rangeEnd start len) prot))) := by
          refine own_setRegions hO (fun r hr i hcov => ?_) fun p hp o ho => ?_
          · obtain ⟨p, hp, hpc⟩ := protectPieces_covers hcov
            exact ⟨p, mem_flatMap.mpr ⟨r, hr, hp⟩, hpc, protectPieces_shared hp⟩
          · obtain ⟨r, hr, hpr⟩ := mem_flatMap.mp hp
            rw [protectPieces_shared hpr] at ho
            exact hO.named s r hr o ho
        refine protectPages_own prot _ _ _ hO' (fun j hj => pageIndex_lt ?_) fun hp j hj => ?_
        · exact lt_of_lt_of_le (page_lt_end hj) (le_trans hin.2 (ht r hr))
        have h := hsafe hp j hj
        unfold WriteSafe at h ⊢
        rw [setRegions_pte, tally_setRegions]
        exact h
      · exact hO
    · exact hO
  · exact hO

theorem covers_page (hm : page % pageSize = 0) (hlt : page < userEnd)
    (h : r.start ≤ page ∧ page < r.end) : r.Covers (pageIndex page) := by
  unfold Region.Covers
  rw [page_mul hm hlt]
  exact h

/-- A fault is served in a region of the space that covers the page. -/
theorem ensurePage_own (write : Bool) (hm : page % pageSize = 0) (hlt : page < userEnd)
    (r : Region) :
    Ensures (fun k => Own A live k ∧ s < k.nspaces ∧ Tidy s k ∧ r ∈ (k.spaces s).regions ∧
        r.start ≤ page ∧ page < r.end) (ensurePage A s page r write) (Own A live) :=
  own_of_guard fun k0 h _ => ensurePage_guard (W := now live k0) h.2.1 (pageIndex_lt hlt) h.1
    h.2.2.1 (covers_page hm hlt h.2.2.2)

theorem tryGrowStack_own :
    Triple (fun k => Own A live k ∧ s < k.nspaces ∧ Tidy s k ∧
        ∀ r ∈ (k.spaces s).regions, r.start < r.end) (tryGrowStack s page)
      (fun o k => Own A live k ∧ s < k.nspaces ∧ Tidy s k ∧ ∀ r, o = some r →
        r ∈ (k.spaces s).regions ∧ r.start ≤ page ∧ page < r.end) (OwnStops A live) := by
  refine .total fun k ⟨hO, hs, ht, hne⟩ => ?_
  rcases tryGrowStack_cases s page k with h | ⟨l, r, l', he, hbelow, -, h⟩
  · exact ⟨none, k, h, hO, hs, ht, fun r h => by cases h⟩
  have hmem : r ∈ (k.spaces s).regions := by simp [he]
  refine ⟨_, _, h, own_widen hO he (le_of_lt hbelow) le_rfl rfl, hs, fun q hq => ?_, fun q hq => ?_⟩
  · rw [setRegions_regions, mem_append, mem_cons] at hq
    rcases hq with hq | rfl | hq
    · exact ht q (by simp [he, hq])
    · exact ht r hmem
    · exact ht q (by simp [he, hq])
  · cases hq
    rw [setRegions_regions]
    exact ⟨by simp, le_rfl, lt_trans hbelow (hne r hmem)⟩

theorem handleFault_own (addr : Nat) (write exec : Bool) :
    Ensures (fun k => Own A live k ∧ s < k.nspaces ∧ Tidy s k ∧
        ∀ r ∈ (k.spaces s).regions, r.start < r.end)
      (handleFault A s addr write exec) (Own A live) := by
  refine triple_handleFault
    .panicked exec (fun _ h => h.1) (fun _ _ h => h.1) (fun _ k r hk hr => ?_)
    (fun _ _ => tryGrowStack_own) fun hlt r => .pre
      (ensurePage_own write (alignDown_mod addr) hlt r)
      fun _ h => ⟨h.1, h.2.1, h.2.2.1, h.2.2.2 r rfl⟩
  refine ⟨hk.1, hk.2.1, hk.2.2.1, fun q hq => ?_⟩
  cases hq
  exact ⟨mem_of_find?_eq_some hr, findRegion_contains hr⟩

theorem mmap_own (hint len : Nat) (prot : Prot) (fixed : Bool) (file : Option (Nat × Nat))
    (shared : Bool) :
    Ensures (fun k => Own A live k ∧
        (fixed = true → UnmapQuiet s (alignDown hint) (wholePages len) k))
      (mmap A s hint len prot fixed file shared) (Own A live) := by
  exact triple_mmap (C := fun _ => True) .panicked (fun _ h => h.1)
    (fun hf => .pre (unmap_own _ _) fun _ h => ⟨h.1, h.2 hf⟩)
    (fun _ _ => place_own _ _ _ _ _) (fun _ _ _ => trivial)
    fun _ _ _ h => own_setSpace h rfl rfl rfl

theorem attachAt_own (start len : Nat) (prot : Prot) (hO : Own A live k)
    (ho : obj < k.nobjs) : Own A live (stateOf (attachAt s start len prot obj k)) := by
  rw [attachAt_eq]
  split
  · split
    · exact hO
    · exact own_push hO fun o h => by cases h; exact ho
  · exact hO

theorem attachShared_own (hint len : Nat) (prot : Prot) (obj : Nat) :
    Ensures (fun k => Own A live k ∧ obj < k.nobjs) (attachShared s hint len prot obj)
      (Own A live) :=
  triple_attachShared (fun _ _ h => .inr h.1) (fun _ _ h => .inr h) (fun _ _ _ _ => trivial)
    (fun _ _ hk _ => ⟨⟨own_setSpace hk.1 rfl rfl rfl, hk.2⟩, trivial⟩)
    fun start n _ _ hk => attachAt_own start n prot hk.1 hk.2

theorem setBrkBase_own (base : Nat) : Keeping (Own A live) (setBrkBase s base) (OwnStops A live) :=
  .stop (.bind (keeps_alignUp _) fun _ => keeps_modifySpace fun _ h =>
    own_setSpace h rfl rfl rfl) fun _ _ => .inr

/-- The heap region extended to `new` covers at least what it covered. -/
theorem heap_own {p : Region → Bool} (hO : Own A live k)
    (hh : (k.spaces s).regions.any p = true) (hp : ∀ r, p r = true → r.end ≤ new) :
    Own A live (k.setRegions s (updateFirst p (fun r => { r with «end» := new })
      (k.spaces s).regions)) := by
  obtain ⟨l, r, l', he, hr, hu⟩ := updateFirst_split (fun r => { r with «end» := new }) hh
  rw [hu]
  exact own_widen hO he le_rfl (hp r hr) rfl

theorem brk_own (addr : Nat) :
    Ensures (fun k => Own A live k ∧
        UnmapQuiet s (rangeEnd addr 0) ((k.spaces s).brk - rangeEnd addr 0) k)
      (brk A s addr) (Own A live) := by
  exact triple_brk .panicked (fun _ h => h.1)
    (fun len => .pre (unmap_own _ _) fun _ h => ⟨h.1.1, h.2 ▸ h.1.2⟩) (fun _ h => own_setSpace h rfl rfl rfl)
    (fun k hk hlt hany => heap_own hk.1 hany (isHeap_end hlt))
    fun k hk _ _ => own_push hk.1 fun o h => by cases h

/-- What a call needs of the kernel it meets to leave everybody's frames alone. -/
def Call.Isolates (A : FrameAllocator φ) (s : Nat) (k : Kernel φ) : Call → Prop
  | .mmap hint len _ fixed _ _ => fixed = true → UnmapQuiet s (alignDown hint) (wholePages len) k
  | .attachShared _ _ _ obj => obj < k.nobjs
  | .unmap start len => UnmapQuiet s start len k
  | .protect start len prot => ProtectSafely A s start len prot k
  | .brk addr => UnmapQuiet s (rangeEnd addr 0) ((k.spaces s).brk - rangeEnd addr 0) k
  | _ => True

/-- Every call that isolates keeps ownership. -/
theorem call_own (c : Call) :
    Ensures (fun k => Own A live k ∧ s < k.nspaces ∧ Arranged (k.spaces s) ∧ c.Isolates A s k)
      (c.run A s) (Own A live) := by
  have htidy : ∀ k : Kernel φ, Arranged (k.spaces s) → Tidy s k := fun _ h r hr =>
    (h.regions.placed r hr).high
  have hfree : ∀ {x : KM φ Unit} {P : Kernel φ → Prop},
      Keeping (Own A live) x (OwnStops A live) →
      Ensures (fun k => Own A live k ∧ P k) x (Own A live) := fun h =>
    .pre h (fun _ h => h.1)
  cases c with
  | mapRegion | mapSegment => exact hfree (pushRegion_private rfl)
  | setBrkBase base => exact hfree (setBrkBase_own base)
  | mmap hint len prot fixed file shared =>
    exact triple_effect (.pre (mmap_own _ _ _ _ _ _) (fun _ h => ⟨h.1, h.2.2.2⟩))
  | attachShared hint len prot obj =>
    exact triple_effect (.pre (attachShared_own _ _ _ _) (fun _ h => ⟨h.1, h.2.2.2⟩))
  | unmap start len =>
    exact .pre (unmap_own start len) (fun _ h => ⟨h.1, h.2.2.2⟩)
  | protect start len prot =>
    exact .pre (protect_own start len prot) (fun k h => ⟨h.1, htidy k h.2.2.1, h.2.2.2⟩)
  | brk addr =>
    exact triple_effect (.pre (brk_own addr) (fun _ h => ⟨h.1, h.2.2.2⟩))
  | fault addr write exec =>
    exact triple_effect (.pre (handleFault_own addr write exec)
      (fun k h => ⟨h.1, h.2.1, htidy k h.2.2.1, fun r hr =>
        (h.2.2.1.regions.placed r hr).nonempty⟩))

end Fastros.Mm
