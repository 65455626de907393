import Fastros.Mm.Backing

/-!
# Where the regions of a space lie

The regions of an address space should be page-aligned, non-empty, inside the
user range and pairwise apart. Cutting regions, pushing a checked one and
growing a stack keep them so.
-/

namespace Fastros.Mm

open Lib.Stateful
open List hiding get set modify

variable {φ : Type} {A : FrameAllocator φ} {s : Nat}

/-- Aligned, non-empty and inside user space. -/
structure Region.Placed (r : Region) : Prop where
  low : userStart ≤ r.start
  nonempty : r.start < r.end
  high : r.end ≤ userEnd
  start_mod : r.start % pageSize = 0
  end_mod : r.end % pageSize = 0

def Region.Apart (r q : Region) : Prop := r.end ≤ q.start ∨ q.end ≤ r.start

structure WellPlaced (rs : List Region) : Prop where
  placed : ∀ r ∈ rs, r.Placed
  apart : rs.Pairwise Region.Apart

/-- A space whose regions are well placed and whose cursors stay where `mmap`
and `brk` put them. -/
structure Arranged (sp : AddressSpace) : Prop where
  regions : WellPlaced sp.regions
  top : sp.mmapTop ≤ userMmapTop
  base : sp.brkBase ≤ sp.brk
  brk_mod : sp.brk % pageSize = 0
  base_mod : sp.brkBase % pageSize = 0

variable {r : Region} {rs : List Region} {start stop : Nat}
variable {p q r' : Region}

theorem Region.Apart.symm (h : r.Apart q) : q.Apart r := Or.symm h

theorem overlaps_eq_false :
    overlaps rs start stop = false ↔ ∀ r ∈ rs, r.end ≤ start ∨ stop ≤ r.start := by
  unfold overlaps
  rw [any_eq_false]
  refine forall_congr' fun r => forall_congr' fun _ => ?_
  rw [decide_eq_true_iff]
  omega

theorem wellPlaced_append (h : WellPlaced rs) (hr : r.Placed)
    (ho : overlaps rs r.start r.end = false) : WellPlaced (rs ++ [r]) := by
  rw [overlaps_eq_false] at ho
  constructor
  · intro q hq
    rcases mem_append.mp hq with hq | hq
    · exact h.placed q hq
    · rw [mem_singleton.mp hq]
      exact hr
  · rw [pairwise_append]
    refine ⟨h.apart, pairwise_singleton _ _, fun q hq q' hq' => ?_⟩
    rw [mem_singleton.mp hq']
    exact ho q hq

theorem placed_of_append (h : WellPlaced (rs ++ [r])) : r.Placed :=
  h.placed r (mem_append_right _ (mem_singleton_self r))

theorem wellPlaced_replace {l l' : List Region} (h : WellPlaced (l ++ r :: l')) :
    WellPlaced (l ++ r' :: l') ↔ r'.Placed ∧ overlaps (l ++ l') r'.start r'.end = false := by
  have ha := h.apart
  rw [pairwise_append, pairwise_cons] at ha
  obtain ⟨hl, ⟨hr, hl'⟩, hll⟩ := ha
  rw [overlaps_eq_false]
  constructor
  · intro hw
    have ha' := hw.apart
    rw [pairwise_append, pairwise_cons] at ha'
    obtain ⟨-, ⟨hr', -⟩, hll'⟩ := ha'
    refine ⟨hw.placed r' (by simp), fun q hq => ?_⟩
    rcases mem_append.mp hq with hq | hq
    · exact hll' q hq r' mem_cons_self
    · exact (hr' q hq).symm
  rintro ⟨hp, ho⟩
  constructor
  · intro q hq
    rcases mem_append.mp hq with hq | hq
    · exact h.placed q (mem_append_left _ hq)
    rcases mem_cons.mp hq with rfl | hq
    · exact hp
    · exact h.placed q (mem_append_right _ (mem_cons_of_mem _ hq))
  · rw [pairwise_append, pairwise_cons]
    refine ⟨hl, ⟨fun q hq => Or.symm (ho q (mem_append_right _ hq)), hl'⟩, ?_⟩
    intro q hq q' hq'
    rcases mem_cons.mp hq' with rfl | hq'
    · exact ho q (mem_append_left _ hq)
    · exact hll q hq q' (mem_cons_of_mem _ hq')

/-- The pieces of a region: inside it, non-empty, aligned and apart. -/
structure CutOf (r : Region) (ps : List Region) : Prop where
  piece : ∀ p ∈ ps, r.start ≤ p.start ∧ p.start < p.end ∧ p.end ≤ r.end ∧
    p.start % pageSize = 0 ∧ p.end % pageSize = 0
  apart : ps.Pairwise Region.Apart

theorem wellPlaced_flatMap {g : Region → List Region} (h : WellPlaced rs)
    (hg : ∀ r ∈ rs, CutOf r (g r)) : WellPlaced (rs.flatMap g) := by
  constructor
  · intro p hp
    obtain ⟨r, hr, hpr⟩ := mem_flatMap.mp hp
    have hpl := h.placed r hr
    obtain ⟨h1, h2, h3, h4, h5⟩ := (hg r hr).piece p hpr
    exact ⟨Nat.le_trans hpl.low h1, h2, Nat.le_trans h3 hpl.high, h4, h5⟩
  rw [pairwise_flatMap]
  refine ⟨fun r hr => (hg r hr).apart, h.apart.imp_of_mem ?_⟩
  intro r q hr hq hrq p hp p' hp'
  obtain ⟨h1, -, h2, -⟩ := (hg r hr).piece p hp
  obtain ⟨h3, -, h4, -⟩ := (hg q hq).piece p' hp'
  unfold Region.Apart at *
  omega

theorem cutOf_self (hr : r.Placed) : CutOf r [r] :=
  ⟨fun p hp => by
    rw [mem_singleton.mp hp]
    exact ⟨.refl, hr.nonempty, .refl, hr.start_mod, hr.end_mod⟩, pairwise_singleton _ _⟩

theorem mem_headPiece :
    p ∈ headPiece start r ↔ r.start < start ∧ p = { r with «end» := start } := by
  unfold headPiece
  by_cases h : r.start < start
  · rw [if_pos h, mem_singleton, and_iff_right h]
  · rw [if_neg h]
    exact ⟨fun hp => absurd hp not_mem_nil, fun hp => absurd hp.1 h⟩

theorem mem_tailPieces : p ∈ tailPieces stop r ↔ stop < r.end ∧ p = r.tailFrom stop := by
  unfold tailPieces
  by_cases h : stop < r.end
  · rw [if_pos h, mem_singleton, and_iff_right h]
  · rw [if_neg h]
    exact ⟨fun hp => absurd hp not_mem_nil, fun hp => absurd hp.1 h⟩

/-- `protect` keeps what `unmap` would keep, and the middle. -/
theorem mem_protectPieces_iff {prot : Prot} : p ∈ protectPieces start stop prot r ↔
    p ∈ unmapPieces start stop r ∨ ¬ r.Untouched start stop ∧ p = r.middle start stop prot := by
  unfold protectPieces unmapPieces
  by_cases hu : r.Untouched start stop
  · simp [hu]
  · simp [hu, or_comm, or_assoc]

theorem headPiece_pairwise (r : Region) (start : Nat) :
    (headPiece start r).Pairwise Region.Apart := by
  unfold headPiece
  split
  · exact pairwise_singleton _ _
  · exact List.Pairwise.nil

theorem tailPieces_pairwise (r : Region) (stop : Nat) :
    (tailPieces stop r).Pairwise Region.Apart := by
  unfold tailPieces
  split
  · exact pairwise_singleton _ _
  · exact List.Pairwise.nil

theorem unmapPieces_cutOf (hr : r.Placed)
    (hse : start ≤ stop) (hs : start % pageSize = 0) (he : stop % pageSize = 0) :
    CutOf r (unmapPieces start stop r) := by
  unfold unmapPieces
  by_cases hu : r.Untouched start stop
  · rw [if_pos hu]
    exact cutOf_self hr
  rw [if_neg hu]
  unfold Region.Untouched at hu
  have h1 := hr.start_mod
  have h2 := hr.end_mod
  constructor
  · intro p hp
    rcases mem_append.mp hp with hp | hp
    · obtain ⟨hlt, rfl⟩ := mem_headPiece.mp hp
      refine ⟨.refl, hlt, ?_, h1, hs⟩
      show start ≤ r.end
      omega
    · obtain ⟨hlt, rfl⟩ := mem_tailPieces.mp hp
      refine ⟨?_, hlt, .refl, he, h2⟩
      show r.start ≤ stop
      omega
  · rw [pairwise_append]
    refine ⟨headPiece_pairwise r start, tailPieces_pairwise r stop, fun p hp q hq => ?_⟩
    obtain ⟨-, rfl⟩ := mem_headPiece.mp hp
    obtain ⟨-, rfl⟩ := mem_tailPieces.mp hq
    exact .inl hse

theorem protectPieces_cutOf (prot : Prot) (hr : r.Placed)
    (hse : start < stop ∨ start = stop ∧ ¬ (r.start < start ∧ start < r.end))
    (hs : start % pageSize = 0) (he : stop % pageSize = 0) :
    CutOf r (protectPieces start stop prot r) := by
  by_cases hu : r.Untouched start stop
  · rw [protectPieces, if_pos hu]
    exact cutOf_self hr
  have h0 := hr.nonempty
  have h1 := hr.start_mod
  have h2 := hr.end_mod
  have hms : max start r.start % pageSize = 0 := by
    rcases Nat.le_total start r.start with h | h
    · rw [Nat.max_eq_right h]; exact h1
    · rw [Nat.max_eq_left h]; exact hs
  have hme : min stop r.end % pageSize = 0 := by
    rcases Nat.le_total stop r.end with h | h
    · rw [Nat.min_eq_left h]; exact he
    · rw [Nat.min_eq_right h]; exact h2
  have hlt : max start r.start < min stop r.end := by
    unfold Region.Untouched at hu
    omega
  constructor
  · intro p hp
    rcases mem_protectPieces_iff.mp hp with hp | ⟨-, rfl⟩
    · exact (unmapPieces_cutOf hr (by omega) hs he).piece p hp
    · exact ⟨Nat.le_max_right _ _, hlt, Nat.min_le_right _ _, hms, hme⟩
  · rw [protectPieces, if_neg hu, pairwise_append, pairwise_cons]
    refine ⟨headPiece_pairwise r start, ⟨fun q hq => ?_, tailPieces_pairwise r stop⟩,
      fun p hp q hq => ?_⟩
    · obtain ⟨-, rfl⟩ := mem_tailPieces.mp hq
      exact .inl (Nat.min_le_left _ _)
    obtain ⟨-, rfl⟩ := mem_headPiece.mp hp
    rcases mem_cons.mp hq with rfl | hq
    · exact .inl (Nat.le_max_left _ _)
    obtain ⟨-, rfl⟩ := mem_tailPieces.mp hq
    refine Or.inl ?_
    show start ≤ stop
    omega

/-- Re-protecting an empty range inside a region leaves an empty piece. -/
theorem protectPieces_empty (prot : Prot)
    (h : r.start < start ∧ start < r.end) : r.middle start start prot ∈
      protectPieces start start prot r := by
  have hu : ¬ r.Untouched start start := by unfold Region.Untouched; omega
  unfold protectPieces
  rw [if_neg hu]
  exact mem_append_right _ mem_cons_self

theorem arranged_of_placement {sp sp' : AddressSpace} (h : sp'.placement = sp.placement)
    (ha : Arranged sp) : Arranged sp' := by
  unfold AddressSpace.placement at h
  rw [Prod.mk.injEq, Prod.mk.injEq, Prod.mk.injEq] at h
  obtain ⟨h1, h2, h3, h4⟩ := h
  exact ⟨h1 ▸ ha.regions, h2 ▸ ha.top, h3 ▸ h4 ▸ ha.base, h3 ▸ ha.brk_mod, h4 ▸ ha.base_mod⟩

theorem arranged_placement (s : Nat) : PlacementOnly (fun k : Kernel φ => Arranged (k.spaces s)) :=
  fun _ _ _ h => arranged_of_placement (h s)

theorem arranged_setRegions {k : Kernel φ} (h : Arranged (k.spaces s)) :
    Arranged ((k.setRegions s rs).spaces s) ↔ WellPlaced rs := by
  unfold Kernel.setRegions
  rw [setSpace_self]
  exact ⟨fun h' => h'.regions, fun hw => ⟨hw, h.top, h.base, h.brk_mod, h.base_mod⟩⟩

theorem rangeEnd_mod (start len : Nat) : rangeEnd start len % pageSize = 0 := alignDown_mod _

theorem unmap_arranged (start len : Nat) :
    Keeps (fun k => Arranged (k.spaces s)) (unmap A s start len) := by
  have hstep : ∀ k : Kernel φ, Arranged (k.spaces s) → Arranged (stateOf (unmap A s start len k)
      |>.spaces s) := by
    intro k hk
    rw [unmap_eq]
    by_cases hok : UnmapOk (k.spaces s).regions start len
    · rw [if_pos hok]
      refine (placement_releaseRange (arranged_placement s) _ _ _ _).state ?_
      refine (arranged_setRegions hk).mpr (wellPlaced_flatMap hk.regions fun r hr => ?_)
      exact unmapPieces_cutOf (hk.regions.placed r hr) (alignDown_le_rangeEnd start len)
        (alignDown_mod _) (rangeEnd_mod start len)
    · rw [if_neg hok]
      exact hk
  exact keeps_state hstep

theorem pushRegion_eq (s : Nat) (r : Region) (k : Kernel φ) :
    pushRegion s r k =
      if r.end + pageSize < wordSize then
        if alignDown r.start < userStart ∨ userEnd < rangeEnd r.end 0 ∨
            rangeEnd r.end 0 ≤ alignDown r.start then .error (.errno .einval) k
        else if overlaps (k.spaces s).regions (alignDown r.start) (rangeEnd r.end 0) then
          .error (.errno .eexist) k
        else .ok () (k.setRegions s ((k.spaces s).regions ++
          [{ r with start := alignDown r.start, «end» := rangeEnd r.end 0 }]))
      else .error .overflow k := by
  unfold pushRegion
  by_cases h1 : r.end + pageSize < wordSize
  · simp only [run_bind, alignUp_eq, h1, ↓reduceIte, run_ite, run_throw, space, run_get, run_pure]
    rfl
  · simp only [run_bind, alignUp_eq, h1, ↓reduceIte]

theorem pushRegion_arranged (r : Region) :
    Keeps (fun k : Kernel φ => Arranged (k.spaces s)) (pushRegion s r) := by
  refine keeps_state fun k hk => ?_
  rw [pushRegion_eq]
  split
  · split
    · exact hk
    rename_i hb
    split
    · exact hk
    rename_i ho
    refine (arranged_setRegions hk).mpr (wellPlaced_append hk.regions ?_ (by simpa using ho))
    refine ⟨?_, ?_, ?_, alignDown_mod _, rangeEnd_mod _ _⟩
    · show userStart ≤ alignDown r.start
      omega
    · show alignDown r.start < rangeEnd r.end 0
      omega
    · show rangeEnd r.end 0 ≤ userEnd
      omega
  · exact hk

section

variable {P Q : Kernel φ → Prop} {E : Stop → Kernel φ → Prop}

/-- `place` keeps what pushing a region and naming a shared object keep. -/
theorem triple_place (hE : Upholds Q E) (hpush : ∀ r, Keeping Q (pushRegion s r) E)
    (hnew : ∀ o k, Q k → Q { k with nobjs := o + 1, objs := Function.update k.objs o [] })
    (start len : Nat) (prot : Prot) (file : Option (Nat × Nat)) (shared : Bool) :
    Keeping Q (place s start len prot file shared) E := by
  have hget : Keeping Q (get : KM φ (Kernel φ)) E := Triple.get fun _ => id
  refine .bind (hE.keeps (keeps_add start len)) fun e => ?_
  cases file with
  | some f =>
    refine .ite (fun _ => .bind hget fun k => ?_) fun _ => hpush _
    cases (k.files f.1).sharedMmap with
    | some | none => exact hpush _
  | none =>
    refine .ite (fun _ => ?_) fun _ => hpush _
    refine .bind ?_ fun _ => hpush _
    exact .bind hget fun o => .bind (.modify (hnew _)) fun _ =>
      .skip

variable {fixed shared write : Bool}

/-- `mmap`, from what its parts keep; `C` is what is known of the cursor. -/
theorem triple_mmap {C : Nat → Prop} (hE : Upholds Q E) (hP : ∀ k, P k → Q k) {hint len : Nat}
    {prot : Prot} {file : Option (Nat × Nat)} (hunmap : fixed = true → Triple P
      (unmap A s (alignDown hint) (alignDown (max len 1 + (pageSize - 1)))) (fun _ => Q) E)
    (hplace : ∀ start len, Keeping Q (place s start len prot file shared) E)
    (hcur : ∀ k len, Q k → C (alignDown ((k.spaces s).mmapTop - len)))
    (hset : ∀ k top, C top → Q k → Q (k.setSpace s { k.spaces s with mmapTop := top })) :
    Triple P (mmap A s hint len prot fixed file shared) (fun _ => Q) E := by
  have halign : Triple P (alignUp (max len 1))
      (fun n k => P k ∧ n = alignDown (max len 1 + (pageSize - 1))) E := by
    refine Triple.bind (R := fun m k => P k ∧ m = max len 1 + pageSize) (.ite
      (fun _ => Triple.pure fun _ hk => ⟨hk, rfl⟩) fun _ => .throw fun k hk =>
        hE.stop (hP k hk)) fun m => Triple.pure fun k hk => ⟨hk.1, ?_⟩
    rw [hk.2]
    rfl
  refine Triple.bind halign fun n => .fact fun hn => ?_
  refine Triple.ite (fun hf => ?_) fun _ => .pre ?_ hP
  · subst hn
    exact Triple.bind (triple_ignoreErr hE (hunmap hf)) fun _ =>
      Triple.bind (hplace _ _) fun _ => .skip
  have hlow : Keeping Q (do
      let top := (← space s).mmapTop
      if top < n then throw (.errno .enomem)
      let start := alignDown (top - n)
      place s start n prot file shared
      modifySpace s fun sp => { sp with mmapTop := start }
      return start : KM φ Nat) E := by
    have hspace : Triple Q (space s) (fun sp k => Q k ∧ C (alignDown (sp.mmapTop - n))) E :=
      Triple.total fun k hk => ⟨_, k, rfl, hk, hcur k n hk⟩
    refine Triple.bind hspace fun sp => .fact fun hsp => ?_
    have hput := Triple.bind (hplace (alignDown (sp.mmapTop - n)) n) fun _ =>
      Triple.bind (.modify fun k => hset k _ hsp) fun _ =>
        Triple.pure (a := alignDown (sp.mmapTop - n)) (Q := fun _ => Q) fun _ => id
    exact Triple.ite (fun _ => .bind (.throw fun _ h => hE.stop h) fun _ => hput) fun _ => hput
  have hfits : Keeping Q (hintFits s (alignDown hint) n) E :=
    hE.keeps (Keeping.bind (keeps_add _ _) fun _ => .bind (keeps_space s) fun _ => .pure _)
  refine Triple.ite (fun _ => ?_) fun _ => hlow
  refine Triple.bind hfits fun _ => .ite (fun _ => ?_) fun _ => hlow
  exact Triple.bind (hplace _ _) fun _ => .skip

/-- `handle_fault`; `R` is what is known of the region that was found or grown. -/
theorem triple_handleFault {R : Option Region → Kernel φ → Prop} (hE : Upholds Q E) {addr : Nat} (exec : Bool) (hP : ∀ k, P k → Q k) (hR : ∀ o k, R o k → Q k)
    (hfound : alignDown addr < userEnd → ∀ k r, P k →
      findRegion (k.spaces s).regions (alignDown addr) = some r → R (some r) k)
    (hgrow : userStart ≤ alignDown addr → alignDown addr < userEnd →
      Triple P (tryGrowStack s (alignDown addr)) R E) (hpage : alignDown addr < userEnd → ∀ r,
      Triple (R (some r)) (ensurePage A s (alignDown addr) r write) (fun _ => Q) E) :
    Triple P (handleFault A s addr write exec) (fun _ => Q) E := by
  refine .ite (fun _ => .pure hP) fun hin => ?_
  have hlow : alignDown userStart ≤ alignDown addr := alignDown_mono (by omega)
  have hlt : alignDown addr < userEnd := Nat.lt_of_le_of_lt (alignDown_le addr) (by omega)
  have hfind : Triple P (regionAt s (alignDown addr))
      (fun o k => P k ∧ ∀ r, o = some r → R (some r) k) E :=
    .total fun k hk => ⟨_, k, rfl, hk, fun r => hfound hlt k r hk⟩
  refine .bind hfind fun found => ?_
  rcases found with _ | r
  on_goal 1 => refine .bind (R := R) (.pre (hgrow hlow hlt) fun _ h => h.1) fun region => ?_
  on_goal 2 => refine .bind (R := R) (.pure fun _ h => h.2 r rfl) fun region => ?_
  -- with the region found, or the stack grown
  all_goals
    cases region with
    | none => exact .pure (hR none)
    | some r =>
      refine .ite (fun _ => .pure (hR _)) fun _ =>
        .ite (fun _ => .pure (hR _)) fun _ => ?_
      exact triple_absorb true false hE (hpage hlt r)

/-- `fault_in`; `R` is what is known of the region that was found. -/
theorem triple_faultIn {R : Region → Kernel φ → Prop} (hE : Upholds Q E) {page : Nat}
    (hP : ∀ k, P k → Q k)
    (hfound : ∀ k r, P k → findRegion (k.spaces s).regions page = some r → R r k)
    (hpage : ∀ r, Triple (R r) (ensurePage A s page r write) (fun _ => Q) E) :
    Triple P (faultIn A s page write) (fun _ => Q) E := by
  have hfind : Triple P (regionAt s page) (fun o k => P k ∧ ∀ r, o = some r → R r k) E :=
    .total fun k hk => ⟨_, k, rfl, hk, fun r => hfound k r hk⟩
  refine .bind hfind fun found => ?_
  cases found with
  | none => exact .throw fun k h => hE.stop (hP k h.1)
  | some r =>
    refine .ite (fun _ => ?_) fun _ => .pre (hpage r) fun _ h => h.2 r rfl
    exact .bind (.throw fun k h => hE.stop (hP k h.1)) fun _ =>
      triple_absurd fun _ => id

end

theorem place_arranged (start len : Nat) (prot : Prot) (file : Option (Nat × Nat)) (shared : Bool) :
    Keeps (fun k : Kernel φ => Arranged (k.spaces s)) (place s start len prot file shared) :=
  triple_place .self pushRegion_arranged (fun _ _ => placement_rest
    (arranged_placement s) rfl rfl) _ _ _ _ _

/-- The cursor only moves down. -/
theorem mmapTop_arranged {k : Kernel φ} {top : Nat} (h : top ≤ userMmapTop) (hk : Arranged (k.spaces s)) :
    Arranged ((k.setSpace s { k.spaces s with mmapTop := top }).spaces s) := by
  rw [setSpace_self]
  exact ⟨hk.regions, h, hk.base, hk.brk_mod, hk.base_mod⟩

theorem mmap_arranged (hint len : Nat) (prot : Prot) (fixed : Bool) (file : Option (Nat × Nat))
    (shared : Bool) :
    Keeps (fun k => Arranged (k.spaces s)) (mmap A s hint len prot fixed file shared) := by
  refine triple_mmap .self (fun _ => id)
    (fun _ => unmap_arranged _ _) (fun _ _ => place_arranged _ _ _ _ _) (fun k len hk => ?_)
    fun _ _ => mmapTop_arranged
  exact Nat.le_trans (alignDown_le _) (Nat.le_trans (Nat.sub_le ..) hk.top)

theorem setBrkBase_arranged (base : Nat) :
    Keeps (fun k : Kernel φ => Arranged (k.spaces s)) (setBrkBase s base) := by
  refine keeps_state fun k hk => ?_
  unfold setBrkBase
  rw [run_bind, alignUp_eq]
  by_cases h : base + pageSize < wordSize
  · rw [if_pos h]
    show Arranged ((k.setSpace s _).spaces s)
    rw [setSpace_self]
    exact ⟨hk.regions, hk.top, .refl, alignDown_mod _, alignDown_mod _⟩
  · rw [if_neg h]
    exact hk

/-- `try_grow_stack` does nothing, or moves the start of one region down to the page. -/
theorem tryGrowStack_cases (s page : Nat) (k : Kernel φ) : tryGrowStack s page k = .ok none k ∨
    ∃ l r l', (k.spaces s).regions = l ++ r :: l' ∧ page < r.start ∧
      overlaps (l ++ l') page r.end = false ∧ tryGrowStack s page k =
        .ok (some { r with start := page }) (k.setRegions s (l ++ { r with start := page } :: l')) := by
  unfold tryGrowStack space
  simp only [run_bind, run_get, run_pure]
  cases hidx : (k.spaces s).regions.findIdx? fun r =>
      r.growsDown ∧ page < r.start ∧ r.start - page ≤ 64 * pageSize with
  | none => exact .inl rfl
  | some idx =>
    obtain ⟨hlt, hp, -⟩ := findIdx?_eq_some_iff_getElem.mp hidx
    obtain ⟨-, hbelow, -⟩ := of_decide_eq_true hp
    dsimp only
    rw [getElem?_eq_getElem hlt]
    dsimp only
    rw [run_ite, eraseIdx_eq_take_drop_succ, set_eq_take_append_cons_drop, if_pos hlt]
    by_cases ho : overlaps ((k.spaces s).regions.take idx ++ (k.spaces s).regions.drop (idx + 1)) page
        (k.spaces s).regions[idx].end = true
    · exact .inl (if_pos ho)
    · refine Or.inr ⟨_, _, _, ?_, hbelow, Bool.eq_false_iff.mpr ho, if_neg ho⟩
      rw [← drop_eq_getElem_cons hlt, take_append_drop]

theorem tryGrowStack_arranged {page : Nat} (hlow : userStart ≤ page) (hmod : page % pageSize = 0) :
    Keeps (fun k : Kernel φ => Arranged (k.spaces s)) (tryGrowStack s page) := by
  refine keeps_state fun k hk => ?_
  rcases tryGrowStack_cases s page k with h | ⟨l, r, l', he, hbelow, ho, h⟩
  · rw [h]
    exact hk
  rw [h]
  have hsplit := hk.regions
  rw [he] at hsplit
  have hpl := hsplit.placed r (by simp)
  refine (arranged_setRegions hk).mpr ((wellPlaced_replace hsplit).mpr ⟨?_, ho⟩)
  exact ⟨hlow, Nat.lt_trans hbelow hpl.nonempty, hpl.high, hmod, hpl.end_mod⟩

/-- `handle_fault` keeps what the placement decides, if growing the stack does. -/
theorem keeps_handleFault {P : Kernel φ → Prop} (hP : PlacementOnly P) {addr : Nat}
    (hgrow : userStart ≤ alignDown addr → Keeps P (tryGrowStack s (alignDown addr)))
    (write exec : Bool) : Keeps P (handleFault A s addr write exec) :=
  triple_handleFault .self exec (fun _ => id) (fun _ _ => id)
    (fun _ _ _ h _ => h) (fun hlow _ => hgrow hlow) fun _ r => unseen_ensurePage (hP.unseen s) _ r write

theorem handleFault_arranged (addr : Nat) (write exec : Bool) :
    Keeps (fun k => Arranged (k.spaces s)) (handleFault A s addr write exec) :=
  keeps_handleFault (arranged_placement s)
    (fun hlow => tryGrowStack_arranged hlow (alignDown_mod _)) _ _

end Fastros.Mm
