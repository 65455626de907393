import Fastros.Lib.Run
import Fastros.Mm.Layout

/-!
# Every call on an address space, and the layout

The calls that edit the region list, taken from any well-placed state. Three of
them can break the layout, each exactly under a condition on its arguments and
on the space before the call.
-/

namespace Fastros.Mm

open Lib.Stateful Lib.Run

variable {φ : Type} {A : FrameAllocator φ} {s : Nat}
variable {new : Nat}

/-- The length `mmap` and `attach_shared` reserve. -/
def wholePages (len : Nat) : Nat := alignDown (max len 1 + (pageSize - 1))

/-- `attach_shared` has no lower bound for the slot it takes below `mmap_top`. -/
def AttachFits (sp : AddressSpace) (hint len : Nat) : Prop :=
  max len 1 + pageSize < wordSize →
  (userStart ≤ hint → alignDown hint + wholePages len < wordSize ∧
    (overlaps sp.regions (alignDown hint) (alignDown hint + wholePages len) = true ∨
      userEnd < alignDown hint + wholePages len)) →
  wholePages len ≤ sp.mmapTop →
  overlaps sp.regions (alignDown (sp.mmapTop - wholePages len))
    (alignDown (sp.mmapTop - wholePages len) + wholePages len) = false →
  userStart ≤ alignDown (sp.mmapTop - wholePages len)

/-- `protect` on no page at all cuts the region around it in two. -/
def ProtectKeeps (sp : AddressSpace) (start len : Nat) : Prop :=
  ProtectOk sp.regions start len → alignDown start = rangeEnd start len →
    ∀ r ∈ sp.regions, ¬ (r.start < alignDown start ∧ alignDown start < r.end)

/-- `brk` extends the heap in place without looking above it, and checks neither
end of the user range. -/
def BrkFits (sp : AddressSpace) (addr : Nat) : Prop :=
  sp.brkBase ≤ addr → addr + pageSize < wordSize → sp.brk < rangeEnd addr 0 →
    if sp.regions.any (isHeap sp.brkBase sp.brk) then
      overlaps sp.regions sp.brk (rangeEnd addr 0) = false ∧ rangeEnd addr 0 ≤ userEnd
    else overlaps sp.regions sp.brk (rangeEnd addr 0) = false →
      userStart ≤ sp.brk ∧ rangeEnd addr 0 ≤ userEnd

variable {k : Kernel φ}

theorem protect_arranged_iff (start len : Nat) (prot : Prot) (hk : Arranged (k.spaces s)) :
    Arranged ((stateOf (protect s start len prot k)).spaces s) ↔
      ProtectKeeps (k.spaces s) start len := by
  have := alignDown_le_rangeEnd start len
  rw [protect_eq]
  by_cases h1 : start + len + pageSize < wordSize
  swap
  · rw [if_neg h1]
    exact ⟨fun _ hok => absurd hok.1 h1, fun _ => hk⟩
  rw [if_pos h1]
  by_cases h2 : (k.spaces s).regions.any
      (fun r => r.start ≤ alignDown start ∧ rangeEnd start len ≤ r.end) = true
  swap
  · rw [if_neg h2]
    refine ⟨fun _ _ he r hr hin => h2 ?_, fun _ => hk⟩
    exact List.any_eq_true.mpr ⟨r, hr, by rw [← he]; exact decide_eq_true (by omega)⟩
  rw [if_pos h2]
  by_cases h3 : ProtectOk (k.spaces s).regions start len
  swap
  · rw [if_neg h3]
    exact ⟨fun _ hok => absurd hok h3, fun _ => hk⟩
  have hP := arranged_placement (φ := φ) s
  rw [if_pos h3, state_iff (placement_protectPages hP _ _ _ _)
    (placement_protectPages (placementOnly_not hP) _ _ _ _), arranged_setRegions hk]
  constructor
  · intro hw _ he r hr hin
    rw [← he] at hw
    have hpl := hw.placed _ (List.mem_flatMap.mpr ⟨r, hr, protectPieces_empty prot hin⟩)
    have : max (alignDown start) r.start < min (alignDown start) r.end := hpl.nonempty
    omega
  · intro hfit
    refine wellPlaced_flatMap hk.regions fun r hr => ?_
    refine protectPieces_cutOf prot (hk.regions.placed r hr) ?_ (alignDown_mod _) (rangeEnd_mod _ _)
    by_cases he : alignDown start = rangeEnd start len
    · exact .inr ⟨he, hfit h3 he r hr⟩
    · exact .inl (by omega)

theorem hintFits_eq (s start len : Nat) (k : Kernel φ) :
    hintFits s start len k =
      if start + len < wordSize then
        .ok (overlaps (k.spaces s).regions start (start + len) = false ∧
          start + len ≤ userEnd : Bool) k
      else .error .overflow k := by
  unfold hintFits space
  rw [run_bind, add_eq, Bool.decide_and]
  by_cases h : start + len < wordSize
  · rw [if_pos h, if_pos h, Bool.decide_eq_false]
    rfl
  · rw [if_neg h, if_neg h]

theorem attachAt_eq (s start len : Nat) (prot : Prot) (obj : Nat) (k : Kernel φ) :
    attachAt s start len prot obj k =
      if start + len < wordSize then
        if overlaps (k.spaces s).regions start (start + len) then .error (.errno .eexist) k
        else .ok start (k.setRegions s ((k.spaces s).regions ++
          [{ start := start, «end» := start + len, prot := prot, shared := some obj }]))
      else .error .overflow k := by
  unfold attachAt space
  rw [run_bind, add_eq]
  by_cases h : start + len < wordSize
  · simp only [h, ↓reduceIte, run_bind, run_get, run_pure, run_ite, run_throw]
    rfl
  · rw [if_neg h, if_neg h]

/-- The slot below `mmap_top`. -/
def lowSlot (s len : Nat) : KM φ Nat := fun k =>
  if (k.spaces s).mmapTop < len then .error (.errno .enomem) k
  else .ok (alignDown ((k.spaces s).mmapTop - len)) (k.setSpace s
    { k.spaces s with mmapTop := alignDown ((k.spaces s).mmapTop - len) })

theorem attachSlot_eq (s hint len : Nat) (k : Kernel φ) :
    attachSlot s hint len k =
      if userStart ≤ hint then
        if alignDown hint + len < wordSize then
          if overlaps (k.spaces s).regions (alignDown hint) (alignDown hint + len) = false ∧
              alignDown hint + len ≤ userEnd then .ok (alignDown hint) k
          else lowSlot s len k
        else .error .overflow k
      else lowSlot s len k := by
  have hlow : (do
      let top := (← space s).mmapTop
      if top < len then throw (.errno .enomem)
      modifySpace s fun sp => { sp with mmapTop := alignDown (top - len) }
      return alignDown (top - len) : KM φ Nat) k = lowSlot s len k := by
    unfold lowSlot space
    by_cases ht : (k.spaces s).mmapTop < len
    · simp only [run_bind, run_get, run_pure, ht, ↓reduceIte, run_throw]
    · simp only [run_bind, run_get, run_pure, ht, ↓reduceIte]
      rfl
  unfold attachSlot
  by_cases hh : userStart ≤ hint
  · rw [if_pos hh, if_pos hh, run_bind, hintFits_eq]
    by_cases hw : alignDown hint + len < wordSize
    · rw [if_pos hw, if_pos hw]
      by_cases hf : overlaps (k.spaces s).regions (alignDown hint) (alignDown hint + len) = false ∧
          alignDown hint + len ≤ userEnd
      · rw [if_pos hf, decide_eq_true hf]
        rfl
      · rw [if_neg hf, decide_eq_false hf]
        exact hlow
    · rw [if_neg hw, if_neg hw]
  · rw [if_neg hh, if_neg hh]
    exact hlow

variable {E : Stop → Kernel φ → Prop} {P Q : Kernel φ → Prop} {addr base cur len n obj start : Nat}
  {rs : List Region}

/-- `attach_shared`, from what its parts keep; `C` is what is known of the slot. -/
theorem triple_attachShared
    {C : Nat → Nat → Prop} {hint : Nat} {prot : Prot} (hP : ∀ e k, P k → E e k)
    (hQ : ∀ e k, Q k → E e k)
    (hhint : ∀ start n, start % pageSize = 0 → start + n ≤ userEnd → C start n)
    (hlow : ∀ k n, P k → n ≤ (k.spaces s).mmapTop →
      P (k.setSpace s { k.spaces s with mmapTop := alignDown ((k.spaces s).mmapTop - n) }) ∧
        C (alignDown ((k.spaces s).mmapTop - n)) n)
    (hat : ∀ start n k, C start n → P k → Q (stateOf (attachAt s start n prot obj k))) :
    Triple P (attachShared s hint len prot obj) (fun _ => Q) E := by
  have hslot : ∀ n k, P k → Ends (fun start k => P k ∧ C start n) E (lowSlot s n k) := by
    intro n k hk
    unfold lowSlot
    split
    · exact .error (hP _ k hk)
    · exact .ok (hlow k n hk (by omega))
  refine .bind (.stop (keeps_alignUp _) hP) fun n => .bind
    (.intro fun k hk => ?_) fun start => .fact fun hc =>
      .of_state (fun k => hat start n k hc) hQ
  rw [attachSlot_eq]
  split
  · split
    · split
      · next hf => exact .ok ⟨hk, hhint _ _ (alignDown_mod _) hf.2⟩
      · exact hslot n k hk
    · exact .error (hP _ k hk)
  · exact hslot n k hk

/-- The push of `attach_shared` checks overlaps and nothing else. -/
theorem attachAt_arranged_iff (prot : Prot) (obj : Nat) (hk : Arranged (k.spaces s))
    (hlen : 0 < len) (hmod : start % pageSize = 0) (hlmod : len % pageSize = 0)
    (hend : start + len ≤ userEnd) :
    Arranged ((stateOf (attachAt s start len prot obj k)).spaces s) ↔
      (overlaps (k.spaces s).regions start (start + len) = false → userStart ≤ start) := by
  rw [attachAt_eq, if_pos (Nat.lt_of_le_of_lt hend (by decide))]
  by_cases ho : overlaps (k.spaces s).regions start (start + len) = true
  · rw [if_pos ho]
    exact ⟨fun _ hf => absurd (ho.symm.trans hf) (by decide), fun _ => hk⟩
  have hof : overlaps (k.spaces s).regions start (start + len) = false := by simpa using ho
  rw [if_neg ho]
  show Arranged ((k.setRegions s _).spaces s) ↔ _
  rw [arranged_setRegions hk]
  constructor
  · intro hw _
    exact (placed_of_append hw).low
  intro hlow
  refine wellPlaced_append hk.regions ⟨hlow hof, ?_, hend, hmod, ?_⟩ hof
  · exact Nat.lt_add_of_pos_right hlen
  · show (start + len) % pageSize = 0
    rw [Nat.add_mod, hmod, hlmod]
    rfl

theorem wholePages_pos (len : Nat) : 0 < wholePages len := by
  have h : alignDown pageSize ≤ wholePages len := alignDown_mono (by unfold pageSize; omega)
  exact Nat.lt_of_lt_of_le (by decide) h

theorem wholePages_mod (len : Nat) : wholePages len % pageSize = 0 := alignDown_mod _

theorem lowSlot_arranged_iff (prot : Prot) (obj : Nat) (hk : Arranged (k.spaces s))
    (hpos : 0 < n) (hmod : n % pageSize = 0) :
    Arranged ((stateOf ((lowSlot s n >>= fun start => attachAt s start n prot obj) k)).spaces s) ↔
      (n ≤ (k.spaces s).mmapTop →
        overlaps (k.spaces s).regions (alignDown ((k.spaces s).mmapTop - n))
          (alignDown ((k.spaces s).mmapTop - n) + n) = false →
        userStart ≤ alignDown ((k.spaces s).mmapTop - n)) := by
  rw [run_bind, lowSlot]
  by_cases ht : (k.spaces s).mmapTop < n
  · rw [if_pos ht]
    exact ⟨fun _ h => absurd ht (Nat.not_lt.mpr h), fun _ => hk⟩
  rw [if_neg ht]
  have := alignDown_le ((k.spaces s).mmapTop - n)
  have := hk.top
  have hk' : Arranged ((k.setSpace s { k.spaces s with
      mmapTop := alignDown ((k.spaces s).mmapTop - n) }).spaces s) :=
    mmapTop_arranged (by omega) hk
  have hend : alignDown ((k.spaces s).mmapTop - n) + n ≤ userEnd :=
    Nat.le_trans (by omega) (show userMmapTop ≤ userEnd by decide)
  have h := attachAt_arranged_iff prot obj hk' hpos (alignDown_mod _) hmod hend
  rw [setSpace_self] at h
  exact h.trans ⟨fun h _ => h, fun h => h (by omega)⟩

theorem attachShared_arranged_iff (hint len : Nat) (prot : Prot) (obj : Nat)
    (hk : Arranged (k.spaces s)) :
    Arranged ((stateOf (attachShared s hint len prot obj k)).spaces s) ↔
      AttachFits (k.spaces s) hint len := by
  unfold attachShared AttachFits
  rw [run_bind, alignUp_eq]
  by_cases h1 : max len 1 + pageSize < wordSize
  swap
  · rw [if_neg h1]
    exact ⟨fun _ h => absurd h h1, fun _ => hk⟩
  rw [if_pos h1]
  change Arranged ((stateOf ((attachSlot s hint (wholePages len) >>= fun start =>
    attachAt s start (wholePages len) prot obj) k)).spaces s) ↔ _
  rw [run_bind, attachSlot_eq]
  have hpos := wholePages_pos len
  have hmod := wholePages_mod len
  generalize wholePages len = n at hpos hmod
  have hlow := lowSlot_arranged_iff prot obj hk hpos hmod
  rw [run_bind] at hlow
  by_cases hh : userStart ≤ hint
  · rw [if_pos hh]
    by_cases hw : alignDown hint + n < wordSize
    · rw [if_pos hw]
      by_cases hf : overlaps (k.spaces s).regions (alignDown hint) (alignDown hint + n) = false ∧
          alignDown hint + n ≤ userEnd
      · rw [if_pos hf]
        refine ⟨fun _ _ hbad => ?_, fun _ => ?_⟩
        · rcases (hbad hh).2 with h | h
          · exact absurd (hf.1.symm.trans h) (by decide)
          · omega
        · have h0 : alignDown userStart ≤ alignDown hint := alignDown_mono hh
          exact (attachAt_arranged_iff prot obj hk hpos (alignDown_mod _) hmod hf.2).mpr fun _ => h0
      · rw [if_neg hf, hlow]
        refine ⟨fun h _ _ => h, fun h => h h1 fun _ => ⟨hw, ?_⟩⟩
        by_cases ho : overlaps (k.spaces s).regions (alignDown hint) (alignDown hint + n) = false
        · exact .inr (Nat.lt_of_not_le fun h => hf ⟨ho, h⟩)
        · exact .inl (by simpa using ho)
    · rw [if_neg hw]
      exact ⟨fun _ _ h => absurd (h hh).1 hw, fun _ => hk⟩
  · rw [if_neg hh, hlow]
    exact ⟨fun h _ _ => h, fun h => h h1 fun h' => absurd h' hh⟩

theorem updateFirst_split {p : Region → Bool} (f : Region → Region)
    (h : rs.any p = true) : ∃ l r l', rs = l ++ r :: l' ∧ p r = true ∧
      updateFirst p f rs = l ++ f r :: l' := by
  induction rs with
  | nil => cases h
  | cons q qs ih =>
    by_cases hq : p q = true
    · exact ⟨[], q, qs, rfl, hq, by rw [updateFirst, if_pos hq]; rfl⟩
    rw [List.any_cons, Bool.or_eq_true, or_iff_right hq] at h
    obtain ⟨l, r, l', he, hr, hu⟩ := ih h
    refine ⟨q :: l, r, l', by rw [he]; rfl, hr, ?_⟩
    rw [updateFirst, if_neg hq, hu]
    rfl

theorem heap_arranged_iff (hk : Arranged (k.spaces s))
    (hh : (k.spaces s).regions.any (isHeap (k.spaces s).brkBase (k.spaces s).brk) = true)
    (hnew : (k.spaces s).brk < new) (hmod : new % pageSize = 0) :
    WellPlaced (updateFirst (isHeap (k.spaces s).brkBase (k.spaces s).brk)
        (fun r => { r with «end» := new }) (k.spaces s).regions) ↔
      overlaps (k.spaces s).regions (k.spaces s).brk new = false ∧ new ≤ userEnd := by
  obtain ⟨l, r, l', he, hr, hu⟩ := updateFirst_split (fun r => { r with «end» := new }) hh
  obtain ⟨hend, -⟩ := of_decide_eq_true hr
  have hw := hk.regions
  rw [he] at hw
  have hpl := hw.placed r (by simp)
  have := hpl.nonempty
  have hsame := (wellPlaced_replace hw).mp hw
  rw [hu, he, wellPlaced_replace hw, overlaps_eq_false, overlaps_eq_false]
  rw [overlaps_eq_false] at hsame
  constructor
  · rintro ⟨hp, ho⟩
    refine ⟨fun q hq => ?_, hp.high⟩
    rcases List.mem_append.mp hq with hq | hq
    · have h := ho q (List.mem_append_left _ hq)
      dsimp only at h
      omega
    rcases List.mem_cons.mp hq with rfl | hq
    · exact .inl (Nat.le_of_eq hend)
    · have h := ho q (List.mem_append_right _ hq)
      dsimp only at h
      omega
  rintro ⟨ho, hhigh⟩
  refine ⟨⟨hpl.low, ?_, hhigh, hpl.start_mod, hmod⟩, fun q hq => ?_⟩
  · show r.start < new
    omega
  have hq' : q ∈ l ++ r :: l' := by
    rcases List.mem_append.mp hq with h | h
    · exact List.mem_append_left _ h
    · exact List.mem_append_right _ (List.mem_cons_of_mem _ h)
  have h1 := ho q hq'
  have h2 := hsame.2 q hq
  have h3 := (hw.placed q hq').nonempty
  dsimp only
  omega

/-- `*brk = new`. -/
def Kernel.moveBrk (k : Kernel φ) (s new : Nat) : Kernel φ :=
  k.setSpace s { k.spaces s with brk := new }

theorem brk_eq (A : FrameAllocator φ) (s addr : Nat) (k : Kernel φ) :
    brk A s addr k =
      if addr < (k.spaces s).brkBase then .ok (k.spaces s).brk k
      else if addr + pageSize < wordSize then
        if (k.spaces s).brk < rangeEnd addr 0 then
          if (k.spaces s).regions.any (isHeap (k.spaces s).brkBase (k.spaces s).brk) then
            .ok (rangeEnd addr 0) ((k.setRegions s (updateFirst
              (isHeap (k.spaces s).brkBase (k.spaces s).brk)
              (fun r => { r with «end» := rangeEnd addr 0 }) (k.spaces s).regions)).moveBrk s
                (rangeEnd addr 0))
          else if overlaps (k.spaces s).regions (k.spaces s).brk (rangeEnd addr 0) then
            .ok (k.spaces s).brk k
          else .ok (rangeEnd addr 0) ((k.setRegions s ((k.spaces s).regions ++
            [{ start := max (k.spaces s).brkBase (k.spaces s).brk, «end» := rangeEnd addr 0,
               prot := { read := true, write := true } }])).moveBrk s (rangeEnd addr 0))
        else if rangeEnd addr 0 < (k.spaces s).brk then (do
          ignoreErr (unmap A s (rangeEnd addr 0) ((k.spaces s).brk - rangeEnd addr 0))
          modifySpace s fun sp => { sp with brk := rangeEnd addr 0 }
          return rangeEnd addr 0 : KM φ Nat) k
        else .ok (rangeEnd addr 0) (k.moveBrk s (rangeEnd addr 0))
      else .error .overflow k := by
  unfold brk space
  simp only [run_bind, run_get, run_pure, run_ite, alignUp_eq]
  by_cases h0 : addr < (k.spaces s).brkBase
  · rw [if_pos h0, if_pos h0]
  rw [if_neg h0, if_neg h0]
  by_cases h1 : addr + pageSize < wordSize
  swap
  · rw [if_neg h1, if_neg h1]
  rw [if_pos h1, if_pos h1]
  have hnew : alignDown (addr + (pageSize - 1)) = rangeEnd addr 0 := rfl
  simp only [hnew]
  generalize rangeEnd addr 0 = new
  by_cases h2 : (k.spaces s).brk < new
  · rw [if_pos h2, if_pos h2]
    by_cases h3 : (k.spaces s).regions.any (isHeap (k.spaces s).brkBase (k.spaces s).brk) = true
    · rw [if_pos h3, if_pos h3]
      rfl
    rw [if_neg h3, if_neg h3]
    by_cases h4 : overlaps (k.spaces s).regions (k.spaces s).brk new = true
    · rw [if_neg (by rw [h4]; decide), if_pos h4]
    · rw [if_pos (by simpa using h4), if_neg h4]
      rfl
  rw [if_neg h2, if_neg h2]
  by_cases h3 : new < (k.spaces s).brk
  · rw [if_pos h3, if_pos h3]
  · rw [if_neg h3, if_neg h3]
    rfl

theorem triple_brk (hE : Upholds Q E) (hP : ∀ k, P k → Q k)
    (hshrink : ∀ len, Triple (fun k => P k ∧ len = (k.spaces s).brk - rangeEnd addr 0)
      (unmap A s (rangeEnd addr 0) len) (fun _ => Q) E)
    (hmove : ∀ k, Q k → Q (k.moveBrk s (rangeEnd addr 0)))
    (hheap : ∀ k, P k → (k.spaces s).brk < rangeEnd addr 0 →
      (k.spaces s).regions.any (isHeap (k.spaces s).brkBase (k.spaces s).brk) = true →
      Q (k.setRegions s (updateFirst (isHeap (k.spaces s).brkBase (k.spaces s).brk)
        (fun r => { r with «end» := rangeEnd addr 0 }) (k.spaces s).regions)))
    (hpush : ∀ k, P k → ¬ addr < (k.spaces s).brkBase → (k.spaces s).brk < rangeEnd addr 0 →
      Q (k.setRegions s ((k.spaces s).regions ++
        [{ start := max (k.spaces s).brkBase (k.spaces s).brk, «end» := rangeEnd addr 0,
           prot := { read := true, write := true } }]))) :
    Triple P (brk A s addr) (fun _ => Q) E := by
  have hless : ∀ len, Triple (fun k => P k ∧ len = (k.spaces s).brk - rangeEnd addr 0) (do
      ignoreErr (unmap A s (rangeEnd addr 0) len)
      modifySpace s fun sp => { sp with brk := rangeEnd addr 0 }
      return rangeEnd addr 0 : KM φ Nat) (fun _ => Q) E := fun len =>
    .bind (triple_ignoreErr hE (hshrink len)) fun _ =>
      .bind (.modify hmove) fun _ => .skip
  refine .intro fun k hk => ?_
  rw [brk_eq]
  split
  · exact .ok (hP k hk)
  rename_i hbase
  split
  swap
  · exact .error (hE.stop (hP k hk))
  split
  · rename_i hlt
    split
    · rename_i hany
      exact .ok (hmove _ (hheap k hk hlt hany))
    split
    · exact .ok (hP k hk)
    · exact .ok (hmove _ (hpush k hk hbase hlt))
  split
  · exact (hless _).ends ⟨hk, rfl⟩
  · exact .ok (hmove k (hP k hk))

/-- The heap region ends at the break, so below a higher one. -/
theorem isHeap_end (h : cur < new) (r : Region) (hr : isHeap base cur r = true) : r.end ≤ new := by
  obtain ⟨hend, -⟩ := of_decide_eq_true hr
  omega

theorem moveBrk_arranged (hb : (k.spaces s).brkBase ≤ new) (hm : new % pageSize = 0) :
    Arranged (k.spaces s) → Arranged ((k.moveBrk s new).spaces s) := by
  intro hk
  unfold Kernel.moveBrk
  rw [setSpace_self]
  exact ⟨hk.regions, hk.top, hb, hm, hk.base_mod⟩

theorem grown_arranged_iff (hk : Arranged (k.spaces s))
    (hb : (k.spaces s).brkBase ≤ new) (hm : new % pageSize = 0) :
    Arranged (((k.setRegions s rs).moveBrk s new).spaces s) ↔ WellPlaced rs := by
  unfold Kernel.moveBrk Kernel.setRegions
  rw [setSpace_self, setSpace_self]
  exact ⟨fun h => h.regions, fun h => ⟨h, hk.top, hb, hm, hk.base_mod⟩⟩

theorem unmap_base_le (start len new : Nat) :
    Keeps (fun k => (k.spaces s).brkBase ≤ new) (unmap A s start len) := by
  have hP : PlacementOnly (fun k : Kernel φ => (k.spaces s).brkBase ≤ new) := by
    intro k k' _ h hk
    have hb : (k'.spaces s).brkBase = (k.spaces s).brkBase := congrArg (fun p => p.2.2.2) (h s)
    exact hb ▸ hk
  refine keeps_state fun k hk => ?_
  rw [unmap_eq]
  by_cases hok : UnmapOk (k.spaces s).regions start len
  · rw [if_pos hok]
    refine (placement_releaseRange hP _ _ _ _).state ?_
    unfold Kernel.setRegions
    rw [setSpace_self]
    exact hk
  · rw [if_neg hok]
    exact hk

theorem shrink_arranged (hm : new % pageSize = 0) :
    Triple (fun k => Arranged (k.spaces s) ∧ (k.spaces s).brkBase ≤ new) (do
        ignoreErr (unmap A s start len)
        modifySpace s fun sp => { sp with brk := new }
        return new) (fun _ k => Arranged (k.spaces s)) (fun _ k => Arranged (k.spaces s)) := by
  have hun := keeps_ignoreErr (keeps_and (unmap_arranged (A := A) (s := s) start len)
    (unmap_base_le start len new))
  refine .bind (.stop hun fun _ _ h => h.1) fun _ => ?_
  refine .bind (.modify fun k h => ?_) fun _ => .skip
  exact moveBrk_arranged h.2 hm h.1

theorem brk_arranged_iff (addr : Nat) (hk : Arranged (k.spaces s)) :
    Arranged ((stateOf (brk A s addr k)).spaces s) ↔ BrkFits (k.spaces s) addr := by
  rw [brk_eq]
  unfold BrkFits
  by_cases h0 : addr < (k.spaces s).brkBase
  · rw [if_pos h0]
    exact ⟨fun _ h => absurd h0 (Nat.not_lt.mpr h), fun _ => hk⟩
  rw [if_neg h0]
  by_cases h1 : addr + pageSize < wordSize
  swap
  · rw [if_neg h1]
    exact ⟨fun _ _ h => absurd h h1, fun _ => hk⟩
  rw [if_pos h1]
  have hge : addr ≤ rangeEnd addr 0 := by
    have h := lt_alignDown_add (addr + 0 + (pageSize - 1))
    unfold rangeEnd pageSize at *
    omega
  have hmod := rangeEnd_mod addr 0
  generalize rangeEnd addr 0 = new at hge hmod
  have hb : (k.spaces s).brkBase ≤ new := by omega
  by_cases h2 : (k.spaces s).brk < new
  swap
  · rw [if_neg h2]
    refine ⟨fun _ _ _ h => absurd h h2, fun _ => ?_⟩
    by_cases h3 : new < (k.spaces s).brk
    · rw [if_pos h3]
      exact (shrink_arranged hmod).state ⟨hk, hb⟩
    · rw [if_neg h3]
      exact moveBrk_arranged hb hmod hk
  rw [if_pos h2]
  have hbase : max (k.spaces s).brkBase (k.spaces s).brk = (k.spaces s).brk :=
    Nat.max_eq_right hk.base
  have hdrop : ∀ {p : Prop}, ((k.spaces s).brkBase ≤ addr → addr + pageSize < wordSize →
      (k.spaces s).brk < new → p) ↔ p :=
    ⟨fun h => h (by omega) h1 h2, fun h _ _ _ => h⟩
  rw [hdrop]
  by_cases h3 : (k.spaces s).regions.any (isHeap (k.spaces s).brkBase (k.spaces s).brk) = true
  · rw [if_pos h3, if_pos h3]
    exact (grown_arranged_iff hk hb hmod).trans (heap_arranged_iff hk h3 h2 hmod)
  rw [if_neg h3, if_neg h3]
  by_cases h4 : overlaps (k.spaces s).regions (k.spaces s).brk new = true
  · rw [if_pos h4]
    exact ⟨fun _ h => absurd (h4.symm.trans h) (by decide), fun _ => hk⟩
  have h4f : overlaps (k.spaces s).regions (k.spaces s).brk new = false := by simpa using h4
  rw [if_neg h4, hbase]
  refine (grown_arranged_iff hk hb hmod).trans ⟨fun hw _ => ?_, fun h => ?_⟩
  · have hpl := placed_of_append hw
    exact ⟨hpl.low, hpl.high⟩
  · obtain ⟨hlow, hhigh⟩ := h h4f
    exact wellPlaced_append hk.regions ⟨hlow, h2, hhigh, hk.brk_mod, hmod⟩ h4f

/-- The calls that edit the regions of a space. -/
inductive Call where
  | mapRegion (start «end» : Nat) (prot : Prot) (growsDown : Bool)
  | mapSegment (start «end» : Nat) (prot : Prot) (file offset length : Nat)
  | setBrkBase (base : Nat)
  | mmap (hint len : Nat) (prot : Prot) (fixed : Bool) (file : Option (Nat × Nat)) (shared : Bool)
  | attachShared (hint len : Nat) (prot : Prot) (obj : Nat)
  | unmap (start len : Nat)
  | protect (start len : Nat) (prot : Prot)
  | brk (addr : Nat)
  | fault (addr : Nat) (write exec : Bool)

/-- The call, made on space `s`. -/
def Call.run (A : FrameAllocator φ) (s : Nat) : Call → KM φ Unit
  | .mapRegion start «end» prot growsDown => Mm.mapRegion s start «end» prot growsDown
  | .mapSegment start «end» prot file offset length =>
    mapFileRegion s start «end» prot file offset length
  | .setBrkBase base => Mm.setBrkBase s base
  | .mmap hint len prot fixed file shared => effect (Mm.mmap A s hint len prot fixed file shared)
  | .attachShared hint len prot obj => effect (Mm.attachShared s hint len prot obj)
  | .unmap start len => Mm.unmap A s start len
  | .protect start len prot => Mm.protect s start len prot
  | .brk addr => effect (Mm.brk A s addr)
  | .fault addr write exec => effect (handleFault A s addr write exec)

/-- The state a call leaves, on any exit. -/
def Call.after (A : FrameAllocator φ) (s : Nat) (c : Call) (k : Kernel φ) : Kernel φ :=
  stateOf (c.run A s k)

/-- What a call needs of the space it meets. -/
def Call.Fits (sp : AddressSpace) : Call → Prop
  | .attachShared hint len _ _ => AttachFits sp hint len
  | .protect start len _ => ProtectKeeps sp start len
  | .brk addr => BrkFits sp addr
  | _ => True

theorem call_arranged_iff (A : FrameAllocator φ) (s : Nat) (c : Call) (hk : Arranged (k.spaces s)) :
    Arranged ((c.after A s k).spaces s) ↔ c.Fits (k.spaces s) := by
  cases c with
  | mapRegion =>
    rw [Call.after, Call.run, Mm.mapRegion]
    exact iff_of_true ((pushRegion_arranged _).state hk) trivial
  | mapSegment =>
    rw [Call.after, Call.run, mapFileRegion]
    exact iff_of_true ((pushRegion_arranged _).state hk) trivial
  | setBrkBase base =>
    have h := (setBrkBase_arranged base).state hk
    rw [Call.after, Call.run]
    exact iff_of_true h trivial
  | mmap hint len prot fixed file shared =>
    have h := (mmap_arranged (A := A) hint len prot fixed file shared).state hk
    rw [Call.after, Call.run, stateOf_effect]
    exact iff_of_true h trivial
  | attachShared hint len prot obj =>
    rw [Call.after, Call.run, Call.Fits, stateOf_effect]
    exact attachShared_arranged_iff hint len prot obj hk
  | unmap start len =>
    have h := (unmap_arranged (A := A) start len).state hk
    exact iff_of_true h trivial
  | protect start len prot =>
    exact protect_arranged_iff start len prot hk
  | brk addr =>
    rw [Call.after, Call.run, Call.Fits, stateOf_effect]
    exact brk_arranged_iff addr hk
  | fault addr write exec =>
    have h := (handleFault_arranged (A := A) addr write exec).state hk
    rw [Call.after, Call.run, stateOf_effect]
    exact iff_of_true h trivial

/-- What `AddressSpace::new` starts from. -/
def AddressSpace.Fresh (sp : AddressSpace) : Prop :=
  sp.regions = [] ∧ sp.mmapTop = userMmapTop ∧ sp.brk = 0 ∧ sp.brkBase = 0

theorem fresh_arranged {sp : AddressSpace} (h : sp.Fresh) : Arranged sp := by
  obtain ⟨hr, ht, hb, hbb⟩ := h
  constructor
  · rw [hr]
    exact ⟨fun r hr => absurd hr List.not_mem_nil, List.Pairwise.nil⟩
  · exact Nat.le_of_eq ht
  · exact Nat.le_of_eq (hbb.trans hb.symm)
  · rw [hb]; rfl
  · rw [hbb]; rfl

/-- The runs from a new space that stay arranged are those whose calls fit. -/
theorem run_arranged_iff (A : FrameAllocator φ) (s : Nat) (k : Kernel φ)
    (hnew : (k.spaces s).Fresh) (cs : List Call) :
    (∀ n, Arranged ((run (Call.after A s) (cs.take n) k).spaces s)) ↔
      Along (Call.after A s) (fun k c => c.Fits (k.spaces s)) cs k :=
  along_iff (P := fun k => Arranged (k.spaces s)) (fun _ c hk => call_arranged_iff A s c hk) cs k
    (fresh_arranged hnew)

/-- **In every run from a new space whose calls all fit, the regions are aligned,
non-empty, inside user space and pairwise apart after every call.** -/
theorem run_wellPlaced (A : FrameAllocator φ) (s : Nat) (k : Kernel φ)
    (hnew : (k.spaces s).Fresh) (cs : List Call)
    (hfit : Along (Call.after A s) (fun k c => c.Fits (k.spaces s)) cs k) (n : Nat) :
    WellPlaced ((run (Call.after A s) (cs.take n) k).spaces s).regions :=
  ((run_arranged_iff A s k hnew cs).mpr hfit n).regions

/-- A heap grown in place over a mapping above it. -/
def heapRun : List Call := [.mmap 0x30000 0x1000 {} false none false, .brk 0x20000, .brk 0x40000]

theorem heapRun_overlaps :
    ((bootKernel 4).spaces 0).Fresh ∧
    ¬ ((run (Call.after listAllocator 0) heapRun (bootKernel 4)).spaces 0).regions.Pairwise
      Region.Apart := by
  refine ⟨⟨rfl, rfl, rfl, rfl⟩, fun h => ?_⟩
  have hr : ((run (Call.after listAllocator 0) heapRun (bootKernel 4)).spaces 0).regions =
    [{ start := 0x30000, «end» := 0x31000, prot := {} },
     { start := 0, «end» := 0x40000, prot := { read := true, write := true } }] := rfl
  rw [hr, List.pairwise_pair] at h
  rcases h with h | h
  · exact absurd h (by decide)
  · exact absurd h (by decide)

/-- A process whose heap starts above its image. -/
theorem run_wellPlaced_heap :
    WellPlaced ((run (Call.after listAllocator 0)
      [.setBrkBase 0x20000, .brk 0x21000, .protect 0x20000 0x1000 {}] (bootKernel 4)).spaces
        0).regions :=
  run_wellPlaced listAllocator 0 (bootKernel 4) ⟨rfl, rfl, rfl, rfl⟩
    [.setBrkBase 0x20000, .brk 0x21000, .protect 0x20000 0x1000 {}]
    ⟨trivial, fun _ _ _ => by decide, fun _ h => absurd h (by decide), trivial⟩ 3

end Fastros.Mm
