import Fastros.Mm.Aspace

/-!
# Splitting regions

The region edits of `unmap` and `protect` without their overflow checks, and
when those checks pass. `findRegion` of an edited list is the old `findRegion`
with the found region replaced by its piece at that page.
-/

namespace Fastros.Mm

open Lib.Stateful List

variable {φ σ : Type}

theorem add_eq (a b : Nat) (k : σ) :
    add a b k = if a + b < wordSize then .ok (a + b) k else .error .overflow k := by
  unfold add
  by_cases h : a + b < wordSize
  · simp only [h, ↓reduceIte, run_pure]
  · simp only [h, ↓reduceIte, run_throw]

/-- `align_up` overflows near the end of the address space. -/
theorem alignUp_eq (v : Nat) (k : σ) :
    alignUp v k = if v + pageSize < wordSize then .ok (alignDown (v + (pageSize - 1))) k
      else .error .overflow k := by
  unfold alignUp
  by_cases h : v + pageSize < wordSize
  · simp only [run_bind, add_eq, h, ↓reduceIte, run_pure]
    rfl
  · simp only [run_bind, add_eq, h, ↓reduceIte]

theorem alignDown_mod (v : Nat) : alignDown v % pageSize = 0 := Nat.mul_mod_left _ _

theorem alignDown_le (v : Nat) : alignDown v ≤ v := Nat.div_mul_le_self _ _

theorem lt_alignDown_add (v : Nat) : v < alignDown v + pageSize := by
  unfold alignDown pageSize
  omega

def FileBacking.shift (b : FileBacking) (delta : Nat) : FileBacking :=
  { b with offset := b.offset + delta, length := b.length - delta }

/-- The part of a region from `at_` on, as both edits clone it. -/
def Region.tailFrom (r : Region) (at_ : Nat) : Region :=
  { r with start := at_, backing := r.backing.map (·.shift (at_ - r.start)) }

/-- The re-protected part of a region. -/
def Region.middle (r : Region) (start «end» : Nat) (prot : Prot) : Region :=
  { r with start := max start r.start, «end» := min «end» r.end, prot := prot,
           backing := r.backing.map (·.shift (max start r.start - r.start)),
           sharedBase := r.sharedBase + (max start r.start - r.start) }

/-- Shifting the backing of `r` by `delta` does not overflow. -/
def ShiftFits (r : Region) (delta : Nat) : Prop :=
  ∀ b, r.backing = some b → b.offset + delta < wordSize

def Region.Untouched (r : Region) (start «end» : Nat) : Prop := «end» ≤ r.start ∨ r.end ≤ start

instance (r : Region) (start «end» : Nat) : Decidable (r.Untouched start «end») :=
  inferInstanceAs (Decidable (_ ∨ _))

instance (r : Region) (delta : Nat) : Decidable (ShiftFits r delta) := by
  unfold ShiftFits
  cases r.backing with
  | none => exact isTrue (by simp)
  | some b => exact decidable_of_iff (b.offset + delta < wordSize) (by simp)

def tailPieces («end» : Nat) (r : Region) : List Region :=
  if «end» < r.end then [r.tailFrom «end»] else []

def unmapPieces (start «end» : Nat) (r : Region) : List Region :=
  if r.Untouched start «end» then [r] else headPiece start r ++ tailPieces «end» r

def protectPieces (start «end» : Nat) (prot : Prot) (r : Region) : List Region :=
  if r.Untouched start «end» then [r]
  else headPiece start r ++ r.middle start «end» prot :: tailPieces «end» r

def TailFits («end» : Nat) (r : Region) : Prop := «end» < r.end → ShiftFits r («end» - r.start)

def UnmapFits (start «end» : Nat) (r : Region) : Prop :=
  ¬ r.Untouched start «end» → TailFits «end» r

def ProtectFits (start «end» : Nat) (r : Region) : Prop :=
  ¬ r.Untouched start «end» → ShiftFits r (max start r.start - r.start) ∧
    r.sharedBase + (max start r.start - r.start) < wordSize ∧ TailFits «end» r

instance («end» : Nat) (r : Region) : Decidable (TailFits «end» r) :=
  inferInstanceAs (Decidable (_ → _))

instance (start «end» : Nat) (r : Region) : Decidable (UnmapFits start «end» r) :=
  inferInstanceAs (Decidable (_ → _))

instance (start «end» : Nat) (r : Region) : Decidable (ProtectFits start «end» r) :=
  inferInstanceAs (Decidable (_ → _))

theorem shiftBacking_eq (r : Region) (delta : Nat) (k : σ) :
    shiftBacking r.backing delta k =
      if ShiftFits r delta then .ok (r.backing.map (·.shift delta)) k else .error .overflow k := by
  cases hb : r.backing with
  | none =>
    have h : ShiftFits r delta := by simp [ShiftFits, hb]
    simp only [h, ↓reduceIte]
    rfl
  | some b =>
    have h : ShiftFits r delta ↔ b.offset + delta < wordSize := by simp [ShiftFits, hb]
    simp only [h, shiftBacking, FileBacking.shifted, run_bind, add_eq]
    by_cases hw : b.offset + delta < wordSize
    · simp only [hw, ↓reduceIte, run_pure]
      rfl
    · simp only [hw, ↓reduceIte]

theorem tailPiece_eq (stop : Nat) (r : Region) (k : σ) :
    tailPiece stop r k =
      if TailFits stop r then .ok (tailPieces stop r) k else .error .overflow k := by
  unfold tailPiece tailPieces TailFits
  by_cases h : stop < r.end
  · by_cases hs : ShiftFits r (stop - r.start)
    · simp only [h, hs, ↓reduceIte, true_implies, run_bind, shiftBacking_eq, run_pure]
      rfl
    · simp only [h, hs, ↓reduceIte, true_implies, run_bind, shiftBacking_eq]
  · simp only [h, ↓reduceIte, false_implies, run_pure]

/-- What `unmap` leaves of a region. -/
theorem unmapRegion_eq (start stop : Nat) (r : Region) (k : σ) :
    unmapRegion start stop r k =
      if UnmapFits start stop r then .ok (unmapPieces start stop r) k
      else .error .overflow k := by
  unfold unmapRegion UnmapFits unmapPieces Region.Untouched
  by_cases h : stop ≤ r.start ∨ r.end ≤ start
  · simp only [h, ↓reduceIte, not_true_eq_false, false_implies, run_pure]
  · by_cases ht : TailFits stop r
    · simp only [h, ht, ↓reduceIte, not_false_eq_true, true_implies, run_bind, tailPiece_eq, run_pure]
    · simp only [h, ht, ↓reduceIte, not_false_eq_true, true_implies, run_bind, tailPiece_eq]

/-- What `protect` makes of a region. -/
theorem protectRegion_eq (start stop : Nat) (prot : Prot) (r : Region) (k : σ) :
    protectRegion start stop prot r k =
      if ProtectFits start stop r then .ok (protectPieces start stop prot r) k
      else .error .overflow k := by
  unfold protectRegion ProtectFits protectPieces Region.Untouched
  by_cases h : stop ≤ r.start ∨ r.end ≤ start
  · simp only [h, ↓reduceIte, not_true_eq_false, false_implies, run_pure]
  simp only [h, ↓reduceIte, not_false_eq_true, true_implies, run_bind, shiftBacking_eq]
  by_cases h1 : ShiftFits r (max start r.start - r.start)
  · by_cases h2 : r.sharedBase + (max start r.start - r.start) < wordSize
    · by_cases h3 : TailFits stop r
      · simp only [h1, h2, h3, ↓reduceIte, and_self, add_eq, tailPiece_eq, run_pure]
        rfl
      · simp only [h1, h2, h3, ↓reduceIte, and_false, add_eq, tailPiece_eq]
    · simp only [h1, h2, ↓reduceIte, false_and, and_false, add_eq]
  · simp only [h1, ↓reduceIte, false_and]

/-- A region edit that only stops on overflow runs over a list as `flatMap`. -/
theorem splitRegions_eq {f : Region → EStateM Stop σ (List Region)} {g : Region → List Region}
    {fits : Region → Prop} [DecidablePred fits]
    (hf : ∀ r k, f r k = if fits r then .ok (g r) k else .error .overflow k)
    (rs : List Region) (k : σ) :
    splitRegions f rs k =
      if ∀ r ∈ rs, fits r then .ok (rs.flatMap g) k else .error .overflow k := by
  induction rs with
  | nil => simp [splitRegions, run_pure]
  | cons r rs ih =>
    simp only [splitRegions, run_bind, hf]
    by_cases h : fits r
    · by_cases hr : ∀ r ∈ rs, fits r
      · rw [if_pos hr] at ih
        rw [if_pos (forall_mem_cons.mpr ⟨h, hr⟩)]
        simp only [h, ↓reduceIte, ih, run_pure, flatMap_cons]
      · rw [if_neg hr] at ih
        rw [if_neg fun hc => hr (forall_mem_cons.mp hc).2]
        simp only [h, ↓reduceIte, ih]
    · rw [if_neg fun hc => h (forall_mem_cons.mp hc).1]
      simp only [h, ↓reduceIte]

theorem findSome?_ite {α β : Type} (p : α → Bool) (g : α → β) (l : List α) :
    l.findSome? (fun a => if p a then some (g a) else none) = (l.find? p).map g := by
  induction l with
  | nil => rfl
  | cons a l ih =>
    by_cases h : p a
    · simp [h]
    · simp [h, ih]

/-- If every region's pieces hold `page` exactly when the region did (and
`keep` says so), the edited list finds the piece of what the old one found. -/
theorem findRegion_flatMap {g : Region → List Region} {page : Nat} {piece : Region → Region}
    (h : ∀ r, (g r).find? (·.contains page) = if r.contains page then some (piece r) else none)
    (rs : List Region) : findRegion (rs.flatMap g) page = (findRegion rs page).map piece := by
  unfold findRegion
  rw [find?_flatMap, ← findSome?_ite]
  exact congrArg (fun f => findSome? f rs) (funext h)

/-- The end of the page range of a call, as `align_up(start + len)` returns it. -/
def rangeEnd (start len : Nat) : Nat := alignDown (start + len + (pageSize - 1))

theorem alignDown_rangeEnd (start len : Nat) :
    alignDown (start + len + (pageSize - 1)) = rangeEnd start len := rfl

theorem alignDown_mono {v w : Nat} (h : v ≤ w) : alignDown v ≤ alignDown w :=
  Nat.mul_le_mul_right _ (Nat.div_le_div_right h)

theorem alignDown_le_rangeEnd (start len : Nat) : alignDown start ≤ rangeEnd start len :=
  alignDown_mono (by omega)

def Kernel.setRegions (k : Kernel φ) (s : Nat) (regions : List Region) : Kernel φ :=
  k.setSpace s { k.spaces s with regions := regions }

/-- `unmap` gets past its arithmetic. -/
def UnmapOk (regions : List Region) (start len : Nat) : Prop :=
  start + len + pageSize < wordSize ∧
    ∀ r ∈ regions, UnmapFits (alignDown start) (rangeEnd start len) r

/-- `protect` gets past its arithmetic. -/
def ProtectOk (regions : List Region) (start len : Nat) : Prop :=
  start + len + pageSize < wordSize ∧
    ∀ r ∈ regions, ProtectFits (alignDown start) (rangeEnd start len) r

instance (regions : List Region) (start len : Nat) : Decidable (UnmapOk regions start len) :=
  inferInstanceAs (Decidable (_ ∧ _))

instance (regions : List Region) (start len : Nat) : Decidable (ProtectOk regions start len) :=
  inferInstanceAs (Decidable (_ ∧ _))

/-- `unmap` from the point where the regions are cut. -/
abbrev unmapCut (A : FrameAllocator φ) (s start len : Nat) (k : Kernel φ) :=
  releaseRange A s (alignDown start) (rangeEnd start len) (k.spaces s).regions
    (k.setRegions s ((k.spaces s).regions.flatMap (unmapPieces (alignDown start) (rangeEnd start len))))

/-- `unmap` in one step: the checks, the pieces, and the release of the pages. -/
theorem unmap_eq (A : FrameAllocator φ) (s start len : Nat) (k : Kernel φ) :
    unmap A s start len k =
      if UnmapOk (k.spaces s).regions start len then unmapCut A s start len k
      else .error .overflow k := by
  unfold unmap UnmapOk
  by_cases h1 : start + len + pageSize < wordSize
  · have h0 : start + len < wordSize := by omega
    simp only [run_bind, add_eq, alignUp_eq, h0, h1, ↓reduceIte, space, run_get, run_pure, true_and,
      alignDown_rangeEnd, splitRegions_eq (unmapRegion_eq _ _)]
    by_cases h2 : ∀ r ∈ (k.spaces s).regions, UnmapFits (alignDown start) (rangeEnd start len) r
    · rw [if_pos h2, if_pos h2]
      rfl
    · rw [if_neg h2, if_neg h2]
  · simp only [h1, false_and, ↓reduceIte]
    by_cases h0 : start + len < wordSize
    · simp only [run_bind, add_eq, alignUp_eq, h0, h1, ↓reduceIte]
    · simp only [run_bind, add_eq, h0, ↓reduceIte]

theorem protect_eq (s start len : Nat) (prot : Prot) (k : Kernel φ) :
    protect s start len prot k =
      if start + len + pageSize < wordSize then
        if (k.spaces s).regions.any
            (fun r => r.start ≤ alignDown start ∧ rangeEnd start len ≤ r.end) then
          if ProtectOk (k.spaces s).regions start len then
            protectPages s (alignDown start) prot (pagesIn (alignDown start) (rangeEnd start len))
              (k.setRegions s ((k.spaces s).regions.flatMap
                (protectPieces (alignDown start) (rangeEnd start len) prot)))
          else .error .overflow k
        else .error (.errno .enomem) k
      else .error .overflow k := by
  unfold protect ProtectOk
  by_cases h1 : start + len + pageSize < wordSize
  · have h0 : start + len < wordSize := by omega
    simp only [run_bind, add_eq, alignUp_eq, h0, h1, ↓reduceIte, space, run_get, run_pure, true_and,
      alignDown_rangeEnd, run_ite, run_throw, splitRegions_eq (protectRegion_eq _ _ _),
      Bool.not_eq_true']
    by_cases hc : (k.spaces s).regions.any
        (fun r => r.start ≤ alignDown start ∧ rangeEnd start len ≤ r.end) = true
    · rw [if_neg (by rw [hc]; decide), if_pos hc]
      by_cases h2 : ∀ r ∈ (k.spaces s).regions, ProtectFits (alignDown start) (rangeEnd start len) r
      · rw [if_pos h2, if_pos h2]
        rfl
      · rw [if_neg h2, if_neg h2]
    · rw [if_pos (by simpa using hc), if_neg hc]
  · simp only [h1, ↓reduceIte]
    by_cases h0 : start + len < wordSize
    · simp only [run_bind, add_eq, alignUp_eq, h0, h1, ↓reduceIte]
    · simp only [run_bind, add_eq, h0, ↓reduceIte]

end Fastros.Mm
