import Fastros.Mm.Confine

/-!
# When `mmap` finds a place

Without `MAP_FIXED` two places are tried: the hint, and the slot right below the
cursor. A mapping that a hint has put into that slot stands in the way of every later
call, however much is free below it. With `MAP_FIXED` the old mappings are gone before
the new one can be refused.
-/

namespace Fastros.Mm

open Lib.Stateful Lib.Run

variable {φ : Type} {A : FrameAllocator φ} {s : Nat} {k k' : Kernel φ} {prot : Prot}
  {file : Option (Nat × Nat)} {shared : Bool}

/-- `n` bytes are free somewhere below the first position of the cursor. -/
def Gap (sp : AddressSpace) (n : Nat) : Prop :=
  ∃ start, start % pageSize = 0 ∧ userStart ≤ start ∧ start + n ≤ userMmapTop ∧
    overlaps sp.regions start (start + n) = false

/-- They are free at the hint. -/
structure HintFree (sp : AddressSpace) (hint n : Nat) : Prop where
  low : userStart ≤ hint
  high : alignDown hint + n ≤ userEnd
  free : overlaps sp.regions (alignDown hint) (alignDown hint + n) = false

/-- The slot below the cursor. -/
def AddressSpace.slot (sp : AddressSpace) (n : Nat) : Nat := alignDown (sp.mmapTop - n)

/-- They are free right below the cursor. -/
structure SlotFree (sp : AddressSpace) (n : Nat) : Prop where
  fits : n ≤ sp.mmapTop
  low : userStart ≤ sp.slot n
  high : sp.slot n + n ≤ userEnd
  free : overlaps sp.regions (sp.slot n) (sp.slot n + n) = false

/-- The end of the hinted range is computed without overflow. -/
def HintSums (hint n : Nat) : Prop := userStart ≤ hint → alignDown hint + n < wordSize

instance (hint n : Nat) : Decidable (HintSums hint n) := inferInstanceAs (Decidable (_ → _))

variable {len start v : Nat} {α : Type}

theorem alignDown_of_mod (h : v % pageSize = 0) : alignDown v = v :=
  Nat.div_mul_cancel (Nat.dvd_of_mod_eq_zero h)

theorem rangeEnd_of_mod (h : v % pageSize = 0) : rangeEnd v 0 = v := by
  unfold rangeEnd alignDown pageSize at *
  omega

/-- A call that succeeds if and only if there is room, and leaves nothing behind if it
fails. -/
def Lands {α : Type} (k : Kernel φ) (room : Prop) (r : EStateM.Result Stop (Kernel φ) α) : Prop :=
  (room ↔ ∃ a k', r = .ok a k') ∧ ∀ e k', r = .error e k' → Untouched k k'

theorem lands_refused {room : Prop} {e : Stop} (h : ¬ room) : Lands (α := α) k room (.error e k) :=
  ⟨iff_of_false h fun ⟨_, _, hr⟩ => (by cases hr), fun _ _ he => by cases he; exact .inl rfl⟩

theorem Lands.congr {room room' : Prop} {r : EStateM.Result Stop (Kernel φ) α}
    (hl : Lands k room r) (h : room' ↔ room) : Lands k room' r :=
  ⟨h.trans hl.1, hl.2⟩

/-- A placement, and then something that does not fail. -/
theorem place_lands {x : KM φ α} (hm : start % pageSize = 0) (hx : ∀ k, ∃ a k', x k = .ok a k') :
    Lands k (userStart ≤ start ∧ start + wholePages len ≤ userEnd ∧
        overlaps (k.spaces s).regions start (start + wholePages len) = false)
      ((place s start (wholePages len) prot file shared >>= fun _ => x) k) := by
  have hw : userEnd + pageSize < wordSize := by decide
  have := wholePages_pos len
  have hmod : (start + wholePages len) % pageSize = 0 := by
    rw [Nat.add_mod, hm, wholePages_mod]
    rfl
  by_cases hsum : start + wholePages len < wordSize
  swap
  · have hstop : place s start (wholePages len) prot file shared k = .error .overflow k := by
      unfold place
      rw [run_bind, add_eq, if_neg hsum]
    rw [bind_error hstop]
    exact lands_refused (by omega)
  obtain ⟨r, hs, he, k1, hk1, heq⟩ := place_push (s := s) prot file shared hsum k
  have hsp : k1.spaces = k.spaces := by rcases hk1 with rfl | rfl <;> rfl
  rw [pushRegion_eq, hs, he, hsp, alignDown_of_mod hm, rangeEnd_of_mod hmod] at heq
  refine ⟨⟨fun ⟨hlow, hend, hfree⟩ => ?_, fun ⟨a, k2, h⟩ => ?_⟩, fun e k' h => ?_⟩
  · rw [if_pos (by omega), if_neg (by omega), if_neg (by simp [hfree])] at heq
    obtain ⟨a, k2, hb⟩ := hx _
    exact ⟨a, k2, (bind_ok heq).trans hb⟩
  · obtain ⟨_, k3, hp, -⟩ := bind_eq_ok.mp h
    rw [heq] at hp
    split_ifs at hp with h1 h2 h3
    exact ⟨by omega, by omega, Bool.eq_false_of_not_eq_true h3⟩
  rcases bind_eq_error.mp h with h | ⟨a, k2, -, h⟩
  · rw [heq] at h
    split_ifs at h <;> cases h <;> exact hk1
  · obtain ⟨b, k3, hb⟩ := hx k2
    rw [hb] at h
    cases h

theorem mmapLow_lands : Lands k (SlotFree (k.spaces s) (wholePages len))
    (mmapLow s (wholePages len) prot file shared k) := by
  rw [mmapLow_eq]
  split
  · exact lands_refused fun h => by have := h.fits; omega
  refine (place_lands (alignDown_mod _) fun _ => ⟨_, _, rfl⟩).congr ?_
  exact ⟨fun h => ⟨h.low, h.high, h.free⟩, fun ⟨hlow, hhigh, hfree⟩ => ⟨by omega, hlow, hhigh, hfree⟩⟩

/-- Without `MAP_FIXED` two places are tried. -/
theorem mmap_lands (A : FrameAllocator φ) (hint : Nat) :
    Lands k (max len 1 + pageSize < wordSize ∧ (HintFree (k.spaces s) hint (wholePages len) ∨
        HintSums hint (wholePages len) ∧ SlotFree (k.spaces s) (wholePages len)))
      (mmap A s hint len prot false file shared k) := by
  have hw : userEnd < wordSize := by decide
  rw [mmap_eq, if_neg Bool.false_ne_true]
  split_ifs with h1 h2 h3 h4
  · refine (place_lands (alignDown_mod _) fun _ => ⟨_, _, rfl⟩).congr (iff_of_true ?_ ?_)
    · exact ⟨h1, .inl ⟨h2, h4.2, h4.1⟩⟩
    · exact ⟨Nat.le_trans (by decide) (alignDown_mono h2), h4.2, h4.1⟩
  · refine mmapLow_lands.congr ⟨fun ⟨_, h⟩ => ?_, fun h => ⟨h1, .inr ⟨fun _ => h3, h⟩⟩⟩
    rcases h with h | h
    · exact absurd ⟨h.free, h.high⟩ h4
    · exact h.2
  · refine lands_refused fun ⟨_, h⟩ => ?_
    rcases h with h | h
    · have := h.high
      omega
    · exact h3 (h.1 h2)
  · refine mmapLow_lands.congr ⟨fun ⟨_, h⟩ => ?_, fun h => ⟨h1, .inr ⟨fun hh => absurd hh h2, h⟩⟩⟩
    rcases h with h | h
    · exact absurd h.low h2
    · exact h.2
  · exact lands_refused fun h => h1 h.1

/-- Nothing is mapped at the `n` bytes from `start` on. -/
structure Vacant (k : Kernel φ) (s start n : Nat) : Prop where
  free : overlaps (k.spaces s).regions start (start + n) = false
  dead : ∀ j < pagesIn start (start + n), Dead s (pageIndex (start + j * pageSize)) k

/-- The regions and the entries of the space are the same. -/
def SameSpace (s : Nat) (k k' : Kernel φ) : Prop :=
  (k'.spaces s).regions = (k.spaces s).regions ∧ k'.pte s = k.pte s

theorem Untouched.same (h : Untouched k k') : SameSpace s k k' := by
  rcases h with rfl | rfl <;> exact ⟨rfl, rfl⟩

/-- What is cut out of a list of regions is free in it. -/
theorem overlaps_pieces (rs : List Region) (start stop : Nat) :
    overlaps (rs.flatMap (unmapPieces start stop)) start stop = false := by
  rw [overlaps, List.any_eq_false]
  intro p hp
  obtain ⟨r, -, hp⟩ := List.mem_flatMap.mp hp
  rw [decide_eq_true_eq]
  unfold unmapPieces headPiece tailPieces Region.Untouched Region.tailFrom at hp
  grind

theorem pieces_untouched {rs : List Region} {stop : Nat} (h : overlaps rs start stop = false) :
    rs.flatMap (unmapPieces start stop) = rs := by
  rw [overlaps, List.any_eq_false] at h
  have hone : ∀ r ∈ rs, unmapPieces start stop r = [r] := by
    intro r hr
    have := h r hr
    rw [decide_eq_true_eq] at this
    exact if_pos (by unfold Region.Untouched; omega)
  rw [List.flatMap_congr hone, List.flatMap_singleton']

theorem rangeEnd_pages (hm : start % pageSize = 0) :
    rangeEnd start (wholePages len) = start + wholePages len := by
  have hmod := wholePages_mod len
  unfold rangeEnd alignDown pageSize at *
  omega

section

variable (hm : start % pageSize = 0)
include hm

/-- After an `unmap` that returns, the range is vacant. -/
theorem unmap_vacant (h : unmap A s start (wholePages len) k = .ok () k') :
    Vacant k' s start (wholePages len) := by
  refine ⟨?_, ?_⟩
  · rw [unmap_regions h, alignDown_of_mod hm, rangeEnd_pages hm]
    exact overlaps_pieces _ _ _
  · rw [unmap_eq] at h
    split at h
    · have hdead := (releaseRange_dead s _ _ _).ok trivial h
      rwa [alignDown_of_mod hm, rangeEnd_pages hm] at hdead
    · cases h

/-- An `unmap` of a vacant range changes nothing in the space. -/
theorem unmap_same (hv : Vacant k s start (wholePages len))
    (h : unmap A s start (wholePages len) k = .ok () k') : SameSpace s k k' := by
  refine ⟨?_, ?_⟩
  · rw [unmap_regions h, alignDown_of_mod hm, rangeEnd_pages hm, pieces_untouched hv.free]
  · rw [unmap_eq, unmapCut, alignDown_of_mod hm, rangeEnd_pages hm] at h
    split at h
    · refine (keeps_releaseRange_pte (Q := (· = k.pte s)) .self _ ?_).ok
        (funext fun i => setRegions_pte k s s i _) h
      rintro pt j hj rfl hl
      exact absurd hl (Bool.eq_false_iff.mp (hv.dead j hj))
    · cases h

end

/-- A `MAP_FIXED` call that returns an error has unmapped the range before. -/
theorem mmap_fixed_error {hint : Nat} {e : Errno}
    (h : mmap A s hint len prot true file shared k = .error (.errno e) k') :
    ∃ k1, unmap A s (alignDown hint) (wholePages len) k = .ok () k1 ∧ SameSpace s k1 k' ∧
      ¬ (userStart ≤ alignDown hint ∧ alignDown hint + wholePages len ≤ userEnd) := by
  have hm := alignDown_mod hint
  rw [mmap_eq, if_pos rfl] at h
  split at h
  swap
  · cases h
  rcases bind_eq_error.mp h with h | ⟨_, k1, hun, h⟩
  · unfold ignoreErr at h
    split at h
    · cases h
    · next hno => exact absurd h (hno e k')
  have hok : unmap A s (alignDown hint) (wholePages len) k = .ok () k1 := by
    unfold ignoreErr at hun
    split at hun
    · next e' k2 he =>
      rw [unmap_eq] at he
      split at he
      · cases (raises_releaseRange s _ _ _).error he
      · cases he
    · exact hun
  have hl : Lands k1 _ ((place s (alignDown hint) (wholePages len) prot file shared >>=
      fun _ => pure (alignDown hint)) k1) := place_lands hm fun _ => ⟨_, _, rfl⟩
  refine ⟨k1, hok, (hl.2 _ _ h).same, fun hin => ?_⟩
  obtain ⟨a, k2, hr⟩ := hl.1.mp ⟨hin.1, hin.2, (unmap_vacant hm hok).free⟩
  rw [h] at hr
  cases hr

/-- `mmap` succeeds if there is a gap, and an error leaves the space as it was. -/
structure MmapMeets (A : FrameAllocator φ) (s hint len : Nat) (prot : Prot) (fixed : Bool)
    (file : Option (Nat × Nat)) (shared : Bool) (k : Kernel φ) : Prop where
  finds : fixed = false → Gap (k.spaces s) (wholePages len) →
    ∃ a k', mmap A s hint len prot fixed file shared k = .ok a k'
  failed : ∀ e k', mmap A s hint len prot fixed file shared k = .error (.errno e) k' → SameSpace s k k'

/-- Without `MAP_FIXED`: one of the two places that are tried is free, or there is no gap.
With it: the range is in user space, or vacant. -/
def MmapFits (s hint len : Nat) (fixed : Bool) (k : Kernel φ) : Prop :=
  if fixed then
    userStart ≤ alignDown hint ∧ alignDown hint + wholePages len ≤ userEnd ∨
      Vacant k s (alignDown hint) (wholePages len)
  else Gap (k.spaces s) (wholePages len) → HintFree (k.spaces s) hint (wholePages len) ∨
    HintSums hint (wholePages len) ∧ SlotFree (k.spaces s) (wholePages len)

theorem mmapMeets_free (A : FrameAllocator φ) (hint : Nat) :
    MmapMeets A s hint len prot false file shared k ↔ MmapFits s hint len false k := by
  have hl : Lands k _ (mmap A s hint len prot false file shared k) := mmap_lands A hint
  have hlen : Gap (k.spaces s) (wholePages len) → max len 1 + pageSize < wordSize := by
    rintro ⟨start, -, -, hend, -⟩
    have := lt_alignDown_add (max len 1 + (pageSize - 1))
    have hw : userMmapTop + 2 * pageSize < wordSize := by decide
    unfold wholePages at hend
    omega
  unfold MmapFits
  rw [if_neg Bool.false_ne_true]
  constructor
  · exact fun h hgap => (hl.1.mpr (h.finds rfl hgap)).2
  · exact fun h => ⟨fun _ hgap => hl.1.mp ⟨hlen hgap, h hgap⟩, fun e k' he => (hl.2 _ _ he).same⟩

/-- With `MAP_FIXED` the condition is enough, and needed unless the call panics. -/
theorem mmapMeets_fixed (A : FrameAllocator φ) (hint : Nat) :
    (MmapFits s hint len true k → MmapMeets A s hint len prot true file shared k) ∧
    ((∀ e k', mmap A s hint len prot true file shared k = .error e k' → ∃ n, e = .errno n) →
      MmapMeets A s hint len prot true file shared k → MmapFits s hint len true k) := by
  have hm := alignDown_mod hint
  unfold MmapFits
  rw [if_pos rfl]
  constructor
  · refine fun hfit => ⟨fun h => (by cases h), fun e k' he => ?_⟩
    obtain ⟨k1, hun, hsame, hout⟩ := mmap_fixed_error he
    obtain ⟨hreg, hpte⟩ := unmap_same hm (hfit.resolve_left hout) hun
    exact ⟨hsame.1.trans hreg, hsame.2.trans hpte⟩
  · intro hpanic hmeets
    by_contra hno
    rw [not_or] at hno
    cases hr : mmap A s hint len prot true file shared k with
    | ok a k' =>
      -- a placement outside user space does not return
      rw [mmap_eq, if_pos rfl] at hr
      split at hr
      swap
      · cases hr
      obtain ⟨_, k1, -, hp⟩ := bind_eq_ok.mp hr
      have hl : Lands k1 _ ((place s (alignDown hint) (wholePages len) prot file shared >>=
          fun _ => pure (alignDown hint)) k1) := place_lands hm fun _ => ⟨_, _, rfl⟩
      obtain ⟨h1, h2, -⟩ := hl.1.mpr ⟨_, _, hp⟩
      exact hno.1 ⟨h1, h2⟩
    | error e k' =>
      obtain ⟨n, rfl⟩ := hpanic e k' hr
      obtain ⟨k1, hun, hsame, -⟩ := mmap_fixed_error hr
      obtain ⟨hreg, hpte⟩ := hmeets.failed n k' hr
      have hvac := unmap_vacant hm hun
      refine hno.2 ⟨?_, fun j hj => ?_⟩
      · rw [← hreg, hsame.1]
        exact hvac.free
      · unfold Dead
        rw [← hpte, hsame.2]
        exact hvac.dead j hj

/-- The slot below the cursor is free for `attach_shared`, which asks for no more. -/
structure AttachFree (sp : AddressSpace) (hint n : Nat) : Prop where
  sums : HintSums hint n
  fits : n ≤ sp.mmapTop
  high : sp.slot n + n < wordSize
  free : overlaps sp.regions (sp.slot n) (sp.slot n + n) = false

theorem error_ne_ok {ε σ α : Type} {e : ε} {k : σ} :
    ¬ ∃ (a : α) (k' : σ), (EStateM.Result.error e k : EStateM.Result ε σ α) = .ok a k' := by
  rintro ⟨a, k', h⟩
  cases h

theorem attach_ok_iff (hint obj : Nat) (hlen : max len 1 + pageSize < wordSize)
    (hhint : ¬ HintFree (k.spaces s) hint (wholePages len)) :
    (∃ a k', attachShared s hint len prot obj k = .ok a k') ↔
      AttachFree (k.spaces s) hint (wholePages len) := by
  have hlow : attachShared s hint len prot obj k = (if HintSums hint (wholePages len) then
      (lowSlot s (wholePages len) >>= fun start => attachAt s start (wholePages len) prot obj) k
      else .error .overflow k) := by
    unfold attachShared HintSums
    rw [run_bind, alignUp_eq, if_pos hlen]
    dsimp only
    rw [run_bind, attachSlot_eq, ← wholePages]
    by_cases h1 : userStart ≤ hint
    · by_cases h2 : alignDown hint + wholePages len < wordSize
      · have h3 : ¬ (overlaps (k.spaces s).regions (alignDown hint) (alignDown hint + wholePages len)
            = false ∧ alignDown hint + wholePages len ≤ userEnd) := fun h => hhint ⟨h1, h.2, h.1⟩
        simp only [h1, h2, h3, if_true, if_false, forall_true_left, run_bind]
      · simp only [h1, h2, if_true, if_false, forall_true_left]
    · simp only [h1, if_false, false_implies, if_true, run_bind]
  rw [hlow]
  by_cases hs : HintSums hint (wholePages len)
  swap
  · rw [if_neg hs]
    exact iff_of_false error_ne_ok fun h => hs h.sums
  rw [if_pos hs, run_bind, lowSlot]
  by_cases hfit : (k.spaces s).mmapTop < wholePages len
  · rw [if_pos hfit]
    exact iff_of_false error_ne_ok fun h => Nat.not_le.mpr hfit h.fits
  rw [if_neg hfit]
  dsimp only
  rw [attachAt_eq, setSpace_self]
  dsimp only
  split_ifs with h1 h2
  · exact iff_of_false (by simp) fun h => by
      have := h.free
      unfold AddressSpace.slot at this
      rw [h2] at this
      cases this
  · exact iff_of_true ⟨_, _, rfl⟩ ⟨hs, Nat.not_lt.mp hfit, h1, Bool.eq_false_of_not_eq_true h2⟩
  · exact iff_of_false (by simp) fun h => h1 h.high

/-- **When `mmap` and `attach_shared` do what they should.** Without `MAP_FIXED`, and for
`attach_shared` without a usable hint, exactly if a place that is tried is free or there is
no gap; with `MAP_FIXED` exactly if the range is in user space or vacant, but for panics. -/
theorem mmap_meets_iff (A : FrameAllocator φ) (s hint len : Nat) (prot : Prot)
    (file : Option (Nat × Nat)) (shared : Bool) (obj : Nat) (k : Kernel φ) :
    (MmapMeets A s hint len prot false file shared k ↔ MmapFits s hint len false k) ∧
    (MmapFits s hint len true k → MmapMeets A s hint len prot true file shared k) ∧
    ((∀ e k', mmap A s hint len prot true file shared k = .error e k' → ∃ n, e = .errno n) →
      MmapMeets A s hint len prot true file shared k → MmapFits s hint len true k) ∧
    (max len 1 + pageSize < wordSize → ¬ HintFree (k.spaces s) hint (wholePages len) →
      ((Gap (k.spaces s) (wholePages len) → ∃ a k', attachShared s hint len prot obj k = .ok a k') ↔
        (Gap (k.spaces s) (wholePages len) → AttachFree (k.spaces s) hint (wholePages len)))) :=
  ⟨mmapMeets_free A hint, (mmapMeets_fixed A hint).1, (mmapMeets_fixed A hint).2,
    fun hlen hhint => forall_congr' fun _ => attach_ok_iff hint obj hlen hhint⟩

/-- A hinted mapping in the topmost page: the page below it is free, and not found. -/
theorem mmap_misses_gap :
    let k := Call.after listAllocator 0 (.mmap (userMmapTop - pageSize) 1 {} false none false)
      (bootKernel 4)
    Gap (k.spaces 0) (wholePages 1) ∧
      ∃ k', mmap listAllocator 0 0 1 {} false none false k = .error (.errno .eexist) k' := by
  intro k
  have hr : (k.spaces 0).regions =
    [{ start := userMmapTop - pageSize, «end» := userMmapTop, prot := {} }] := rfl
  have ht : (k.spaces 0).mmapTop = userMmapTop := rfl
  refine ⟨⟨userStart, by decide, by decide, by decide, by rw [hr]; rfl⟩, k, ?_⟩
  rw [mmap_eq, if_pos (by decide), if_neg Bool.false_ne_true, if_neg (by decide), mmapLow_eq, ht,
    if_neg (by decide), run_bind, place, run_bind, add_eq, if_pos (by decide)]
  simp only [Bool.false_eq_true, ↓reduceIte, mapRegion, pushRegion_eq, hr]
  rfl

end Fastros.Mm
