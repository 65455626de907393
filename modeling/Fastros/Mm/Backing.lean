import Fastros.Mm.Split
import Fastros.Mm.Keep

/-!
# What a page is backed by, across `unmap` and `protect`

A page of a region shows a file at some offset with so many real bytes left,
or a page of a shared object. `unmap` and `protect` cut regions; the piece that
remains above the cut keeps the region's `shared_base`, so its pages show the
wrong pages of the shared object. This is the only way either call changes what
a page is backed by.
-/

namespace Fastros.Mm

open Lib.Stateful List Region

variable {φ : Type} {A : FrameAllocator φ} {k k' : Kernel φ} {s start len : Nat}

/-- What `ensure_page` would fill `page` from: the file, the offset in it and the
real bytes left before the zero tail; the shared object and its page key. -/
def Region.backingAt (r : Region) (page : Nat) : Option (Nat × Nat × Nat) × Option (Nat × Nat) :=
  (r.backing.map fun b => (b.file, b.offset + (page - r.start), b.length - (page - r.start)),
   r.shared.map fun o => (o, r.sharedBase + (page - r.start)))

theorem regions_placement (s : Nat) (rs : List Region) :
    PlacementOnly (fun k : Kernel φ => (k.spaces s).regions = rs) := by
  intro k k' _ h hk
  exact (congrArg Prod.fst (h s)).trans hk

theorem setRegions_regions (k : Kernel φ) (s : Nat) (rs : List Region) :
    ((k.setRegions s rs).spaces s).regions = rs := by
  unfold Kernel.setRegions
  rw [setSpace_self]

theorem unmap_regions (h : unmap A s start len k = .ok () k') :
    (k'.spaces s).regions =
      (k.spaces s).regions.flatMap (unmapPieces (alignDown start) (rangeEnd start len)) := by
  rw [unmap_eq] at h
  split at h
  · exact (placement_releaseRange (regions_placement s _) _ _ _ _).ok (setRegions_regions k s _) h
  · cases h

theorem protect_regions {prot : Prot} (h : protect s start len prot k = .ok () k') :
    (k'.spaces s).regions = (k.spaces s).regions.flatMap
      (protectPieces (alignDown start) (rangeEnd start len) prot) := by
  rw [protect_eq] at h
  split at h
  · split at h
    · split at h
      · exact (placement_protectPages (regions_placement s _) _ _ _ _).ok
          (setRegions_regions k s _) h
      · cases h
    · cases h
  · cases h

variable {rs : List Region} {page stop : Nat}

/-- The piece of `r` at a page outside the edited range. -/
def Region.outerPiece (r : Region) (start «end» page : Nat) : Region :=
  if r.Untouched start «end» then r
  else if page < start then { r with «end» := start } else r.tailFrom «end»

theorem contains_iff (r : Region) (page : Nat) :
    r.contains page = true ↔ r.start ≤ page ∧ page < r.end := by
  exact decide_eq_true_iff

variable {r : Region} {l : List Region}

theorem find_cons_pos (h : r.start ≤ page ∧ page < r.end) :
    (r :: l).find? (·.contains page) = some r :=
  find?_cons_of_pos ((contains_iff r page).mpr h)

theorem find_cons_neg (h : ¬ (r.start ≤ page ∧ page < r.end)) :
    (r :: l).find? (·.contains page) = l.find? (·.contains page) :=
  find?_cons_of_neg fun hc => h ((contains_iff r page).mp hc)

/-- The head piece of a cut region covers exactly its pages below the range. -/
theorem headPiece_find (l : List Region) : (headPiece start r ++ l).find? (·.contains page) =
      if r.start ≤ page ∧ page < start then some { r with «end» := start }
      else l.find? (·.contains page) := by
  unfold headPiece
  by_cases hs : r.start < start
  · rw [if_pos hs, singleton_append]
    by_cases hc : r.start ≤ page ∧ page < start
    · rw [if_pos hc]
      exact find_cons_pos hc
    · rw [if_neg hc]
      exact find_cons_neg hc
  · rw [if_neg hs, nil_append, if_neg (by omega)]

theorem tailPieces_find (r : Region) :
    (tailPieces stop r).find? (·.contains page) =
      if stop ≤ page ∧ page < r.end then some (r.tailFrom stop) else none := by
  unfold tailPieces
  by_cases hs : stop < r.end
  · rw [if_pos hs]
    by_cases hc : stop ≤ page ∧ page < r.end
    · rw [if_pos hc]
      exact find_cons_pos hc
    · rw [if_neg hc]
      exact find_cons_neg hc
  · rw [if_neg hs, if_neg (by omega)]
    rfl

/-- What is left of a cut region outside the range, when nothing between its two pieces is. -/
theorem cut_find (hse : start ≤ stop)
    (hp : page < start ∨ stop ≤ page) (hu : ¬ r.Untouched start stop)
    (hl : l.find? (·.contains page) = (tailPieces stop r).find? (·.contains page)) :
    (headPiece start r ++ l).find? (·.contains page) =
      if r.contains page then some (r.outerPiece start stop page) else none := by
  rw [outerPiece, if_neg hu, headPiece_find, hl, tailPieces_find]
  unfold Region.Untouched at hu
  by_cases hc : r.start ≤ page ∧ page < r.end
  · rw [if_pos ((contains_iff r page).mpr hc)]
    rcases hp with hp | hp
    · rw [if_pos (by omega), if_pos hp]
    · rw [if_neg (by omega), if_pos (by omega), if_neg (by omega)]
  · rw [if_neg fun h => hc ((contains_iff r page).mp h), if_neg (by omega), if_neg (by omega)]

theorem untouched_find (hu : r.Untouched start stop) : [r].find? (·.contains page) =
    if r.contains page then some (r.outerPiece start stop page) else none := by
  rw [outerPiece, if_pos hu]
  cases hc : r.contains page <;> simp [hc]

theorem unmapPieces_find (hse : start ≤ stop) (hp : page < start ∨ stop ≤ page) (r : Region) :
    (unmapPieces start stop r).find? (·.contains page) =
      if r.contains page then some (r.outerPiece start stop page) else none := by
  unfold unmapPieces
  split
  · exact untouched_find ‹_›
  · exact cut_find hse hp ‹_› rfl

theorem unmapPieces_find_inner (hp : start ≤ page ∧ page < stop) (r : Region) :
    (unmapPieces start stop r).find? (·.contains page) = none := by
  unfold unmapPieces
  by_cases hu : r.Untouched start stop
  · rw [if_pos hu]
    unfold Region.Untouched at hu
    exact find_cons_neg (by omega)
  · rw [if_neg hu]
    rw [headPiece_find, tailPieces_find, if_neg (by omega), if_neg (by omega)]

theorem protectPieces_find (prot : Prot) (hse : start ≤ stop) (hp : page < start ∨ stop ≤ page)
    (r : Region) :
    (protectPieces start stop prot r).find? (·.contains page) =
      if r.contains page then some (r.outerPiece start stop page) else none := by
  unfold protectPieces
  split
  · exact untouched_find ‹_›
  · have hmid : ¬ (max start r.start ≤ page ∧ page < min stop r.end) := by omega
    exact cut_find hse hp ‹_› (find_cons_neg hmid)

theorem protectPieces_find_inner (prot : Prot) (hp : start ≤ page ∧ page < stop) (r : Region) :
    (protectPieces start stop prot r).find? (·.contains page) =
      if r.contains page then some (r.middle start stop prot) else none := by
  unfold protectPieces
  by_cases hc : r.start ≤ page ∧ page < r.end
  · have hu : ¬ r.Untouched start stop := by unfold Region.Untouched; omega
    have hmid : max start r.start ≤ page ∧ page < min stop r.end := by omega
    rw [if_neg hu, if_pos ((contains_iff r page).mpr hc), headPiece_find, if_neg (by omega)]
    exact find_cons_pos hmid
  rw [if_neg fun h => hc ((contains_iff r page).mp h)]
  by_cases hu : r.Untouched start stop
  · rw [if_pos hu]
    exact find_cons_neg hc
  · rw [if_neg hu]
    have hmid : ¬ (max start r.start ≤ page ∧ page < min stop r.end) := by omega
    rw [headPiece_find, if_neg (by omega), find_cons_neg hmid, tailPieces_find, if_neg (by omega)]

/-- The tail piece shows the same file page, and the same object page only when
the region has no shared object (or the cut is at its start). -/
theorem tailFrom_backingAt (hs : r.start < stop) (hp : stop ≤ page) :
    (r.tailFrom stop).backingAt page = r.backingAt page ↔ r.shared = none := by
  unfold tailFrom backingAt
  have hd : stop - r.start + (page - stop) = page - r.start := by omega
  have hf : (r.backing.map (·.shift (stop - r.start))).map
      (fun b => (b.file, b.offset + (page - stop), b.length - (page - stop))) =
      r.backing.map fun b => (b.file, b.offset + (page - r.start), b.length - (page - r.start)) := by
    rw [Option.map_map]
    congr 1
    funext b
    simp only [Function.comp_apply, FileBacking.shift]
    rw [Nat.add_assoc, hd, Nat.sub_sub, hd]
  rw [Prod.mk.injEq]
  constructor
  · rintro ⟨-, hsh⟩
    cases hr : r.shared with
    | none => rfl
    | some o =>
      rw [hr] at hsh
      simp only [Option.map_some, Option.some.injEq, Prod.mk.injEq, true_and] at hsh
      omega
  · intro hn
    exact ⟨hf, by rw [hn]; rfl⟩

theorem middle_backingAt {prot : Prot} (hp : start ≤ page) (hr : r.start ≤ page) :
    (r.middle start stop prot).backingAt page = r.backingAt page := by
  unfold middle backingAt
  have hd : max start r.start - r.start + (page - max start r.start) = page - r.start := by omega
  rw [Prod.mk.injEq]
  constructor
  · dsimp only
    rw [Option.map_map]
    congr 1
    funext b
    simp only [Function.comp_apply, FileBacking.shift]
    rw [Nat.add_assoc, hd, Nat.sub_sub, hd]
  · dsimp only
    rw [Nat.add_assoc, hd]

theorem outerPiece_prot (r : Region) : (r.outerPiece start stop page).prot = r.prot := by
  unfold outerPiece
  split
  · rfl
  · split <;> rfl

theorem outerPiece_growsDown (r : Region) :
    (r.outerPiece start stop page).growsDown = r.growsDown := by
  unfold outerPiece
  split
  · rfl
  · split <;> rfl

/-- Every page mapped after an edit was mapped before it, with the same backing
and growth; `protOf` is the protection it has now. -/
def BackingKept (old new : List Region) (protOf : Nat → Region → Prot) : Prop :=
  ∀ page, page % pageSize = 0 → ∀ r', findRegion new page = some r' →
    ∃ r, findRegion old page = some r ∧ r'.backingAt page = r.backingAt page ∧
      r'.growsDown = r.growsDown ∧ r'.prot = protOf page r

/-- No page above the edited range lies in a shared region the range cuts. -/
def SharedUncut (regions : List Region) («end» : Nat) : Prop :=
  ∀ page, page % pageSize = 0 → «end» ≤ page → ∀ r, findRegion regions page = some r →
    r.shared ≠ none → «end» ≤ r.start

theorem findRegion_contains (h : findRegion rs page = some r) : r.start ≤ page ∧ page < r.end := by
  have hc := find?_some h
  exact (contains_iff r page).mp hc

/-- An edit that is right inside its range keeps every backing exactly when it
cuts no shared region. -/
theorem backingKept_iff {g : Region → List Region} {protOf : Nat → Region → Prot}
    (hse : start ≤ stop)
    (houter : ∀ page, (page < start ∨ stop ≤ page) → ∀ r, (g r).find? (·.contains page) =
      if r.contains page then some (r.outerPiece start stop page) else none)
    (hprot : ∀ page r, (page < start ∨ stop ≤ page) → protOf page r = r.prot)
    (hinner : ∀ page, start ≤ page ∧ page < stop → ∀ r', findRegion (rs.flatMap g) page = some r' →
      ∃ r, findRegion rs page = some r ∧ r'.backingAt page = r.backingAt page ∧
        r'.growsDown = r.growsDown ∧ r'.prot = protOf page r) :
    BackingKept rs (rs.flatMap g) protOf ↔ SharedUncut rs stop := by
  constructor
  · intro hk page hpa hp r hr hsh
    by_contra hlt
    have hc := findRegion_contains hr
    have hu : ¬ r.Untouched start stop := by unfold Region.Untouched; omega
    have hnew : findRegion (rs.flatMap g) page = some (r.tailFrom stop) := by
      rw [findRegion_flatMap (houter page (.inr hp)) rs, hr, Option.map_some, outerPiece,
        if_neg hu, if_neg (by omega)]
    obtain ⟨r2, hr2, hb, -⟩ := hk page hpa _ hnew
    rw [hr] at hr2
    cases hr2
    exact hsh ((tailFrom_backingAt (by omega) hp).mp hb)
  intro hcut page hpa r' hr'
  by_cases hin : start ≤ page ∧ page < stop
  · exact hinner page hin r' hr'
  have hp : page < start ∨ stop ≤ page := by omega
  rw [findRegion_flatMap (houter page hp) rs] at hr'
  obtain ⟨r, hr, rfl⟩ := Option.map_eq_some_iff.mp hr'
  refine ⟨r, hr, ?_, outerPiece_growsDown r, ?_⟩
  · unfold outerPiece
    by_cases hu : r.Untouched start stop
    · rw [if_pos hu]
    rw [if_neg hu]
    by_cases hlt : page < start
    · rw [if_pos hlt]
      rfl
    rw [if_neg hlt]
    have hge : stop ≤ page := by omega
    have hs : r.start < stop := by unfold Region.Untouched at hu; omega
    refine (tailFrom_backingAt hs hge).mpr ?_
    by_contra hn
    have h := hcut page hpa hge r hr hn
    omega
  · rw [hprot page r hp]
    exact outerPiece_prot r

/-- `protect` maps the pages that were mapped before, and no others. -/
theorem protectPieces_isSome (prot : Prot) (hse : start ≤ stop) (page : Nat) :
    (findRegion (rs.flatMap (protectPieces start stop prot)) page).isSome =
      (findRegion rs page).isSome := by
  by_cases hin : start ≤ page ∧ page < stop
  · rw [findRegion_flatMap (protectPieces_find_inner prot hin), Option.isSome_map]
  · have hp : page < start ∨ stop ≤ page := by omega
    rw [findRegion_flatMap (protectPieces_find prot hse hp), Option.isSome_map]

/-- The protection of a page after `protect`: the new one inside the range. -/
def protAfter (start len : Nat) (prot : Prot) (page : Nat) (r : Region) : Prot :=
  if alignDown start ≤ page ∧ page < rangeEnd start len then prot else r.prot

/-- **`unmap` and `protect` keep what every page is backed by, and `protect`
changes protections inside its range only, exactly when no shared region is cut
below its end.** -/
theorem split_keeps_backing_iff (A : FrameAllocator φ) (k k' : Kernel φ) (s start len : Nat)
    (prot : Prot) :
    (unmap A s start len k = .ok () k' →
      (BackingKept (k.spaces s).regions (k'.spaces s).regions (fun _ r => r.prot) ↔
        SharedUncut (k.spaces s).regions (rangeEnd start len))) ∧
    (protect s start len prot k = .ok () k' →
      (∀ page, (findRegion (k'.spaces s).regions page).isSome =
        (findRegion (k.spaces s).regions page).isSome) ∧
      (BackingKept (k.spaces s).regions (k'.spaces s).regions (protAfter start len prot) ↔
        SharedUncut (k.spaces s).regions (rangeEnd start len))) := by
  have hse := alignDown_le_rangeEnd start len
  constructor
  · intro h
    rw [unmap_regions h]
    refine backingKept_iff hse (fun page hp => unmapPieces_find hse hp) (fun _ _ _ => rfl) ?_
    intro page hp r' hr'
    have hn : findRegion ((k.spaces s).regions.flatMap
        (unmapPieces (alignDown start) (rangeEnd start len))) page = none := by
      rw [findRegion, find?_flatMap, findSome?_eq_none_iff]
      intro r _
      exact unmapPieces_find_inner hp r
    rw [hn] at hr'
    cases hr'
  · intro h
    rw [protect_regions h]
    refine ⟨protectPieces_isSome prot hse, ?_⟩
    refine backingKept_iff hse (fun page hp => protectPieces_find prot hse hp) ?_ ?_
    · intro page r hp
      exact if_neg (by omega)
    intro page hp r' hr'
    rw [findRegion_flatMap (protectPieces_find_inner prot hp)] at hr'
    obtain ⟨r, hr, rfl⟩ := Option.map_eq_some_iff.mp hr'
    have hc := findRegion_contains hr
    refine ⟨r, hr, middle_backingAt hp.1 hc.1, rfl, ?_⟩
    exact (if_pos hp).symm

/-- Space 0 maps three pages of shared object 0. -/
def sharedKernel : Kernel (List PhysAddr) :=
  (bootKernel 4).setRegions 0
    [{ start := 0x10000, «end» := 0x13000, prot := { read := true, write := true }, shared := some 0 }]

/-- Unmapping the middle page moves the third page onto the object's first. -/
theorem unmap_moves_shared_page :
    ∃ k', unmap listAllocator 0 0x11000 0x1000 sharedKernel = .ok () k' ∧
      ¬ BackingKept (sharedKernel.spaces 0).regions (k'.spaces 0).regions (fun _ r => r.prot) := by
  refine ⟨_, rfl, ?_⟩
  intro h
  obtain ⟨r, hr, hb, -⟩ := h 0x12000 (by decide) _ rfl
  cases hr
  exact absurd hb (by decide)

/-- The last of the three pages can be unmapped or re-protected. -/
theorem split_keeps_backing_iff_shared :
    (∃ k', unmap listAllocator 0 0x12000 0x1000 sharedKernel = .ok () k' ∧
      (BackingKept (sharedKernel.spaces 0).regions (k'.spaces 0).regions (fun _ r => r.prot) ↔
        SharedUncut (sharedKernel.spaces 0).regions (rangeEnd 0x12000 0x1000))) ∧
    (∃ k', protect 0 0x12000 0x1000 {} sharedKernel = .ok () k' ∧
      (BackingKept (sharedKernel.spaces 0).regions (k'.spaces 0).regions
          (protAfter 0x12000 0x1000 {}) ↔
        SharedUncut (sharedKernel.spaces 0).regions (rangeEnd 0x12000 0x1000))) :=
  ⟨⟨_, rfl, (split_keeps_backing_iff listAllocator sharedKernel _ 0 0x12000 0x1000 {}).1 rfl⟩,
    ⟨_, rfl, ((split_keeps_backing_iff listAllocator sharedKernel _ 0 0x12000 0x1000 {}).2 rfl).2⟩⟩

end Fastros.Mm
