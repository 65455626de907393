import Fastros.Alloc.BuddyRuns
import Fastros.Mm.Separation

/-!
# The memory manager on the buddy allocator

`mm/frame.rs` hands out single frames of the buddy allocator by their address.
With its tables in order that is a frame allocator as the memory manager needs it.
-/

namespace Fastros.Mm

open Alloc Lib.Dyadic Lib.Run

/-- The tables are in order. -/
def Intact (b : Buddy) : Prop := ∃ m L, Whole b m L

variable {b b' : Buddy} {i : Nat}

/-- Free are the frames in no other block. -/
theorem isFree_iff_apart {m : Nat → Option (Alloc.Kind × Nat)} {L : Nat → List Nat} (h : Whole b m L)
    (j : Nat) : b.isFree j = true ↔
      j < b.frames ∧ ∀ s k o, k ≠ .free → m s = some (k, o) → ¬ SameCell o s j := by
  rw [isFree_iff h, h.freeAt_iff]
  grind

theorem alloc_frame (h : Intact b) (hr : b.alloc 0 = some (some i, b')) :
    Intact b' ∧ b.isFree i = true ∧ ∀ j, b'.isFree j = true ↔ b.isFree j = true ∧ j ≠ i := by
  obtain ⟨m, L, h⟩ := h
  by_cases hsome : ∃ q, 0 ≤ q ∧ q ≤ maxOrder ∧ L q ≠ []
  · obtain ⟨i', b1, m', L', hrun, hw, hf, ⟨q, -, hmem⟩, hch⟩ := alloc_some h (Nat.zero_le _) hsome
    rw [hr] at hrun
    cases hrun
    have hi : m' i = some (.used, 0) := (hch i .used 0 (by decide)).mpr (.inr ⟨rfl, rfl, rfl⟩)
    have hcell : SameCell 0 i i := .refl 0 i
    refine ⟨⟨m', L', hw⟩, (isFree_iff h).mpr ⟨i, q, h.inv.mem.mp hmem, .refl q i⟩, fun j => ?_⟩
    rw [isFree_iff_apart h, isFree_iff_apart hw, hf]
    grind [sameCell_zero]
  · push Not at hsome
    rw [alloc_none h (Nat.zero_le _) hsome] at hr
    cases hr

theorem alloc_no_frame (h : Intact b) (hr : ∀ i b', b.alloc 0 ≠ some (some i, b')) (j : Nat) :
    b.isFree j ≠ true := by
  obtain ⟨m, L, h⟩ := h
  intro hj
  obtain ⟨s, o, hs, -⟩ := (isFree_iff h).mp hj
  obtain ⟨i, b', _, _, hrun, -⟩ := alloc_some h (Nat.zero_le _)
    ⟨o, Nat.zero_le _, h.inv.tiling.order hs, List.ne_nil_of_mem (h.inv.mem.mpr hs)⟩
  exact hr i b' hrun

theorem free_frame (h : Intact b) (hr : b.free i 0 = some (.ok (), b')) :
    Intact b' ∧ ∀ j, b'.isFree j = true ↔ b.isFree j = true ∨ j = i := by
  obtain ⟨m, L, h⟩ := h
  by_cases hm : m i = some (.used, 0)
  · obtain ⟨b1, m', L', hrun, hw, hf, hch⟩ := free_of_used h hm
    rw [hr] at hrun
    cases hrun
    have hlt := h.inv.head_lt hm
    have hown : ∀ s k o, m s = some (k, o) → SameCell o s i → s = i := fun s k o hs hc =>
      h.inv.tiling.unique hs hm hc (.refl 0 i)
    refine ⟨⟨m', L', hw⟩, fun j => ?_⟩
    rw [isFree_iff_apart h, isFree_iff_apart hw, hf]
    grind [sameCell_zero]
  · obtain ⟨e, hrun⟩ := free_of_not_used h hm
    rw [hr] at hrun
    cases hrun

def Tables : Type := { b : Buddy // Intact b }

namespace Tables

/-- `frame::alloc(0)`. -/
def alloc (t : Tables) : Option (PhysAddr × Tables) :=
  match hr : t.1.alloc 0 with
  | some (some i, b) => some (i * pageSize, ⟨b, (alloc_frame t.2 hr).1⟩)
  | _ => none

/-- `frame::free(p, 0)` for the address of a frame; entries have no others. -/
def free (t : Tables) (p : PhysAddr) : Option Tables :=
  if pageSize ∣ p then
    match hr : t.1.free (p / pageSize) 0 with
    | some (.ok (), b) => some ⟨b, (free_frame t.2 hr).1⟩
    | _ => none
  else none

end Tables

def buddyFrames : FrameAllocator Tables where
  alloc := Tables.alloc
  free := Tables.free
  isFree t p := pageSize ∣ p ∧ t.1.isFree (p / pageSize) = true
  alloc_isFree := by
    intro t p t' h
    unfold Tables.alloc at h
    split at h
    · next hr =>
      cases h
      rw [Nat.mul_div_cancel _ (by decide)]
      exact ⟨Nat.dvd_mul_left _ _, (alloc_frame t.2 hr).2.1⟩
    · cases h
  alloc_iff := by
    intro t p t' h q
    unfold Tables.alloc at h
    split at h
    · next hr =>
      cases h
      rw [and_assoc, (alloc_frame t.2 hr).2.2]
      exact and_congr_right fun hq => and_congr_right fun _ =>
        not_congr (Nat.div_eq_iff_eq_mul_left (by decide) hq)
    · cases h
  alloc_none := by
    intro t h q hq
    unfold Tables.alloc at h
    split at h
    · cases h
    · next hr => exact alloc_no_frame t.2 hr _ hq.2
  free_iff := by
    intro t p t' h q
    unfold Tables.free at h
    split at h
    · next hp =>
      split at h
      · next hr =>
        cases h
        have hsame : pageSize ∣ q → (q / pageSize = p / pageSize ↔ q = p) :=
          fun hq => Nat.div_left_inj hq hp
        rw [(free_frame t.2 hr).2]
        grind
      · cases h
    · cases h

/-- **In a run from boot on the buddy allocator whose acts all fit, a frame in use
is in no free block: it is counted for every page and object that holds it, or it
is a page table of one live process and nothing else.** -/
theorem buddy_run_owned (k : Kernel Tables) (hboot : k.Booted) (acts : List Act)
    (hfit : Throughout (Procs.step buddyFrames) (fun m a => a.Fits buddyFrames m) acts ⟨k, []⟩) (n : Nat)
    (m : Procs Tables) (hrun : runs (Procs.step buddyFrames) (acts.take n) ⟨k, []⟩ = some m) (i : Nat) :
    let T := m.kernel.tally buddyFrames
    let f := i * pageSize
    (∀ l : List Holder, l.Nodup → (∀ h ∈ l, T.Holds f h) → l.length ≤ T.refs f) ∧
      (∀ h, T.Holds f h → m.kernel.frames.1.isFree i ≠ true) ∧
      ∀ s ∈ m.live, f ∈ T.tables s → m.kernel.frames.1.isFree i ≠ true ∧ (T.tables s).count f = 1 ∧
        (∀ h, ¬ T.Holds f h) ∧ ∀ t ∈ m.live, t ≠ s → f ∉ T.tables t := by
  have hstart : Secure buddyFrames (· ∈ ([] : List Nat)) k := booted_secure hboot fun _ h => by cases h
  have hown := (throughout_invariant
    (fun m a m' h hf hs => step_secure a h hf hs) acts _ hstart hfit n m hrun).own
  have hfree : m.kernel.frames.1.isFree i = true → buddyFrames.isFree m.kernel.frames (i * pageSize) :=
    fun h => ⟨Nat.dvd_mul_left _ _, by rwa [Nat.mul_div_cancel _ (by decide)]⟩
  refine ⟨fun l hl hh => Nat.le_of_add_right_le (hown.refs _ l hl hh),
    fun h hh hi => (hown.free _ (hfree hi)).2 h hh, fun s hs hf => ?_⟩
  have hun := hown.tables_unused s hs _ hf
  exact ⟨fun hi => hun (.inl (hfree hi)), List.count_eq_one_of_mem (hown.tables_nodup s hs) hf,
    fun h hh => hun (.inr (.inr ⟨h, hh⟩)), fun t ht hts => hown.tables_apart s t hs ht hts.symm _ hf⟩

/-- Nine free frames. -/
def nineFrames : Tables :=
  let b := Buddy.new (fun _ => ⟨none, none⟩) 9
  ⟨(b.addRange 0 9).getD b, by
    obtain ⟨b', m, L, hrun, hw, -⟩ := addRange_spec (kept_boot (fun _ => ⟨none, none⟩) 9).whole 0 9
    exact ⟨m, L, by rwa [show b.addRange 0 9 = some b' from hrun]⟩⟩

/-- The kernel at boot with those frames. -/
def buddyKernel : Kernel Tables := { bootKernel 9 with frames := nineFrames }

/-- A page is stored to and shared copy-on-write with a child: its frame is in use
and counted for both, and the child has a root table of its own. -/
theorem buddy_run_owned_copy : ∃ m, runs (Procs.step buddyFrames) (copyRun.take 5) ⟨buddyKernel, []⟩ =
      some m ∧
    (m.kernel.tally buddyFrames).Holds 0 (.page 1 16) ∧ (m.kernel.tally buddyFrames).Holds 0 (.page 2 16) ∧
      2 ≤ m.kernel.refs 0 ∧ m.kernel.frames.1.isFree 0 ≠ true ∧
      4 * pageSize ∈ (m.kernel.spaces 2).tableFrames ∧ m.kernel.frames.1.isFree 4 ≠ true ∧
      4 * pageSize ∉ (m.kernel.spaces 1).tableFrames := by
  have hobs : (runs (Procs.step buddyFrames) (copyRun.take 5) ⟨buddyKernel, []⟩).map (fun m =>
      decide (m.live = [2, 1] ∧ 4 * pageSize ∈ (m.kernel.spaces 2).tableFrames ∧
        ((m.kernel.spaces 1).pt 16).present = true ∧ ((m.kernel.spaces 1).pt 16).addr = 0 ∧
        ((m.kernel.spaces 2).pt 16).present = true ∧ ((m.kernel.spaces 2).pt 16).addr = 0)) =
      some true := by
    decide +kernel
  obtain ⟨m, hm, hval⟩ := Option.map_eq_some_iff.mp hobs
  obtain ⟨hlive, htable, hp1, ha1, hp2, ha2⟩ := of_decide_eq_true hval
  have hfit : Throughout (Procs.step buddyFrames) (fun m a => a.Fits buddyFrames m) copyRun
      ⟨buddyKernel, []⟩ :=
    ⟨trivial, fun _ _ => ⟨⟨trivial, trivial⟩, fun _ _ => ⟨⟨trivial, trivial⟩, fun _ _ =>
      ⟨trivial, fun _ _ => ⟨trivial, fun _ _ => ⟨⟨trivial, trivial⟩, fun _ _ => trivial⟩⟩⟩⟩⟩⟩
  have hown := buddy_run_owned buddyKernel ⟨fun _ => rfl, fun _ => rfl, fun _ _ h => by cases h⟩ copyRun
    hfit 5 m hm
  have h1 : (m.kernel.tally buddyFrames).Holds (0 * pageSize) (.page 1 16) := ⟨by decide, hp1, ha1⟩
  have h2 : (m.kernel.tally buddyFrames).Holds (0 * pageSize) (.page 2 16) := ⟨by decide, hp2, ha2⟩
  have hlive2 : 2 ∈ m.live := by simp [hlive]
  have hroot := (hown 4).2.2 2 hlive2 htable
  refine ⟨m, hm, h1, h2, ?_, (hown 0).2.1 _ h1, htable, hroot.1,
    hroot.2.2.2 1 (by simp [hlive]) (by decide)⟩
  exact (hown 0).1 [.page 1 16, .page 2 16] (by decide)
    (List.forall_mem_cons.mpr ⟨h1, List.forall_mem_singleton.mpr h2⟩)

end Fastros.Mm
