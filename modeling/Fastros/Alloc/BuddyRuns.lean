import Fastros.Alloc.BuddyOps
import Fastros.Lib.Run

/-!
# Runs of the buddy allocator

From an empty allocator no sequence of calls panics, and after each one the blocks
tile the frames that were added, the lists hold the free blocks, the counters agree
with them and free buddies are merged. Because of that the allocator never hides
free memory: a request fails only if no run of frames would do, and the free blocks
are determined by the frames that are free.
-/

namespace Fastros.Alloc

open Lib.Dyadic List
open Lib.Linked (Segment Link follow)
open Lib.Run (runs runs_total)

namespace Buddy

def Free (b : Buddy) (o i : Nat) : Prop := o ≤ maxOrder ∧ i < b.frames ∧ b.state i = freeMark o

def Used (b : Buddy) (o i : Nat) : Prop := o ≤ maxOrder ∧ i < b.frames ∧ b.state i = usedMark o

/-- A free or allocated block of order `o` starts at `i`. -/
def Block (b : Buddy) (o i : Nat) : Prop := b.Free o i ∨ b.Used o i

/-- The nodes on the list of an order. -/
def freeList (b : Buddy) (o : Nat) : List Nat := follow b.links (b.counts o) (b.heads o)

end Buddy

/-- The frame was added. -/
def Ledger.Added (s : Ledger) (j : Nat) : Prop :=
  j < s.buddy.frames ∧ ∃ r ∈ s.added, r.1 ≤ j ∧ j < r.2

/-- The blocks tile the added frames and the tables describe them. -/
structure Sound (s : Ledger) : Prop where
  aligned : ∀ o i, s.buddy.Block o i → 2 ^ o ∣ i
  disjoint : ∀ o i o' i' j, s.buddy.Block o i → s.buddy.Block o' i' →
    i ≤ j → j < i + 2 ^ o → i' ≤ j → j < i' + 2 ^ o' → o = o' ∧ i = i'
  covered : ∀ j, s.Added j →
    (j ∈ s.reserved ↔ ¬ ∃ o i, s.buddy.Block o i ∧ i ≤ j ∧ j < i + 2 ^ o)
  reserved : ∀ j ∈ s.reserved, s.Added j
  within : ∀ o i j, s.buddy.Block o i → i ≤ j → j < i + 2 ^ o → s.Added j
  handed : s.live.Nodup ∧ ∀ o i, s.buddy.Used o i ↔ (i, o) ∈ s.live
  listed : ∀ o ≤ maxOrder, (s.buddy.freeList o).Nodup ∧
    (∀ i, i ∈ s.buddy.freeList o ↔ s.buddy.Free o i) ∧
    Segment s.buddy.links none (s.buddy.freeList o) none ∧
    s.buddy.heads o = (s.buddy.freeList o).head?
  counted : ∀ o ≤ maxOrder, s.buddy.counts o = (s.buddy.freeList o).length
  total : s.buddy.freeFrames =
    ∑ o ∈ Finset.range (maxOrder + 1), (s.buddy.freeList o).length * 2 ^ o
  coalesced : ∀ o i, o < maxOrder → s.buddy.Free o i → ¬ s.buddy.Free o (i ^^^ 2 ^ o)

/-- The tables are whole, and the callers' ledger agrees with them. -/
structure Kept (s : Ledger) (m : Nat → Option (Kind × Nat)) (L : Nat → List Nat) : Prop where
  whole : Whole s.buddy m L
  nodup : s.live.Nodup
  live : ∀ i o, (i, o) ∈ s.live ↔ m i = some (.used, o)
  reserved : ∀ j ∈ s.reserved, s.Added j
  rest : ∀ j, j < s.buddy.frames →
    (m j = some (.reserved, 0) ↔ (s.Added j → j ∈ s.reserved))

variable {s s' : Ledger} {b : Buddy} {m m' : Nat → Option (Kind × Nat)} {L L' : Nat → List Nat}
  {i o : Nat}

theorem kept_boot (memory : Nat → Link Nat) (frames : Nat) :
    Kept (boot memory frames) (fun i => if i < frames then some (.reserved, 0) else none)
      (fun _ => []) := by
  have hmem : ∀ {i : Nat} {k : Kind} {o : Nat},
      (if i < frames then some (Kind.reserved, 0) else none) = some (k, o) →
      i < frames ∧ k = .reserved ∧ o = 0 := by
    intro i k o h
    obtain ⟨hlt, h⟩ := Option.ite_none_right_eq_some.mp h
    cases h
    exact ⟨hlt, rfl, rfl⟩
  refine ⟨⟨⟨?_, ⟨?_, ?_, ?_, ?_, ?_, ?_⟩, ?_, ?_, ?_, ?_, ?_, ?_, ?_⟩, ?_, ?_⟩, nodup_nil, ?_, ?_, ?_⟩
  · intro i hi
    have hlt : i < frames := hi
    simp [boot, Buddy.new, hlt, byte]
  · exact False.elim
  · intro i hi hm
    have hlt : i < frames := hi
    simp [hlt] at hm
  · intro i k o h
    rw [(hmem h).2.2]
    exact Nat.zero_le _
  · intro i k o h
    rw [(hmem h).2.2]
    exact Nat.one_dvd i
  · intro i k o h
    rw [(hmem h).2.2]
    exact (hmem h).1
  · intro i k o j h hc
    rw [(hmem h).2.2, sameCell_zero] at hc
    exact ⟨id, fun hne => absurd hc.symm hne⟩
  · intro i o h
    exact (hmem h).2.2
  · exact fun _ => nodup_nil
  · exact fun _ => trivial
  · exact fun _ => rfl
  · exact fun _ => rfl
  · intro o i
    refine ⟨fun h => absurd h not_mem_nil, fun h => ?_⟩
    have := (hmem h).2.1
    cases this
  · intro o i _ h
    exact absurd h not_mem_nil
  · simp [boot, Buddy.new, weight]
  · have hnone : (Finset.range frames).filter (fun i =>
        (if i < frames then some (Kind.reserved, 0) else none) ≠ some (.reserved, 0)) = ∅ := by
      apply Finset.filter_eq_empty_iff.mpr
      intro i hi
      simp [Finset.mem_range.mp hi]
    simp only [boot, Buddy.new, managed, hnone, Finset.card_empty]
  · intro i o
    refine ⟨fun h => absurd h not_mem_nil, fun h => ?_⟩
    have := (hmem h).2.1
    cases this
  · exact fun j h => absurd h not_mem_nil
  · intro j hj
    have hlt : j < frames := hj
    simp [hlt, boot, Ledger.Added]

/-- A call is taken, and the tables are in order after it. -/
abbrev Taken (call : Call) (s : Ledger) : Prop := ∃ s', step call s = some s' ∧ ∃ m L, Kept s' m L

section

variable (h : Kept s m L)
include h

theorem addRange_kept (start stop : Nat) : Taken (.addRange start stop) s := by
  obtain ⟨b', m', L', hrun, hw, hf, hch⟩ := addRange_spec h.whole start stop
  refine ⟨{ s with
    buddy := b', added := (start, stop) :: s.added
    reserved := s.reserved.filter fun j => ¬ (start ≤ j ∧ j < stop) }, ?_, m', L', hw, h.nodup, ?_, ?_, ?_⟩
  · simp [step, hrun]
  · intro i o
    rw [h.live, hch i .used o (by decide)]
    simp
  · intro j hj
    obtain ⟨hlt, r, hr, hin⟩ := h.reserved j (mem_filter.mp hj).1
    exact ⟨hf ▸ hlt, r, mem_cons_of_mem _ hr, hin⟩
  intro j hj
  have hlt : j < s.buddy.frames := hf ▸ hj
  rw [hch j .reserved 0 (by decide), h.rest j hlt]
  simp only [Ledger.Added, hlt, hj, mem_filter, mem_cons, true_and]
  by_cases hin : start ≤ j ∧ j < stop
  · simp [hin, hlt]
  · simp only [hin, not_false_eq_true, decide_true, and_true]
    grind

/-- A call that takes and gives back no reserved frame keeps the frames at rest. -/
theorem rest_of_same (hf : b.frames = s.buddy.frames)
    (hres : ∀ j, m' j = some (.reserved, 0) ↔ m j = some (.reserved, 0)) (live : List (Nat × Nat)) :
    let t : Ledger := { s with buddy := b, live }
    (∀ j ∈ t.reserved, t.Added j) ∧
      ∀ j, j < t.buddy.frames → (m' j = some (.reserved, 0) ↔ (t.Added j → j ∈ t.reserved)) := by
  have hadd : ∀ j, Ledger.Added { s with buddy := b, live } j ↔ s.Added j := by
    simp [Ledger.Added, hf]
  exact ⟨fun j hj => (hadd j).mpr (h.reserved j hj),
    fun j hj => by rw [hres, h.rest j (hf ▸ hj), hadd]⟩

theorem reserveRange_kept (start stop : Nat) : Taken (.reserveRange start stop) s := by
  by_cases hfree : ∀ j, start ≤ j → j < min stop s.buddy.frames → FreeAt m j
  · obtain ⟨b', m', L', hrun, hw, hf, hch⟩ := reserveRange_true h.whole start stop hfree
    have hadd : ∀ j, j < s.buddy.frames → FreeAt m j → s.Added j := by
      rintro j hj ⟨i, o, hi, hc⟩
      by_contra hout
      have hr := (h.rest j hj).mpr fun ha => absurd ha hout
      obtain rfl := h.whole.inv.tiling.unique hi hr hc (.refl 0 j)
      rw [hi] at hr
      cases hr
    have hmem : ∀ j, j ∈ range' start (min stop s.buddy.frames - start) ↔
        start ≤ j ∧ j < min stop s.buddy.frames := by
      intro j
      rw [mem_range'_1]
      omega
    refine ⟨{ s with
      buddy := b', reserved := range' start (min stop s.buddy.frames - start) ++ s.reserved },
      ?_, m', L', hw, h.nodup, ?_, ?_, ?_⟩
    · simp [step, hrun]
    · intro i o
      rw [h.live, hch i .used o (by decide)]
      simp
    · intro j hj
      have hold : s.Added j := by
        rcases mem_append.mp hj with hj | hj
        · obtain ⟨h1, h2⟩ := (hmem j).mp hj
          exact hadd j (by omega) (hfree j h1 h2)
        · exact h.reserved j hj
      exact ⟨hf ▸ hold.1, hold.2⟩
    · intro j hj
      have hlt : j < s.buddy.frames := hf ▸ hj
      rw [hch j .reserved 0 (by decide), h.rest j hlt, mem_append, hmem]
      have hadd' : Ledger.Added { s with
          buddy := b', reserved := range' start (min stop s.buddy.frames - start) ++ s.reserved } j ↔
          s.Added j := and_congr_left' (iff_of_true hj hlt)
      rw [hadd']
      tauto
  · push Not at hfree
    obtain ⟨j, h1, h2, hj⟩ := hfree
    have hfalse : s.buddy.isFree j = false := by
      rw [← Bool.not_eq_true, isFree_iff h.whole]
      exact hj
    refine ⟨s, ?_, m, L, h⟩
    simp [step, reserveRange_false s.buddy start stop ⟨j, h1, h2, hfalse⟩]

theorem alloc_kept (order : Nat) : Taken (.alloc order) s := by
  by_cases ho : order ≤ maxOrder
  · by_cases hsome : ∃ q, order ≤ q ∧ q ≤ maxOrder ∧ L q ≠ []
    · obtain ⟨i, b', m', L', hrun, hw, hf, ⟨q, _, hmem⟩, hch⟩ := alloc_some h.whole ho hsome
      have hm := h.whole.inv.mem.mp hmem
      have hres : ∀ j, m' j = some (.reserved, 0) ↔ m j = some (.reserved, 0) := by
        intro j
        simp [hch j .reserved 0 (by decide)]
      obtain ⟨hin, hrest⟩ := rest_of_same h hf hres ((i, order) :: s.live)
      refine ⟨{ s with buddy := b', live := (i, order) :: s.live }, ?_, m', L', hw, ?_, ?_, hin, hrest⟩
      · simp [step, hrun]
      · refine nodup_cons.mpr ⟨fun hin => ?_, h.nodup⟩
        rw [h.live, hm] at hin
        cases hin
      · intro j o
        rw [hch j .used o (by decide), mem_cons, h.live, Prod.mk.injEq]
        tauto
    · push Not at hsome
      refine ⟨s, ?_, m, L, h⟩
      simp [step, alloc_none h.whole ho hsome]
  · refine ⟨s, ?_, m, L, h⟩
    simp [step, Buddy.alloc, Nat.lt_of_not_le ho]

theorem free_kept (idx order : Nat) : Taken (.free idx order) s := by
  by_cases hm : m idx = some (.used, order)
  · obtain ⟨b', m', L', hrun, hw, hf, hch⟩ := free_of_used h.whole hm
    have hres : ∀ j, m' j = some (.reserved, 0) ↔ m j = some (.reserved, 0) := by
      intro j
      rw [hch j .reserved 0 (by decide)]
      refine and_iff_left_of_imp fun hj => ?_
      rintro rfl
      rw [hm] at hj
      cases hj
    obtain ⟨hin, hrest⟩ := rest_of_same h hf hres (s.live.erase (idx, order))
    refine ⟨{ s with buddy := b', live := s.live.erase (idx, order) }, ?_, m', L', hw,
      h.nodup.erase _, ?_, hin, hrest⟩
    · simp [step, hrun]
    · intro j o
      rw [hch j .used o (by decide), h.nodup.mem_erase_iff, h.live]
      constructor
      · rintro ⟨hne, hj⟩
        refine ⟨hj, ?_⟩
        rintro rfl
        rw [hm] at hj
        cases hj
        exact hne rfl
      · rintro ⟨hj, hne⟩
        exact ⟨fun he => hne (Prod.mk.inj he).1, hj⟩
  · obtain ⟨e, hrun⟩ := free_of_not_used h.whole hm
    refine ⟨s, ?_, m, L, h⟩
    simp [step, hrun]

theorem scribble_kept (idx : Nat) (words : Link Nat) : Taken (.scribble idx words) s := by
  rw [Taken, step]
  split
  · exact ⟨s, rfl, m, L, h⟩
  next hfree =>
  refine ⟨_, rfl, m, L, ⟨?_, h.whole.free, h.whole.managed⟩, h.nodup, h.live, h.reserved, h.rest⟩
  have hnot : ∀ o, idx ∉ L o := fun o hin =>
    hfree ((isFree_iff h.whole).mpr ⟨idx, o, h.whole.inv.mem.mp hin, .refl o idx⟩)
  have hinv := h.whole.inv
  exact ⟨hinv.bytes, hinv.tiling, hinv.single, hinv.nodup,
    fun o => (hinv.linked o).update (hnot o) words, hinv.heads, hinv.counts, hinv.mem, hinv.merged⟩

end

theorem step_kept (h : ∃ m L, Kept s m L) (call : Call) : Taken call s := by
  obtain ⟨m, L, h⟩ := h
  cases call with
  | addRange start stop => exact addRange_kept h start stop
  | reserveRange start stop => exact reserveRange_kept h start stop
  | alloc order => exact alloc_kept h order
  | free idx order => exact free_kept h idx order
  | scribble idx words => exact scribble_kept h idx words

theorem run_kept (memory : Nat → Link Nat) (frames : Nat) (calls : List Call) :
    ∃ s, runs step calls (boot memory frames) = some s ∧ ∃ m L, Kept s m L :=
  runs_total (fun _ call h => step_kept h call) calls _ ⟨_, _, kept_boot memory frames⟩

variable {H : Nat → Prop}

section

variable (h : Inv b m L H)
include h

theorem Inv.free_iff : b.Free o i ↔ m i = some (.free, o) := by
  constructor
  · rintro ⟨ho, hlt, hst⟩
    exact (h.state_free hlt ho).mp hst
  · intro hm
    have ho := h.order i _ _ hm
    exact ⟨ho, h.head_lt hm, (h.state_free (h.head_lt hm) ho).mpr hm⟩

theorem Inv.usedBlock_iff : b.Used o i ↔ m i = some (.used, o) := by
  constructor
  · rintro ⟨ho, hlt, hst⟩
    obtain ⟨q, hq⟩ := (h.used_iff hlt).mp (by rw [hst]; exact (usedMark_fields o ho).1)
    have hord := h.used_order hq
    rw [hst, (usedMark_fields o ho).2] at hord
    rw [hq, hord]
  · intro hm
    refine ⟨h.order i _ _ hm, h.head_lt hm, ?_⟩
    rw [h.bytes (h.head_lt hm), hm, byte]

theorem Inv.freeList_eq (o : Nat) : b.freeList o = L o := by
  rw [Buddy.freeList, h.counts, h.heads, (h.linked o).follow_eq]

/-- A block is one of the blocks of the tiling that are not reserved frames. -/
theorem Inv.block_iff : b.Block o i ↔ ∃ k, k ≠ .reserved ∧ m i = some (k, o) := by
  rw [Buddy.Block, h.free_iff, h.usedBlock_iff]
  constructor
  · rintro (hm | hm)
    · exact ⟨.free, by decide, hm⟩
    · exact ⟨.used, by decide, hm⟩
  rintro ⟨k, hk, hm⟩
  cases k with
  | free => exact .inl hm
  | used => exact .inr hm
  | reserved => exact absurd rfl hk

end

theorem Kept.sound (h : Kept s m L) : Sound s := by
  have hinv := h.whole.inv
  have hcell : ∀ {k : Kind} {o i : Nat}, m i = some (k, o) → ∀ j,
      SameCell o i j ↔ i ≤ j ∧ j < i + 2 ^ o := fun hm j => sameCell_iff (hinv.tiling.aligned hm)
  constructor
  · intro o i hb
    obtain ⟨k, _, hm⟩ := hinv.block_iff.mp hb
    exact hinv.tiling.aligned hm
  · intro o i o' i' j hb hb' h1 h2 h3 h4
    obtain ⟨k, _, hm⟩ := hinv.block_iff.mp hb
    obtain ⟨k', _, hm'⟩ := hinv.block_iff.mp hb'
    obtain rfl := hinv.tiling.unique hm hm' ((hcell hm j).mpr ⟨h1, h2⟩) ((hcell hm' j).mpr ⟨h3, h4⟩)
    rw [hm] at hm'
    simp only [Option.some.injEq, Prod.mk.injEq] at hm'
    exact ⟨hm'.2, rfl⟩
  · intro j hadd
    have hres : j ∈ s.reserved ↔ m j = some (.reserved, 0) := by
      rw [h.rest j hadd.1]
      exact ⟨fun hj _ => hj, fun hj => hj hadd⟩
    rw [hres]
    constructor
    · rintro hr ⟨o, i, hb, hin⟩
      obtain ⟨k, hk, hm⟩ := hinv.block_iff.mp hb
      obtain rfl := hinv.tiling.unique hm hr ((hcell hm j).mpr hin) (.refl 0 j)
      rw [hm] at hr
      cases hr
      exact hk rfl
    intro hnot
    rcases hinv.tiling.cases hadd.1 with hf | ⟨i, k, o, hm, hc⟩
    · exact hf.elim
    by_cases hk : k = .reserved
    · subst hk
      obtain rfl := hinv.single hm
      rw [sameCell_zero] at hc
      rwa [← hc]
    · exact absurd ⟨o, i, hinv.block_iff.mpr ⟨k, hk, hm⟩, (hcell hm j).mp hc⟩ hnot
  · exact h.reserved
  · intro o i j hb h1 h2
    obtain ⟨k, hk, hm⟩ := hinv.block_iff.mp hb
    have hc := (hcell hm j).mpr ⟨h1, h2⟩
    by_contra hout
    have hr := (h.rest j (hinv.tiling.lt hm hc)).mpr fun ha => absurd ha hout
    obtain rfl := hinv.tiling.unique hm hr hc (.refl 0 j)
    rw [hm] at hr
    cases hr
    exact hk rfl
  · exact ⟨h.nodup, fun o i => by rw [hinv.usedBlock_iff, h.live]⟩
  · intro o _
    rw [hinv.freeList_eq]
    exact ⟨hinv.nodup o, fun i => by rw [hinv.mem, hinv.free_iff], hinv.linked o, hinv.heads o⟩
  · intro o _
    rw [hinv.freeList_eq]
    exact hinv.counts o
  · rw [h.whole.free, weight]
    simp only [hinv.freeList_eq]
  · intro o i ho hfree hbud
    exact hinv.merged ho (hinv.mem.mpr (hinv.free_iff.mp hfree)) (hinv.mem.mpr (hinv.free_iff.mp hbud))

/-- No sequence of calls panics, and the blocks tile the added frames after each. -/
theorem buddy_sound (memory : Nat → Link Nat) (frames : Nat) (calls : List Call) :
    ∃ s, runs step calls (boot memory frames) = some s ∧ Sound s := by
  obtain ⟨s, hrun, m, L, h⟩ := run_kept memory frames calls
  exact ⟨s, hrun, h.sound⟩

/-- The frame is in a free block. -/
def Buddy.FreeFrame (b : Buddy) (j : Nat) : Prop := ∃ o i, b.Free o i ∧ i ≤ j ∧ j < i + 2 ^ o

theorem Kept.merged (h : Kept s m L) : Merged maxOrder s.buddy.Free := by
  have hinv := h.whole.inv
  constructor
  · exact fun hb => hb.1
  · exact fun hb => hinv.tiling.aligned (hinv.free_iff.mp hb)
  · intro o i o' i' hb hb' ho hc
    have hm := hinv.free_iff.mp hb
    have hm' := hinv.free_iff.mp hb'
    obtain rfl := hinv.tiling.unique hm hm' (.refl o i) hc.symm
    rw [hm] at hm'
    cases hm'
    exact ⟨rfl, rfl⟩
  · intro o i hb ho hbud
    exact hinv.merged ho (hinv.mem.mpr (hinv.free_iff.mp hb)) (hinv.mem.mpr (hinv.free_iff.mp hbud))

theorem Kept.covers_iff (h : Kept s m L) (j : Nat) :
    Covers s.buddy.Free j ↔ s.buddy.FreeFrame j := by
  refine exists_congr fun o => exists_congr fun i => and_congr_right fun hb => ?_
  exact sameCell_iff (h.merged.aligned hb)

/-- A request fails exactly if no aligned run of frames is free. -/
theorem Kept.alloc_none_iff (h : Kept s m L) {order : Nat} (ho : order ≤ maxOrder) :
    (∃ b', s.buddy.alloc order = some (none, b')) ↔
      ¬ ∃ i, 2 ^ order ∣ i ∧ ∀ j, i ≤ j → j < i + 2 ^ order → s.buddy.FreeFrame j := by
  have hinv := h.whole.inv
  constructor
  · rintro ⟨b', hnone⟩ ⟨i, hal, hrun⟩
    obtain ⟨o, t, hoo, hb, _⟩ := h.merged.within ho fun j hj => by
      rw [h.covers_iff]
      obtain ⟨h1, h2⟩ := (sameCell_iff hal).mp hj
      exact hrun j h1 h2
    have hmem := hinv.mem.mpr (hinv.free_iff.mp hb)
    obtain ⟨i', b1, m', L', hsome, _⟩ := alloc_some h.whole ho
      ⟨o, hoo, hb.1, fun he => by rw [he] at hmem; cases hmem⟩
    rw [hsome] at hnone
    simp at hnone
  · intro hno
    refine ⟨s.buddy, alloc_none h.whole ho fun q hq hqm => ?_⟩
    by_contra hne
    obtain ⟨i, hi⟩ := exists_mem_of_ne_nil _ hne
    have hb := hinv.free_iff.mpr (hinv.mem.mp hi)
    have hal := h.merged.aligned hb
    have : 2 ^ order ≤ 2 ^ q := Nat.pow_le_pow_right (by decide) hq
    exact hno ⟨i, Nat.dvd_trans (pow_dvd_pow 2 hq) hal, fun j h1 h2 => ⟨q, i, hb, h1, by omega⟩⟩

/-- The free frames determine the free blocks. -/
theorem Kept.freeList_perm (h : Kept s m L) (h' : Kept s' m' L')
    (hsame : ∀ j, s.buddy.FreeFrame j ↔ s'.buddy.FreeFrame j) (o : Nat) :
    (s.buddy.freeList o).Perm (s'.buddy.freeList o) := by
  rw [h.whole.inv.freeList_eq, h'.whole.inv.freeList_eq]
  rw [perm_ext_iff_of_nodup (h.whole.inv.nodup o) (h'.whole.inv.nodup o)]
  intro i
  rw [h.whole.inv.mem, h'.whole.inv.mem, ← h.whole.inv.free_iff, ← h'.whole.inv.free_iff]
  exact h.merged.ext h'.merged fun j => by rw [h.covers_iff, h'.covers_iff, hsame]

theorem addRange_all (memory : Nat → Link Nat) (n : Nat) :
    ∃ s, runs step [.addRange 0 n] (boot memory n) = some s ∧ ∀ j, j < n → s.buddy.FreeFrame j := by
  obtain ⟨b, m, L, hrun, hw, hf, hch⟩ := addRange_spec (kept_boot memory n).whole 0 n
  have hmin : min n (boot memory n).buddy.frames = n := Nat.min_self n
  refine ⟨⟨b, [(0, n)], [], []⟩, ?_, ?_⟩
  · rw [runs, step, hrun]
    rfl
  intro j hj
  -- every frame was reserved, and none is any more
  obtain ⟨i, o, hm, hc⟩ : FreeAt m j := by
    rw [hw.freeAt_iff]
    refine ⟨by omega, fun i k o hm _ => ?_⟩
    by_contra hk
    obtain ⟨hold, hnot⟩ := (hch i k o hk).mp hm
    obtain ⟨hlt, h⟩ := Option.ite_none_right_eq_some.mp hold
    cases h
    rw [hmin] at hnot
    exact hnot ⟨rfl, Nat.zero_le _, hlt⟩
  exact ⟨o, i, hw.inv.free_iff.mpr hm, (sameCell_iff (hw.inv.tiling.aligned hm)).mp hc⟩

/-- Up to the largest order allocation fails only for want of a free run, beyond it
always, and the free blocks do not depend on how the frames came to be free. -/
theorem alloc_complete (memory : Nat → Link Nat) (frames : Nat) (calls : List Call) (s : Ledger)
    (hs : runs step calls (boot memory frames) = some s) :
    (∀ order ≤ maxOrder, (∃ b', s.buddy.alloc order = some (none, b')) ↔
      ¬ ∃ i, 2 ^ order ∣ i ∧ ∀ j, i ≤ j → j < i + 2 ^ order → s.buddy.FreeFrame j) ∧
    (∀ order, maxOrder < order → s.buddy.alloc order = some (none, s.buddy)) ∧
    ∀ (memory' : Nat → Link Nat) (frames' : Nat) (calls' : List Call) (s' : Ledger),
      runs step calls' (boot memory' frames') = some s' →
      (∀ j, s.buddy.FreeFrame j ↔ s'.buddy.FreeFrame j) →
      ∀ o, (s.buddy.freeList o).Perm (s'.buddy.freeList o) := by
  have hkept : ∀ {memory frames calls s}, runs step calls (boot memory frames) = some s →
      ∃ m L, Kept s m L := by
    intro memory frames calls s hs
    obtain ⟨t, ht, hk⟩ := run_kept memory frames calls
    rw [hs] at ht
    cases ht
    exact hk
  obtain ⟨m, L, h⟩ := hkept hs
  refine ⟨fun order ho => h.alloc_none_iff ho, fun order ho => if_pos ho, ?_⟩
  intro memory' frames' calls' s' hs' hsame
  obtain ⟨m', L', h'⟩ := hkept hs'
  exact h.freeList_perm h' hsame

theorem alloc_complete_four : ∃ s, runs step [.addRange 0 4] (boot (fun _ => ⟨none, none⟩) 4) = some s ∧
    (∀ j, j < 4 → s.buddy.FreeFrame j) ∧
    ∀ order ≤ maxOrder, (∃ b', s.buddy.alloc order = some (none, b')) ↔
      ¬ ∃ i, 2 ^ order ∣ i ∧ ∀ j, i ≤ j → j < i + 2 ^ order → s.buddy.FreeFrame j := by
  obtain ⟨s, hs, hfree⟩ := addRange_all (fun _ => ⟨none, none⟩) 4
  exact ⟨s, hs, hfree, (alloc_complete _ 4 _ s hs).1⟩

/-- A request beyond the largest order fails though an aligned run of that size is free. -/
theorem alloc_beyond_max :
    ∃ s, runs step [.addRange 0 2048] (boot (fun _ => ⟨none, none⟩) 2048) = some s ∧
      2 ^ 11 ∣ 0 ∧ (∀ j, 0 ≤ j → j < 0 + 2 ^ 11 → s.buddy.FreeFrame j) ∧
      s.buddy.alloc 11 = some (none, s.buddy) := by
  obtain ⟨s, hs, hfree⟩ := addRange_all (fun _ => ⟨none, none⟩) 2048
  refine ⟨s, hs, Nat.dvd_zero _, fun j _ hj => hfree j (by omega), ?_⟩
  rw [Buddy.alloc, if_pos (by decide)]

end Fastros.Alloc
