import Fastros.Alloc.BuddyLists

/-!
# The operations of the buddy allocator

Each operation ends, without a counter going below zero, in tables that represent
a tiling again. What it does to the allocated blocks and reserved frames is said
exactly; the free blocks are then what is left of the frames.
-/

namespace Fastros.Alloc

open Lib.Dyadic Buddy
open List hiding get set modify
open Function (update update_self update_of_ne update_idem update_eq_self update_comm)

/-- The number of frames that are not reserved. -/
def managed (n : Nat) (m : Nat → Option (Kind × Nat)) : Nat :=
  ((Finset.range n).filter fun i => m i ≠ some (.reserved, 0)).card

/-- The tables with their counters. -/
structure Balanced (b : Buddy) (m : Nat → Option (Kind × Nat)) (L : Nat → List Nat)
    (H : Nat → Prop) : Prop where
  inv : Inv b m L H
  free : b.freeFrames = weight L
  managed : b.managedFrames = managed b.frames m

/-- Every frame is in a block. -/
abbrev Whole (b : Buddy) (m : Nat → Option (Kind × Nat)) (L : Nat → List Nat) : Prop :=
  Balanced b m L fun _ => False

variable {b b' : Buddy} {m m' : Nat → Option (Kind × Nat)} {L L' : Nat → List Nat}
  {H H' : Nat → Prop} {i j o n stop : Nat} {k : Kind}
variable {order : Nat}

theorem Inv.congr (h : Inv b m L H) (hH : ∀ j, H j ↔ H' j) : Inv b m L H' := by
  have he : H = H' := funext fun j => propext (hH j)
  rwa [← he]

theorem Inv.mem_iff (h : Inv b m L H) (ho : o ≤ maxOrder) :
    i ∈ L o ↔ i < b.frames ∧ b.state i = freeMark o := by
  constructor
  · intro hi
    have hm := h.mem.mp hi
    exact ⟨h.head_lt hm, (h.state_free (h.head_lt hm) ho).mpr hm⟩
  · rintro ⟨hlt, hst⟩
    exact h.mem.mpr ((h.state_free hlt ho).mp hst)

/-- The tables do not depend on the counters. -/
theorem Inv.counters (h : Inv b m L H) (f g : Nat) :
    Inv { b with freeFrames := f, managedFrames := g } m L H :=
  ⟨h.bytes, h.tiling, h.single, h.nodup, h.linked, h.heads, h.counts, h.mem, h.merged⟩

theorem managed_congr (h : ∀ j, m' j = some (.reserved, 0) ↔ m j = some (.reserved, 0)) :
    managed n m' = managed n m := by
  simp only [managed, ne_eq, h]

theorem Keeps.managed (h : Keeps m m') : managed n m' = Alloc.managed n m :=
  managed_congr fun j => h j .reserved 0 (by decide)

theorem managed_lift (hi : i < n) (hm : m i = some (.reserved, 0)) :
    managed n (update m i none) = managed n m + 1 := by
  have he : (Finset.range n).filter (fun j => update m i none j ≠ some (.reserved, 0)) =
      insert i ((Finset.range n).filter fun j => m j ≠ some (.reserved, 0)) := by
    ext j
    by_cases hji : j = i
    · simp [hji, hi]
    · simp [hji]
  rw [managed, he, Finset.card_insert_of_notMem (by simp [hm]), managed]

theorem managed_place (hi : i < n) (hm : m i = none) :
    managed n (update m i (some (.reserved, 0))) + 1 = managed n m := by
  have h := managed_lift (m := update m i (some (.reserved, 0))) hi (by simp)
  rw [update_idem, ← hm, update_eq_self] at h
  exact h.symm

/-- What putting down a free block of order `o` at `i` comes to, mergers included. -/
structure Released (b : Buddy) (m : Nat → Option (Kind × Nat)) (L : Nat → List Nat)
    (H : Nat → Prop) (i o : Nat) (b' : Buddy) (m' : Nat → Option (Kind × Nat))
    (L' : Nat → List Nat) : Prop where
  inv : Inv b' m' L' fun j => H j ∧ ¬ SameCell o i j
  keeps : Keeps m m'
  weight : weight L' = weight L + 2 ^ o
  apart : Apart b b'

theorem released_push (h : Inv b m L H) (ho : o ≤ maxOrder) (hal : 2 ^ o ∣ i)
    (hb : i + 2 ^ o ≤ b.frames) (hfree : ∀ j, SameCell o i j → H j)
    (hbuddy : o < maxOrder → buddy o i ∉ L o) :
    Released b m L H i o (b.push i o) (update m i (some (.free, o))) (update L o (i :: L o)) where
  inv := h.attach ho hal hb hfree hbuddy
  keeps := by
    have hnone := (h.tiling.outside (hfree i (.refl o i))).2
    apply keeps_update
    · simp [hnone]
    · simp +contextual [eq_comm]
  weight := weight_cons ho
  apart := apart_push b i o

theorem merge_succ (rounds i o : Nat) (b : Buddy) : merge (rounds + 1) i o b =
    if b.frames ≤ buddy o i ∨ b.state (buddy o i) ≠ freeMark o then some (b.push i o)
    else (b.unlink (buddy o i) o).bind fun b =>
      merge rounds (min i (buddy o i)) (o + 1) (b.set (buddy o i) stNone) := rfl

theorem merge_spec : ∀ (rounds : Nat) {b : Buddy} {m L H} {i o : Nat}, rounds = maxOrder - o →
    o ≤ maxOrder → Inv b m L H → 2 ^ o ∣ i → i + 2 ^ o ≤ b.frames →
    (∀ j, SameCell o i j → H j) →
    ∃ b' m' L', merge rounds i o b = some b' ∧ Released b m L H i o b' m' L' := by
  intro rounds
  induction rounds with
  | zero =>
    intro b m L H i o hr ho h hal hb hfree
    exact ⟨_, _, _, rfl, released_push h ho hal hb hfree fun hlt => absurd hr (by omega)⟩
  | succ rounds ih =>
    intro b m L H i o hr ho h hal hb hfree
    have hmem : buddy o i ∈ L o ↔ ¬ (b.frames ≤ buddy o i ∨ b.state (buddy o i) ≠ freeMark o) := by
      rw [h.mem_iff ho]
      simp
    rw [merge_succ]
    by_cases hbud : buddy o i ∈ L o
    · rw [if_neg (hmem.mp hbud)]
      have hm := h.mem.mp hbud
      obtain ⟨b1, hun, hap, hinv⟩ := h.detach hbud
      have hcell : ∀ j, SameCell (o + 1) (min i (buddy o i)) j → H j ∨ SameCell o (buddy o i) j := by
        intro j hj
        rcases (sameCell_min_buddy o i j).mp hj with hj' | hj'
        · exact .inl (hfree j hj')
        · exact .inr hj'
      have hbound : min i (buddy o i) + 2 ^ (o + 1) ≤ b1.frames := by
        rw [hap.frames]
        have := h.tiling.bound hm
        rcases buddy_cases hal with ⟨_, he⟩ | ⟨_, he⟩ <;> omega
      obtain ⟨b', m', L', hrun, hrel⟩ := ih (by omega) (by omega)
        hinv (dvd_min_buddy hal) hbound hcell
      refine ⟨b', m', L', ?_, ?_⟩
      · rw [hun]
        exact hrun
      refine ⟨hrel.inv.congr fun j => ?_, ?_, ?_, ?_⟩
      · -- the buddy's frames were in a block before
        have : H j → ¬ SameCell o (buddy o i) j := fun hH hc => (h.tiling.whole hm hc).1 hH
        rw [sameCell_min_buddy]
        tauto
      · refine Keeps.trans (keeps_update ?_ (by simp)) hrel.keeps
        simp +contextual [hm, eq_comm]
      · rw [hrel.weight, ← weight_erase ho hbud]
        omega
      · exact hap.trans ((apart_set b1 _ _).trans hrel.apart)
    · rw [if_pos (not_not.mp (mt hmem.mpr hbud))]
      exact ⟨_, _, _, rfl, released_push h ho hal hb hfree fun _ => hbud⟩

theorem release_spec (h : Inv (b.set i stNone) m L H) (ho : o ≤ maxOrder) (hal : 2 ^ o ∣ i)
    (hb : i + 2 ^ o ≤ b.frames) (hfree : ∀ j, SameCell o i j → H j) :
    ∃ b' m' L', b.release i o = some b' ∧ Released b m L H i o b' m' L' := by
  obtain ⟨b', m', L', hrun, hrel⟩ := merge_spec (maxOrder - o) rfl ho h hal hb hfree
  exact ⟨b', m', L', hrun, hrel.inv, hrel.keeps, hrel.weight, (apart_set b i stNone).trans hrel.apart⟩

theorem Inv.used_iff (h : Inv b m L H) (hi : i < b.frames) :
    b.state i &&& stKind = stUsed ↔ ∃ o, m i = some (.used, o) := by
  rw [h.bytes hi, byte_used (h.order i)]

theorem Inv.used_order (h : Inv b m L H) (hm : m i = some (.used, o)) :
    (b.state i &&& stOrder).toNat = o := by
  rw [h.bytes (h.head_lt hm), hm]
  exact (usedMark_fields o (h.order i _ _ hm)).2

theorem free_of_used (h : Whole b m L) (hm : m i = some (.used, o)) :
    ∃ b' m' L', b.free i o = some (.ok (), b') ∧ Whole b' m' L' ∧ b'.frames = b.frames ∧
      ∀ j k q, k ≠ .free → (m' j = some (k, q) ↔ m j = some (k, q) ∧ j ≠ i) := by
  have hlt := h.inv.head_lt hm
  have hlift := h.inv.lift hm (by decide)
  have hcnt : Inv (set { b with freeFrames := b.freeFrames + 2 ^ o } i stNone)
      (update m i none) L (fun j => False ∨ SameCell o i j) := hlift.counters _ _
  obtain ⟨b', m', L', hrun, hrel⟩ := release_spec hcnt (h.inv.order i _ _ hm)
    (h.inv.tiling.aligned hm) (h.inv.tiling.bound hm) (fun j hj => .inr hj)
  have hchange : ∀ j k q, k ≠ .free → (m' j = some (k, q) ↔ m j = some (k, q) ∧ j ≠ i) := by
    intro j k q hk
    rw [hrel.keeps j k q hk]
    by_cases hji : j = i <;> simp [hji]
  refine ⟨b', m', L', ?_, ⟨?_, ?_, ?_⟩, hrel.apart.frames, hchange⟩
  · have hused := (h.inv.used_iff hlt).mpr ⟨o, hm⟩
    have hord := h.inv.used_order hm
    simp [free, not_le.mpr hlt, hused, hord, hrun]
  · exact hrel.inv.congr fun j => by tauto
  · rw [hrel.apart.freeFrames, hrel.weight, ← h.free]
  · rw [hrel.apart.managedFrames, hrel.apart.frames, hrel.keeps.managed]
    refine h.managed.trans (managed_congr fun j => ?_).symm
    by_cases hji : j = i <;> simp [hji, hm]

theorem free_of_not_used (h : Whole b m L) (hm : m i ≠ some (.used, o)) :
    ∃ e, b.free i o = some (.error e, b) := by
  rw [free]
  split
  · exact ⟨_, rfl⟩
  next hlt =>
  split
  · exact ⟨_, rfl⟩
  next hused =>
  have hlt' : i < b.frames := by omega
  obtain ⟨q, hq⟩ := (h.inv.used_iff hlt').mp (not_not.mp hused)
  rw [h.inv.used_order hq]
  have hne : q ≠ o := by
    rintro rfl
    exact hm hq
  exact ⟨_, by simp [hne]; rfl⟩

theorem firstOrder_spec (b : Buddy) : ∀ (fuel order : Nat),
    order ≤ b.firstOrder fuel order ∧ b.firstOrder fuel order ≤ order + fuel ∧
    (∀ q, order ≤ q → q < b.firstOrder fuel order → b.heads q = none) ∧
    (b.firstOrder fuel order < order + fuel → b.heads (b.firstOrder fuel order) ≠ none) := by
  intro fuel
  induction fuel with
  | zero =>
    intro order
    simp only [firstOrder]
    exact ⟨by omega, by omega, fun q h1 h2 => by omega, fun h => by omega⟩
  | succ fuel ih =>
    intro order
    rw [firstOrder]
    split
    · next hnone =>
      obtain ⟨h1, h2, h3, h4⟩ := ih (order + 1)
      refine ⟨by omega, by omega, fun q hq hlt => ?_, fun hlt => h4 (by omega)⟩
      rcases eq_or_lt_of_le hq with rfl | hq'
      · exact hnone
      · exact h3 q hq' hlt
    · next hsome =>
      exact ⟨by omega, by omega, fun q h1 h2 => by omega, fun _ => hsome⟩

theorem push_set (b : Buddy) {x : Nat} (hx : x ≠ i) (v : UInt8) (q : Nat) :
    (b.set i v).push x q = (b.push x q).set i v := by
  simp only [Buddy.push, Buddy.set, update_comm hx]

/-- Splitting a block does not touch the state of its first frame. -/
theorem split_set (order : Nat) (v : UInt8) : ∀ (o : Nat) (b : Buddy),
    split i order o (b.set i v) = (split i order o b).set i v := by
  intro o
  induction o with
  | zero => exact fun _ => rfl
  | succ o ih =>
    intro b
    have hne : i + 2 ^ o ≠ i := by
      have := Nat.two_pow_pos o
      omega
    simp only [split]
    split
    · rw [push_set b hne, ih]
    · rfl

theorem set_set (b : Buddy) (i : Nat) (v w : UInt8) : (b.set i v).set i w = b.set i w := by
  simp [Buddy.set]

/-- The upper halves go on lists that were empty; the first block of the wanted order
stays out. -/
theorem split_spec : ∀ (o : Nat) {b : Buddy} {m L H}, order ≤ o → o ≤ maxOrder →
    Inv b m L H → 2 ^ o ∣ i → i + 2 ^ o ≤ b.frames → (∀ j, SameCell o i j → H j) →
    (∀ q, order ≤ q → q < o → L q = []) →
    ∃ m' L', Inv (split i order o b) m' L'
        (fun j => (H j ∧ ¬ SameCell o i j) ∨ SameCell order i j) ∧
      Keeps m m' ∧ weight L' + 2 ^ order = weight L + 2 ^ o ∧ Apart b (split i order o b) := by
  intro o
  induction o with
  | zero =>
    intro b m L H hle _ h _ _ hfree _
    obtain rfl : order = 0 := by omega
    refine ⟨m, L, h.congr fun j => ?_, Keeps.refl m, rfl, ⟨rfl, rfl, rfl⟩⟩
    tauto
  | succ o ih =>
    intro b m L H hle ho h hal hb hfree hempty
    rw [split]
    split
    · next hlt =>
      have hbud := buddy_of_dvd hal
      have hcell : ∀ j, SameCell (o + 1) i j ↔ SameCell o i j ∨ SameCell o (i + 2 ^ o) j := by
        intro j
        rw [sameCell_succ, hbud]
      have hal' : 2 ^ o ∣ i := Nat.dvd_trans (pow_dvd_pow 2 (Nat.le_succ o)) hal
      have hdisj : ∀ j, SameCell o i j → ¬ SameCell o (i + 2 ^ o) j := by
        intro j hj hj'
        apply not_sameCell_buddy o i
        rw [hbud]
        exact hj.trans hj'.symm
      have hrel := released_push h (by omega)
        (Nat.dvd_add hal' (Nat.dvd_refl _)) (by omega)
        (fun j hj => hfree j ((hcell j).mpr (.inr hj)))
        (fun _ => by rw [hempty o (by omega) (by omega)]; simp)
      obtain ⟨m', L', hinv, hkeep, hw, hap⟩ := ih (by omega) (by omega)
        hrel.inv hal' (by rw [hrel.apart.frames]; omega)
        (fun j hj => ⟨hfree j ((hcell j).mpr (.inl hj)), hdisj j hj⟩)
        (fun q h1 h2 => by simp [ne_of_lt h2, hempty q h1 (by omega)])
      refine ⟨m', L', hinv.congr fun j => ?_, hrel.keeps.trans hkeep, ?_, hrel.apart.trans hap⟩
      · rw [hcell j]
        tauto
      · rw [hw, hrel.weight]
        omega
    · obtain rfl : order = o + 1 := by omega
      refine ⟨m, L, h.congr fun j => ?_, Keeps.refl m, rfl, ⟨rfl, rfl, rfl⟩⟩
      tauto

/-- There is no block of the wanted order or a larger one. -/
theorem alloc_none (h : Whole b m L) (ho : order ≤ maxOrder)
    (hempty : ∀ q, order ≤ q → q ≤ maxOrder → L q = []) : b.alloc order = some (none, b) := by
  obtain ⟨h1, h2, _, h4⟩ := firstOrder_spec b (maxOrder + 1 - order) order
  have hlast : maxOrder < b.firstOrder (maxOrder + 1 - order) order := by
    by_contra hle
    have hne := h4 (by omega)
    rw [h.inv.heads, hempty _ h1 (by omega)] at hne
    exact hne rfl
  simp [alloc, not_lt.mpr ho, hlast]

/-- A free block is taken off its list and cut down to the wanted order. -/
theorem Inv.take (h : Inv b m L fun _ => False) {q : Nat} (hi : i ∈ L q) (hoq : order ≤ q)
    (hempty : ∀ r, order ≤ r → r < q → L r = []) :
    ∃ b' m' L', b.unlink i q = some b' ∧ Apart b (split i order q b') ∧
      Inv ((split i order q b').set i (usedMark order)) m' L' (fun _ => False) ∧
      weight L = weight L' + 2 ^ order ∧ ∀ j k r, k ≠ .free →
        (m' j = some (k, r) ↔ m j = some (k, r) ∨ j = i ∧ k = .used ∧ r = order) := by
  have hm := h.mem.mp hi
  have hq := h.order i _ _ hm
  have hal := h.tiling.aligned hm
  have hb := h.tiling.bound hm
  obtain ⟨b1, hun, hap1, hinv1⟩ := h.detach hi
  have hempty' : ∀ r, order ≤ r → r < q → update L q ((L q).erase i) r = [] := by
    intro r hr1 hr2
    simp [ne_of_lt hr2, hempty r hr1 hr2]
  obtain ⟨m2, L2, hinv2, hkeep2, hw2, hap2⟩ := split_spec q hoq hq hinv1 hal
    (by rw [(apart_set b1 i stNone).frames, hap1.frames]; exact hb) (fun j hj => .inr hj) hempty'
  have hap : Apart b (split i order q b1) := by
    rw [split_set] at hap2
    exact ⟨hap2.frames.trans hap1.frames, hap2.freeFrames.trans hap1.freeFrames,
      hap2.managedFrames.trans hap1.managedFrames⟩
  have : 2 ^ order ≤ 2 ^ q := Nat.pow_le_pow_right (by decide) hoq
  have hbound : i + 2 ^ order ≤ (split i order q (b1.set i stNone)).frames := by
    rw [split_set, (apart_set _ i stNone).frames, hap.frames]
    omega
  have hinv3 := hinv2.place (k := .used) (le_trans hoq hq)
    (Nat.dvd_trans (pow_dvd_pow 2 hoq) hal) hbound (fun j hj => .inr hj) (by decide) (by simp)
  rw [split_set, set_set] at hinv3
  refine ⟨b1, _, L2, hun, hap, hinv3.congr fun j => by tauto, ?_, ?_⟩
  · have he := weight_erase hq hi
    omega
  intro j k r hk
  by_cases hji : j = i
  · subst hji
    simp [hm, hk, eq_comm]
  · simp only [hji, false_and, or_false, ne_eq, not_false_eq_true, update_of_ne]
    rw [hkeep2 j k r hk]
    simp [hji]

theorem alloc_some (h : Whole b m L) (ho : order ≤ maxOrder)
    (hsome : ∃ q, order ≤ q ∧ q ≤ maxOrder ∧ L q ≠ []) :
    ∃ i b' m' L', b.alloc order = some (some i, b') ∧ Whole b' m' L' ∧ b'.frames = b.frames ∧
      (∃ q, order ≤ q ∧ i ∈ L q) ∧ ∀ j k q, k ≠ .free →
        (m' j = some (k, q) ↔ m j = some (k, q) ∨ j = i ∧ k = .used ∧ q = order) := by
  obtain ⟨h1, h2, h3, h4⟩ := firstOrder_spec b (maxOrder + 1 - order) order
  generalize hq : b.firstOrder (maxOrder + 1 - order) order = q at h1 h2 h3 h4
  have hempty : ∀ r, order ≤ r → r < q → L r = [] := by
    intro r hr1 hr2
    have hnone := h3 r hr1 hr2
    rwa [h.inv.heads, head?_eq_none_iff] at hnone
  have hqmax : q ≤ maxOrder := by
    by_contra hlt
    obtain ⟨r, hr1, hr2, hr⟩ := hsome
    exact hr (hempty r hr1 (by omega))
  obtain ⟨i, hi⟩ := Option.ne_none_iff_exists'.mp (h4 (by omega))
  have hmem : i ∈ L q := mem_of_mem_head? (by rw [← h.inv.heads]; exact hi)
  obtain ⟨b1, m', L', hun, hap, hinv, hw, hchange⟩ := h.inv.take hmem h1 hempty
  have hsub : Lib.Checked.sub ((split i order q b1).set i (usedMark order)).freeFrames
      (2 ^ order) = some (weight L') := by
    rw [(apart_set _ i _).freeFrames, hap.freeFrames, h.free, Lib.Checked.sub_eq_some]
    omega
  refine ⟨i, { (split i order q b1).set i (usedMark order) with freeFrames := weight L' },
    m', L', ?_, ⟨hinv.counters _ _, rfl, ?_⟩, hap.frames, ⟨q, h1, hmem⟩, hchange⟩
  · simp [alloc, not_lt.mpr ho, hq, not_lt.mpr hqmax, hi, hun, hsub]
  refine hap.managedFrames.trans (h.managed.trans ?_)
  rw [show ((split i order q b1).set i (usedMark order)).frames = b.frames from hap.frames]
  refine (managed_congr fun j => ?_).symm
  rw [hchange j .reserved 0 (by decide)]
  simp

theorem fitting_spec {idx : Nat} (hlt : idx < stop) : ∀ order, fitting idx stop order ≤ order ∧
    2 ^ fitting idx stop order ∣ idx ∧ idx + 2 ^ fitting idx stop order ≤ stop := by
  intro order
  induction order with
  | zero => exact ⟨le_rfl, Nat.one_dvd idx, hlt⟩
  | succ order ih =>
    rw [fitting]
    split
    · obtain ⟨h1, h2, h3⟩ := ih
      exact ⟨by omega, h2, h3⟩
    · next hfit =>
      push Not at hfit
      exact ⟨le_rfl, Nat.dvd_of_mod_eq_zero hfit.1, hfit.2⟩

theorem clear_spec (h : Inv b m L fun _ => False) : ∀ n,
    (∀ j, i ≤ j → j < i + n → m j = some (.reserved, 0)) →
    ∃ m', Inv (b.clear i n) m' L (fun j => i ≤ j ∧ j < i + n) ∧ Apart b (b.clear i n) ∧
      managed b.frames m' = managed b.frames m + n ∧
      ∀ j, m' j = if i ≤ j ∧ j < i + n then none else m j := by
  intro n
  induction n with
  | zero =>
    intro _
    refine ⟨m, h.congr fun j => ⟨False.elim, fun hj => ?_⟩, ⟨rfl, rfl, rfl⟩, rfl, fun j => ?_⟩
    · omega
    · rw [if_neg (by omega)]
  | succ n ih =>
    intro hres
    obtain ⟨m', hinv, hap, hman, hval⟩ := ih fun j h1 h2 => hres j h1 (by omega)
    have hm : m' (i + n) = some (.reserved, 0) := by
      rw [hval, if_neg (by omega)]
      exact hres _ (by omega) (by omega)
    have hlt : i + n < b.frames := by
      have := hinv.head_lt hm
      rwa [hap.frames] at this
    refine ⟨_, (hinv.lift hm (by decide)).congr fun j => ?_, hap.trans (apart_set _ _ _), ?_, ?_⟩
    · rw [sameCell_zero]
      omega
    · rw [managed_lift hlt hm]
      omega
    intro j
    by_cases hj : j = i + n
    · rw [hj, update_self, if_pos (by omega)]
    rw [update_of_ne hj, hval]
    by_cases hin : i ≤ j ∧ j < i + n
    · rw [if_pos hin, if_pos (by omega)]
    · rw [if_neg hin, if_neg (by omega)]

theorem addRun_spec : ∀ (fuel idx : Nat) {b : Buddy} {m L}, Whole b m L →
    stop - idx ≤ fuel → stop ≤ b.frames →
    (∀ j, idx ≤ j → j < stop → m j = some (.reserved, 0)) →
    ∃ b' m' L', addRun stop fuel idx b = some b' ∧ Whole b' m' L' ∧ b'.frames = b.frames ∧
      ∀ j k q, k ≠ .free → (m' j = some (k, q) ↔ m j = some (k, q) ∧ ¬ (idx ≤ j ∧ j < stop)) := by
  intro fuel
  induction fuel with
  | zero =>
    intro idx b m L h hfuel _ _
    refine ⟨b, m, L, rfl, h, rfl, fun j k q _ => ?_⟩
    have : ¬ (idx ≤ j ∧ j < stop) := by omega
    tauto
  | succ fuel ih =>
    intro idx b m L h hfuel hstop hres
    rw [addRun]
    split
    · next hlt =>
      obtain ⟨ho, hal, hle⟩ := fitting_spec hlt maxOrder
      generalize fitting idx stop maxOrder = o at ho hal hle ⊢
      obtain ⟨m1, hinv1, hap1, hman1, hval1⟩ := clear_spec h.inv (2 ^ o)
        fun j h1 h2 => hres j h1 (by omega)
      have hcell : ∀ j, SameCell o idx j ↔ idx ≤ j ∧ j < idx + 2 ^ o := fun j => sameCell_iff hal
      obtain ⟨b2, m2, L2, hrun, hrel⟩ := release_spec
        (by
          have hcnt := hinv1.counters ((b.clear idx (2 ^ o)).freeFrames + 2 ^ o)
            ((b.clear idx (2 ^ o)).managedFrames + 2 ^ o)
          rw [hcnt.set_none ⟨le_rfl, by omega⟩]
          exact hcnt) ho hal
        (by
          rw [hap1.frames]
          omega) (fun j hj => (hcell j).mp hj)
      have hframes : b2.frames = b.frames := hrel.apart.frames.trans hap1.frames
      have hchange : ∀ j k q, k ≠ .free →
          (m2 j = some (k, q) ↔ m j = some (k, q) ∧ ¬ (idx ≤ j ∧ j < idx + 2 ^ o)) := by
        intro j k q hk
        rw [hrel.keeps j k q hk, hval1]
        by_cases hin : idx ≤ j ∧ j < idx + 2 ^ o <;> simp [hin]
      have hwhole : Whole b2 m2 L2 := by
        refine ⟨hrel.inv.congr fun j => by rw [hcell]; tauto, ?_, ?_⟩
        · rw [hrel.apart.freeFrames, hrel.weight, ← h.free, ← hap1.freeFrames]
        · rw [hrel.apart.managedFrames, hframes, hrel.keeps.managed, hman1, ← h.managed,
            ← hap1.managedFrames]
      obtain ⟨b', m', L', hrest, hw', hf', hch'⟩ := ih (idx + 2 ^ o) hwhole (by omega)
        (by rw [hframes]; exact hstop) (fun j h1 h2 =>
          (hchange j .reserved 0 (by decide)).mpr ⟨hres j (by omega) h2, by omega⟩)
      refine ⟨b', m', L', ?_, hw', hf'.trans hframes, fun j k q hk => ?_⟩
      · simp only [hrun, Option.bind_eq_bind, Option.bind_some]
        exact hrest
      rw [hch' j k q hk, hchange j k q hk, and_assoc]
      have hiff : ¬ (idx ≤ j ∧ j < idx + 2 ^ o) ∧ ¬ (idx + 2 ^ o ≤ j ∧ j < stop) ↔
          ¬ (idx ≤ j ∧ j < stop) := by omega
      rw [hiff]
    · next hge =>
      refine ⟨b, m, L, rfl, h, rfl, fun j k q _ => ?_⟩
      have : ¬ (idx ≤ j ∧ j < stop) := by omega
      tauto

theorem runEnd_spec (b : Buddy) (stop : Nat) : ∀ (fuel idx : Nat), idx ≤ stop →
    idx ≤ b.runEnd stop fuel idx ∧ b.runEnd stop fuel idx ≤ stop ∧
    ∀ j, idx ≤ j → j < b.runEnd stop fuel idx → b.state j = stReserved := by
  intro fuel
  induction fuel with
  | zero =>
    intro idx hle
    simp only [runEnd]
    exact ⟨le_rfl, hle, fun j h1 h2 => by omega⟩
  | succ fuel ih =>
    intro idx hle
    rw [runEnd]
    split
    · next hcond =>
      obtain ⟨h1, h2, h3⟩ := ih (idx + 1) (by omega)
      refine ⟨by omega, h2, fun j hj hlt => ?_⟩
      rcases eq_or_lt_of_le hj with rfl | hj'
      · exact hcond.2
      · exact h3 j hj' hlt
    · exact ⟨le_rfl, hle, fun j h1 h2 => by omega⟩

theorem lt_runEnd {idx : Nat} (fuel : Nat) (hlt : idx < stop) (hst : b.state idx = stReserved) :
    idx < b.runEnd stop (fuel + 1) idx := by
  rw [runEnd, if_pos ⟨hlt, hst⟩]
  have := (runEnd_spec b stop fuel (idx + 1) hlt).1
  omega

theorem addFrom_spec : ∀ (fuel idx : Nat) {b : Buddy} {m L}, Whole b m L →
    stop - idx ≤ fuel → stop ≤ b.frames →
    ∃ b' m' L', addFrom stop fuel idx b = some b' ∧ Whole b' m' L' ∧ b'.frames = b.frames ∧
      ∀ j k q, k ≠ .free →
        (m' j = some (k, q) ↔ m j = some (k, q) ∧ ¬ (k = .reserved ∧ idx ≤ j ∧ j < stop)) := by
  intro fuel
  induction fuel with
  | zero =>
    intro idx b m L h hfuel _
    refine ⟨b, m, L, rfl, h, rfl, fun j k q _ => ?_⟩
    have : ¬ (idx ≤ j ∧ j < stop) := by omega
    tauto
  | succ fuel ih =>
    intro idx b m L h hfuel hstop
    rw [addFrom]
    split
    · next hlt =>
      split
      · next hst =>
        obtain ⟨b', m', L', hrun, hw, hf, hch⟩ := ih (idx + 1) h (by omega) hstop
        refine ⟨b', m', L', hrun, hw, hf, fun j k q hk => ?_⟩
        rw [hch j k q hk]
        refine and_congr_right fun hm => not_congr (and_congr_right fun hkr => ?_)
        -- the frame skipped is not reserved
        have : j ≠ idx := by
          rintro rfl
          subst hkr
          rw [h.inv.single hm] at hm
          exact hst ((h.inv.state_reserved (by omega)).mpr hm)
        omega
      next hst =>
      obtain ⟨d, hd⟩ : ∃ d, stop - idx = d + 1 := ⟨stop - idx - 1, by omega⟩
      have hlast := lt_runEnd d hlt (not_not.mp hst)
      obtain ⟨-, hle, hall⟩ := runEnd_spec b stop (d + 1) idx (by omega)
      rw [hd]
      generalize b.runEnd stop (d + 1) idx = last at hlast hle hall ⊢
      obtain ⟨b1, m1, L1, hrun1, hw1, hf1, hch1⟩ := addRun_spec (last - idx) idx h le_rfl
        (by omega) fun j h1 h2 => (h.inv.state_reserved (by omega)).mp (hall j h1 h2)
      obtain ⟨b', m', L', hrun, hw, hf, hch⟩ := ih last hw1 (by omega) (by rw [hf1]; exact hstop)
      refine ⟨b', m', L', ?_, hw, hf.trans hf1, fun j k q hk => ?_⟩
      · simp only [hrun1, Option.bind_eq_bind, Option.bind_some]
        exact hrun
      rw [hch j k q hk, hch1 j k q hk, and_assoc]
      refine and_congr_right fun hm => ?_
      by_cases hin : idx ≤ j ∧ j < last
      · have hr := (h.inv.state_reserved (by omega)).mp (hall j hin.1 hin.2)
        rw [hm] at hr
        simp only [Option.some.injEq, Prod.mk.injEq] at hr
        have hin' : idx ≤ j ∧ j < stop := by omega
        simp [hin, hin', hr.1]
      · have hiff : last ≤ j ∧ j < stop ↔ idx ≤ j ∧ j < stop := by omega
        simp [hin, hiff]
    · next hge =>
      refine ⟨b, m, L, rfl, h, rfl, fun j k q _ => ?_⟩
      have : ¬ (idx ≤ j ∧ j < stop) := by omega
      tauto

theorem addRange_spec (h : Whole b m L) (start stop : Nat) :
    ∃ b' m' L', b.addRange start stop = some b' ∧ Whole b' m' L' ∧ b'.frames = b.frames ∧
      ∀ j k q, k ≠ .free → (m' j = some (k, q) ↔
        m j = some (k, q) ∧ ¬ (k = .reserved ∧ start ≤ j ∧ j < min stop b.frames)) :=
  addFrom_spec (min stop b.frames - start) start h le_rfl (min_le_right _ _)

/-- The frame is in a free block. -/
def FreeAt (m : Nat → Option (Kind × Nat)) (i : Nat) : Prop :=
  ∃ s o, m s = some (.free, o) ∧ SameCell o s i

theorem Whole.freeAt_iff (h : Whole b m L) :
    FreeAt m i ↔ i < b.frames ∧ ∀ s k o, m s = some (k, o) → SameCell o s i → k = .free := by
  constructor
  · rintro ⟨s, o, hs, hc⟩
    refine ⟨h.inv.tiling.lt hs hc, fun s' k o' hs' hc' => ?_⟩
    obtain rfl := h.inv.tiling.unique hs hs' hc hc'
    rw [hs] at hs'
    simp only [Option.some.injEq, Prod.mk.injEq] at hs'
    exact hs'.1.symm
  · rintro ⟨hlt, hall⟩
    rcases h.inv.tiling.cases hlt with hf | ⟨s, k, o, hs, hc⟩
    · exact hf.elim
    · obtain rfl := hall s k o hs hc
      exact ⟨s, o, hs, hc⟩

theorem freeBlockContaining_some (h : Whole b m L) {s : Nat}
    (hs : b.freeBlockContaining i = some (s, o)) : m s = some (.free, o) ∧ SameCell o s i := by
  rw [freeBlockContaining] at hs
  split at hs
  · cases hs
  next hlt =>
  obtain ⟨q, hq, hval⟩ := exists_of_findSome?_eq_some hs
  rw [mem_range] at hq
  dsimp only at hval
  split at hval
  · next hst =>
    cases hval
    have := Nat.div_mul_le_self i (2 ^ o)
    exact ⟨(h.inv.state_free (by omega) (by omega)).mp hst, sameCell_floor o i⟩
  · cases hval

theorem freeBlockContaining_none (h : Whole b m L) (hs : b.freeBlockContaining i = none) :
    ¬ FreeAt m i := by
  rintro ⟨s, o, hm, hc⟩
  have := h.inv.tiling.lt hm hc
  have ho := h.inv.order s _ _ hm
  rw [freeBlockContaining, if_neg (by omega), findSome?_eq_none_iff] at hs
  have hval := hs o (by rw [mem_range]; omega)
  have he : i / 2 ^ o * 2 ^ o = s := by
    rw [← show s / 2 ^ o = i / 2 ^ o from hc]
    exact Nat.div_mul_cancel (h.inv.tiling.aligned hm)
  rw [he, if_pos ((h.inv.state_free (h.inv.head_lt hm) ho).mpr hm)] at hval
  cases hval

theorem isFree_iff (h : Whole b m L) : b.isFree i = true ↔ FreeAt m i := by
  rw [isFree]
  cases hs : b.freeBlockContaining i with
  | none => simpa using freeBlockContaining_none h hs
  | some p =>
    obtain ⟨hm, hc⟩ := freeBlockContaining_some h hs
    simpa using ⟨p.1, p.2, hm, hc⟩

/-- Every frame that is taken apart gets its state first. -/
theorem carve_set (start stop n : Nat) (b : Buddy) (i : Nat) :
    carve start stop (n + 1) i (b.set i stNone) = carve start stop (n + 1) i b := by
  simp only [carve, set_set, release]
  have hset : set { b.set i stNone with freeFrames := (b.set i stNone).freeFrames + 1 } i stNone
      = set { b with freeFrames := b.freeFrames + 1 } i stNone :=
    set_set { b with freeFrames := b.freeFrames + 1 } i stNone stNone
  rw [hset]
  rfl

theorem carve_spec (start stop : Nat) : ∀ (n : Nat) {b : Buddy} {m L} {i : Nat},
    Balanced b m L (fun j => i ≤ j ∧ j < i + n) →
    ∃ b' m' L', carve start stop n i b = some b' ∧ Whole b' m' L' ∧ b'.frames = b.frames ∧
      ∀ j k q, k ≠ .free → (m' j = some (k, q) ↔ m j = some (k, q) ∨
        (i ≤ j ∧ j < i + n) ∧ (start ≤ j ∧ j < stop) ∧ k = .reserved ∧ q = 0) := by
  intro n
  induction n with
  | zero =>
    intro b m L i h
    have hempty : ∀ j, ¬ (i ≤ j ∧ j < i + 0) := by omega
    refine ⟨b, m, L, rfl, ⟨h.inv.congr fun j => ⟨fun hj => hempty j hj, False.elim⟩, h.free,
      h.managed⟩, rfl, fun j k q _ => ?_⟩
    tauto
  | succ n ih =>
    intro b m L i h
    have hout : i ≤ i ∧ i < i + (n + 1) := by omega
    obtain ⟨hlt, hnone⟩ := h.inv.tiling.outside hout
    have hcell : ∀ j, SameCell 0 i j → i ≤ j ∧ j < i + (n + 1) := by
      intro j hj
      rw [sameCell_zero] at hj
      omega
    rw [carve]
    split
    · next hin =>
      have := managed_place hlt hnone
      have hsub : Lib.Checked.sub b.managedFrames 1
          = some (managed b.frames (update m i (some (.reserved, 0)))) := by
        rw [h.managed, Lib.Checked.sub_eq_some]
        omega
      have hplace := h.inv.place (k := .reserved) (Nat.zero_le _) (Nat.one_dvd i)
        hlt hcell (by decide) (fun _ => rfl)
      have hbal : Balanced { b.set i stReserved with
            managedFrames := managed b.frames (update m i (some (.reserved, 0))) }
          (update m i (some (.reserved, 0))) L
          (fun j => i + 1 ≤ j ∧ j < i + 1 + n) :=
        ⟨(hplace.counters _ _).congr fun j => by rw [sameCell_zero]; omega, h.free, rfl⟩
      obtain ⟨b', m', L', hrun, hw, hf, hch⟩ := ih hbal
      refine ⟨b', m', L', ?_, hw, hf, fun j k q hk => ?_⟩
      · rw [hsub]
        exact hrun
      rw [hch j k q hk]
      by_cases hji : j = i
      · subst hji
        simp [hnone, hin, eq_comm]
      · have hiff : i + 1 ≤ j ∧ j < i + 1 + n ↔ i ≤ j ∧ j < i + (n + 1) := by omega
        rw [update_of_ne hji, hiff]
    · next hin =>
      have hset : (set { b with freeFrames := b.freeFrames + 1 } i stNone)
          = { b with freeFrames := b.freeFrames + 1 } :=
        (h.inv.counters (b.freeFrames + 1) b.managedFrames).set_none hout
      obtain ⟨b1, m1, L1, hrun1, hrel⟩ := release_spec
        (b := { b with freeFrames := b.freeFrames + 1 })
        (by rw [hset]; exact h.inv.counters _ _) (Nat.zero_le _) (Nat.one_dvd i)
        hlt hcell
      have hbal : Balanced b1 m1 L1 (fun j => i + 1 ≤ j ∧ j < i + 1 + n) := by
        refine ⟨hrel.inv.congr fun j => by rw [sameCell_zero]; omega, ?_, ?_⟩
        · rw [hrel.apart.freeFrames, hrel.weight, ← h.free]
          rfl
        · rw [hrel.apart.managedFrames, hrel.apart.frames, hrel.keeps.managed]
          exact h.managed
      obtain ⟨b', m', L', hrun, hw, hf, hch⟩ := ih hbal
      refine ⟨b', m', L', ?_, hw, hf.trans hrel.apart.frames, fun j k q hk => ?_⟩
      · rw [hrun1]
        exact hrun
      rw [hch j k q hk, hrel.keeps j k q hk]
      by_cases hji : j = i
      · subst hji
        simp [hin]
      · have hiff : i + 1 ≤ j ∧ j < i + 1 + n ↔ i ≤ j ∧ j < i + (n + 1) := by omega
        rw [hiff]

theorem takeApart_spec (h : Whole b m L) {s : Nat} (hs : m s = some (.free, o)) (start stop : Nat) :
    ∃ b1 f b' m' L', b.unlink s o = some b1 ∧ Lib.Checked.sub b1.freeFrames (2 ^ o) = some f ∧
      carve start stop (2 ^ o) s { b1 with freeFrames := f } = some b' ∧ Whole b' m' L' ∧
      b'.frames = b.frames ∧ ∀ j k q, k ≠ .free → (m' j = some (k, q) ↔ m j = some (k, q) ∨
        SameCell o s j ∧ (start ≤ j ∧ j < stop) ∧ k = .reserved ∧ q = 0) := by
  have hmem := h.inv.mem.mpr hs
  have ho := h.inv.order s _ _ hs
  have hcell : ∀ j, SameCell o s j ↔ s ≤ j ∧ j < s + 2 ^ o :=
    fun j => sameCell_iff (h.inv.tiling.aligned hs)
  obtain ⟨b1, hun, hap, hinv⟩ := h.inv.detach hmem
  have hw := weight_erase ho hmem
  have hsub : Lib.Checked.sub b1.freeFrames (2 ^ o)
      = some (weight (update L o ((L o).erase s))) := by
    rw [hap.freeFrames, h.free, Lib.Checked.sub_eq_some]
    omega
  have hkeep : Keeps m (update m s none) :=
    keeps_update (by simp +contextual [hs, eq_comm]) (by simp)
  have hbal : Balanced (set { b1 with
        freeFrames := weight (update L o ((L o).erase s)) } s stNone)
      (update m s none) (update L o ((L o).erase s))
      (fun j => s ≤ j ∧ j < s + 2 ^ o) := by
    refine ⟨(hinv.counters _ _).congr fun j => ?_, rfl, ?_⟩
    · rw [hcell]
      tauto
    · change b1.managedFrames = managed b1.frames _
      rw [hap.managedFrames, hap.frames, hkeep.managed, h.managed]
  obtain ⟨b', m', L', hrun, hwh, hf, hch⟩ := carve_spec start stop _ hbal
  obtain ⟨d, hd⟩ : ∃ d, 2 ^ o = d + 1 := ⟨2 ^ o - 1, by have := Nat.two_pow_pos o; omega⟩
  rw [hd, carve_set, ← hd] at hrun
  refine ⟨b1, _, b', m', L', hun, hsub, hrun, hwh, hf.trans hap.frames, fun j k q hk => ?_⟩
  rw [hch j k q hk, hkeep j k q hk, hcell]

theorem reserveFrom_spec (start stop : Nat) : ∀ (fuel idx : Nat) {b : Buddy} {m L}, Whole b m L →
    stop - idx ≤ fuel → start ≤ idx → (∀ j, idx ≤ j → j < stop → FreeAt m j) →
    (∀ j, start ≤ j → j < idx → j < stop → ¬ FreeAt m j) →
    ∃ b' m' L', reserveFrom start stop fuel idx b = some b' ∧ Whole b' m' L' ∧
      b'.frames = b.frames ∧ ∀ j k q, k ≠ .free → (m' j = some (k, q) ↔ m j = some (k, q) ∨
        (idx ≤ j ∧ j < stop) ∧ k = .reserved ∧ q = 0) := by
  intro fuel
  induction fuel with
  | zero =>
    intro idx b m L h hfuel _ _ _
    refine ⟨b, m, L, rfl, h, rfl, fun j k q _ => ?_⟩
    have : ¬ (idx ≤ j ∧ j < stop) := by omega
    tauto
  | succ fuel ih =>
    intro idx b m L h hfuel hstart hfree hdone
    rw [reserveFrom]
    split
    · next hlt =>
      obtain ⟨⟨s, o⟩, hblock⟩ : ∃ p, b.freeBlockContaining idx = some p := by
        rw [← Option.isSome_iff_exists]
        exact (isFree_iff h).mpr (hfree idx le_rfl hlt)
      obtain ⟨hs, hc⟩ := freeBlockContaining_some h hblock
      have hcell : ∀ j, SameCell o s j ↔ s ≤ j ∧ j < s + 2 ^ o :=
        fun j => sameCell_iff (h.inv.tiling.aligned hs)
      have := (hcell idx).mp hc
      obtain ⟨b1, f, b2, m2, L2, hun, hsub, hcarve, hw2, hf2, hch2⟩ :=
        takeApart_spec h hs start stop
      -- of the block only the frames from `idx` on are in the range
      have hpart : ∀ j, SameCell o s j ∧ (start ≤ j ∧ j < stop) ↔
          (idx ≤ j ∧ j < stop) ∧ j < s + 2 ^ o := by
        intro j
        rw [hcell]
        constructor
        · rintro ⟨hj, hr⟩
          refine ⟨⟨?_, hr.2⟩, hj.2⟩
          by_contra hjlt
          exact hdone j hr.1 (by omega) hr.2 ⟨s, o, hs, (hcell j).mpr hj⟩
        · rintro ⟨hr, hj⟩
          omega
      have hch3 : ∀ j k q, k ≠ .free → (m2 j = some (k, q) ↔ m j = some (k, q) ∨
          ((idx ≤ j ∧ j < stop) ∧ j < s + 2 ^ o) ∧ k = .reserved ∧ q = 0) := by
        intro j k q hk
        rw [hch2 j k q hk, ← and_assoc, hpart]
      have hfree2 : ∀ j, FreeAt m2 j ↔ FreeAt m j ∧ ¬ ((idx ≤ j ∧ j < stop) ∧ j < s + 2 ^ o) := by
        intro j
        rw [hw2.freeAt_iff, h.freeAt_iff, hf2]
        constructor
        · rintro ⟨hjlt, hall⟩
          refine ⟨⟨hjlt, fun s' k o' hs' hc' => ?_⟩, fun hin => ?_⟩
          · by_contra hk
            exact hk (hall s' k o' ((hch3 s' k o' hk).mpr (.inl hs')) hc')
          · exact absurd (hall j .reserved 0 ((hch3 j _ _ (by decide)).mpr (.inr ⟨hin, rfl, rfl⟩))
              (.refl 0 j)) (by decide)
        · rintro ⟨⟨hjlt, hall⟩, hout⟩
          refine ⟨hjlt, fun s' k o' hs' hc' => ?_⟩
          by_contra hk
          rcases (hch3 s' k o' hk).mp hs' with hold | ⟨hin, rfl, rfl⟩
          · exact hk (hall s' k o' hold hc')
          · rw [sameCell_zero] at hc'
            exact hout (hc' ▸ hin)
      obtain ⟨b', m', L', hrun, hw, hf, hch⟩ := ih (s + 2 ^ o) hw2 (by omega) (by omega)
        (fun j h1 h2 => (hfree2 j).mpr ⟨hfree j (by omega) h2, by omega⟩)
        (fun j h1 h2 h3 hfr => by
          obtain ⟨hfr', hout⟩ := (hfree2 j).mp hfr
          by_cases hj : j < idx
          · exact hdone j h1 hj h3 hfr'
          · exact hout ⟨⟨by omega, h3⟩, h2⟩)
      refine ⟨b', m', L', ?_, hw, hf.trans hf2, fun j k q hk => ?_⟩
      · simp only [hblock, hun, hsub, hcarve, Option.bind_eq_bind, Option.bind_some]
        exact hrun
      rw [hch j k q hk, hch3 j k q hk, or_assoc, ← or_and_right]
      have hiff : ((idx ≤ j ∧ j < stop) ∧ j < s + 2 ^ o) ∨ (s + 2 ^ o ≤ j ∧ j < stop) ↔
          idx ≤ j ∧ j < stop := by omega
      rw [hiff]
    · next hge =>
      refine ⟨b, m, L, rfl, h, rfl, fun j k q _ => ?_⟩
      have : ¬ (idx ≤ j ∧ j < stop) := by omega
      tauto

theorem reserveRange_false (b : Buddy) (start stop : Nat)
    (h : ∃ j, start ≤ j ∧ j < min stop b.frames ∧ b.isFree j = false) :
    b.reserveRange start stop = some (false, b) := by
  obtain ⟨j, h1, h2, hj⟩ := h
  have hall : (range' start (min stop b.frames - start)).all b.isFree = false := by
    rw [all_eq_false]
    exact ⟨j, by rw [mem_range'_1]; omega, by simp [hj]⟩
  simp only [reserveRange, hall]
  rfl

theorem reserveRange_true (h : Whole b m L) (start stop : Nat)
    (hfree : ∀ j, start ≤ j → j < min stop b.frames → FreeAt m j) :
    ∃ b' m' L', b.reserveRange start stop = some (true, b') ∧ Whole b' m' L' ∧
      b'.frames = b.frames ∧ ∀ j k q, k ≠ .free → (m' j = some (k, q) ↔ m j = some (k, q) ∨
        (start ≤ j ∧ j < min stop b.frames) ∧ k = .reserved ∧ q = 0) := by
  have hall : (range' start (min stop b.frames - start)).all b.isFree = true := by
    rw [all_eq_true]
    intro j hj
    rw [mem_range'_1] at hj
    exact (isFree_iff h).mpr (hfree j (by omega) (by omega))
  obtain ⟨b', m', L', hrun, hw, hf, hch⟩ := reserveFrom_spec start
    (min stop b.frames) _ start h le_rfl le_rfl hfree
    (fun j h1 h2 => absurd h2 (by omega))
  refine ⟨b', m', L', ?_, hw, hf, hch⟩
  simp [reserveRange, hall, hrun]

end Fastros.Alloc
