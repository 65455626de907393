import Fastros.Alloc.Buddy

/-!
# What the buddy allocator's tables represent

The state bytes describe a tiling of the frames by free, allocated and reserved
blocks, the links describe one list of free blocks per order, and no two buddies
are both free. While an operation is under way some frames are in no block. Four
primitive changes (a block is taken up or put down, on a list or off the lists)
keep this; the operations are made of them.
-/

namespace Fastros.Alloc

open Lib.Dyadic
open List hiding get set modify
open Function (update update_self update_of_ne update_eq_self)
open Lib.Linked (Segment mem_update_cons)

inductive Kind where
  | free
  | used
  | reserved
  deriving DecidableEq

/-- The state byte of a frame, from the kind and order of the block it heads. A
reserved frame is a block of its own. -/
def byte : Option (Kind × Nat) → UInt8
  | none => stNone
  | some (.reserved, _) => stReserved
  | some (.free, order) => freeMark order
  | some (.used, order) => usedMark order

section

variable {x : Option (Kind × Nat)} {o : Nat}

theorem freeMark_inj : ∀ o ≤ maxOrder, ∀ o' ≤ maxOrder, freeMark o = freeMark o' → o = o' := by
  decide

theorem freeMark_ne : ∀ o ≤ maxOrder, freeMark o ≠ stNone ∧ freeMark o ≠ stReserved ∧
    ∀ o' ≤ maxOrder, freeMark o ≠ usedMark o' := by
  decide

theorem usedMark_ne : ∀ o ≤ maxOrder, usedMark o ≠ stNone ∧ usedMark o ≠ stReserved := by
  decide

theorem usedMark_fields : ∀ o ≤ maxOrder, usedMark o &&& stKind = stUsed ∧
    (usedMark o &&& stOrder).toNat = o := by
  decide

theorem freeMark_kind : ∀ o ≤ maxOrder, freeMark o &&& stKind ≠ stUsed := by
  decide

section

variable (hx : ∀ k o, x = some (k, o) → o ≤ maxOrder)
include hx

theorem byte_eq_freeMark (ho : o ≤ maxOrder) : byte x = freeMark o ↔ x = some (.free, o) := by
  obtain _ | ⟨k, o'⟩ := x
  · simpa [byte] using (freeMark_ne o ho).1.symm
  have ho' := hx k o' rfl
  cases k with
  | free => simpa [byte] using ⟨freeMark_inj o' ho' o ho, fun h => by rw [h]⟩
  | used => simpa [byte] using ((freeMark_ne o ho).2.2 o' ho').symm
  | reserved => simpa [byte] using (freeMark_ne o ho).2.1.symm

theorem byte_eq_stReserved : byte x = stReserved ↔ ∃ o, x = some (.reserved, o) := by
  obtain _ | ⟨k, o'⟩ := x
  · simp [byte, stNone, stReserved]
  have ho' := hx k o' rfl
  cases k with
  | free => simpa [byte] using (freeMark_ne o' ho').2.1
  | used => simpa [byte] using (usedMark_ne o' ho').2
  | reserved => simp [byte]

theorem byte_used : byte x &&& stKind = stUsed ↔ ∃ o, x = some (.used, o) := by
  obtain _ | ⟨k, o'⟩ := x
  · simp [byte, stNone, stKind, stUsed]
  have ho' := hx k o' rfl
  cases k with
  | free => simpa [byte] using freeMark_kind o' ho'
  | used => simpa [byte] using (usedMark_fields o' ho').1
  | reserved =>
    have hne : stReserved &&& stKind ≠ stUsed := by decide
    simpa [byte] using hne

end

end

/-- `m` is the block each frame heads, `L` the lists of free blocks and `H` the
frames in no block. -/
structure Inv (b : Buddy) (m : Nat → Option (Kind × Nat)) (L : Nat → List Nat)
    (H : Nat → Prop) : Prop where
  bytes : ∀ {i}, i < b.frames → b.state i = byte (m i)
  tiling : Tiling b.frames maxOrder m H
  single : ∀ {i o}, m i = some (.reserved, o) → o = 0
  nodup : ∀ o, (L o).Nodup
  linked : ∀ o, Segment b.links none (L o) none
  heads : ∀ o, b.heads o = (L o).head?
  counts : ∀ o, b.counts o = (L o).length
  mem : ∀ {o i}, i ∈ L o ↔ m i = some (.free, o)
  merged : ∀ {o i}, o < maxOrder → i ∈ L o → buddy o i ∉ L o

/-- Allocated and reserved blocks are as before. -/
def Keeps (m m' : Nat → Option (Kind × Nat)) : Prop :=
  ∀ i k o, k ≠ .free → (m' i = some (k, o) ↔ m i = some (k, o))

/-- An operation on the tables that leaves the counters alone. -/
structure Apart (b b' : Buddy) : Prop where
  frames : b'.frames = b.frames
  freeFrames : b'.freeFrames = b.freeFrames
  managedFrames : b'.managedFrames = b.managedFrames

variable {b b' : Buddy} {m m' m'' : Nat → Option (Kind × Nat)} {L : Nat → List Nat}
  {H : Nat → Prop} {i j o : Nat} {k : Kind}

theorem Keeps.refl (m : Nat → Option (Kind × Nat)) : Keeps m m := fun _ _ _ _ => Iff.rfl

theorem Keeps.trans (h : Keeps m m') (h' : Keeps m' m'') : Keeps m m'' :=
  fun i k o hk => (h' i k o hk).trans (h i k o hk)

theorem Apart.trans {b'' : Buddy} (h : Apart b b') (h' : Apart b' b'') : Apart b b'' :=
  ⟨h'.frames.trans h.frames, h'.freeFrames.trans h.freeFrames,
    h'.managedFrames.trans h.managedFrames⟩

theorem keeps_update {x : Option (Kind × Nat)} (hi : ∀ k o, m i = some (k, o) → k = .free)
    (hx : ∀ k o, x = some (k, o) → k = .free) : Keeps m (update m i x) := by
  intro j k o hk
  by_cases hj : j = i
  · subst hj
    rw [update_self]
    exact ⟨fun h => absurd (hx k o h) hk, fun h => absurd (hi k o h) hk⟩
  · simp [hj]

theorem Inv.order (h : Inv b m L H) (i : Nat) : ∀ k o, m i = some (k, o) → o ≤ maxOrder :=
  fun _ _ hi => h.tiling.order hi

theorem Inv.state_free (h : Inv b m L H) (hi : i < b.frames) (ho : o ≤ maxOrder) :
    b.state i = freeMark o ↔ m i = some (.free, o) := by
  rw [h.bytes hi, byte_eq_freeMark (h.order i) ho]

theorem Inv.state_reserved (h : Inv b m L H) (hi : i < b.frames) :
    b.state i = stReserved ↔ m i = some (.reserved, 0) := by
  rw [h.bytes hi, byte_eq_stReserved (h.order i)]
  constructor
  · rintro ⟨o, ho⟩
    rw [ho, h.single ho]
  · exact fun h => ⟨0, h⟩

theorem Inv.head_lt (h : Inv b m L H) (hi : m i = some (k, o)) : i < b.frames :=
  h.tiling.lt hi (.refl o i)

theorem bytes_update (h : ∀ {i}, i < b.frames → b.state i = byte (m i)) (i : Nat)
    (x : Option (Kind × Nat)) {j : Nat} (hj : j < b.frames) :
    (b.set i (byte x)).state j = byte (update m i x j) := by
  by_cases hji : j = i
  · simp [Buddy.set, hji]
  · simpa [Buddy.set, hji] using h hj

theorem apart_set (b : Buddy) (i : Nat) (v : UInt8) : Apart b (b.set i v) := ⟨rfl, rfl, rfl⟩

theorem apart_push (b : Buddy) (i o : Nat) : Apart b (b.push i o) := ⟨rfl, rfl, rfl⟩

/-- An allocated block or a reserved frame is taken up. -/
theorem Inv.lift (h : Inv b m L H) (hi : m i = some (k, o)) (hk : k ≠ .free) :
    Inv (b.set i stNone) (update m i none) L (fun j => H j ∨ SameCell o i j) where
  bytes := bytes_update h.bytes i none
  tiling := h.tiling.lift hi
  single := forall_cells h.single nofun
  nodup := h.nodup
  linked := h.linked
  heads := h.heads
  counts := h.counts
  mem := by
    intro o' j
    rw [h.mem]
    by_cases hji : j = i
    · simp [hji, hi, hk]
    · simp [hji]
  merged := h.merged

/-- An allocated block or a reserved frame is put down. -/
theorem Inv.place (h : Inv b m L H) (ho : o ≤ maxOrder) (hal : 2 ^ o ∣ i)
    (hb : i + 2 ^ o ≤ b.frames) (hfree : ∀ j, SameCell o i j → H j) (hk : k ≠ .free)
    (hr : k = .reserved → o = 0) :
    Inv (b.set i (byte (some (k, o)))) (update m i (some (k, o))) L
      (fun j => H j ∧ ¬ SameCell o i j) where
  bytes := bytes_update h.bytes i _
  tiling := h.tiling.place ho hal hb hfree k
  single := forall_cells h.single fun hc => by cases hc; exact hr rfl
  nodup := h.nodup
  linked := h.linked
  heads := h.heads
  counts := h.counts
  mem := by
    intro o' j
    rw [h.mem]
    by_cases hji : j = i
    · have hnone := (h.tiling.outside (hfree i (.refl o i))).2
      simp [hji, hnone, hk]
    · simp [hji]
  merged := h.merged

/-- A frame in no block has the byte `ST_NONE` already. -/
theorem Inv.set_none (h : Inv b m L H) (hi : H i) : b.set i stNone = b := by
  obtain ⟨hlt, hm⟩ := h.tiling.outside hi
  have hst : b.state i = stNone := by rw [h.bytes hlt, hm, byte]
  rw [Buddy.set, ← hst, update_eq_self]

/-- The number of frames on the lists. -/
def weight (L : Nat → List Nat) : Nat := ∑ o ∈ Finset.range (maxOrder + 1), (L o).length * 2 ^ o

theorem weight_update {l : List Nat} (ho : o ≤ maxOrder) :
    weight (update L o l) + (L o).length * 2 ^ o = weight L + l.length * 2 ^ o := by
  have hmem : o ∈ Finset.range (maxOrder + 1) := by
    rw [Finset.mem_range]
    omega
  have : ∑ q ∈ (Finset.range (maxOrder + 1)).erase o, (update L o l q).length * 2 ^ q
      = ∑ q ∈ (Finset.range (maxOrder + 1)).erase o, (L q).length * 2 ^ q := by
    apply Finset.sum_congr rfl
    intro q hq
    rw [update_of_ne (Finset.ne_of_mem_erase hq)]
  unfold weight
  rw [← Finset.add_sum_erase _ _ hmem, ← Finset.add_sum_erase _ (fun q => (L q).length * 2 ^ q) hmem, update_self]
  omega

theorem weight_cons (ho : o ≤ maxOrder) : weight (update L o (i :: L o)) = weight L + 2 ^ o := by
  have h := weight_update (L := L) (l := i :: L o) ho
  rw [length_cons, add_mul] at h
  omega

theorem weight_erase (ho : o ≤ maxOrder) (hi : i ∈ L o) :
    weight (update L o ((L o).erase i)) + 2 ^ o = weight L := by
  have h := weight_update (L := L) (l := (L o).erase i) ho
  have hlen : (L o).length = ((L o).erase i).length + 1 := by
    rw [length_erase_of_mem hi]
    have := length_pos_of_mem hi
    omega
  rw [hlen, add_mul] at h
  omega

/-- A node is on the list of one order only. -/
theorem Inv.list_unique (h : Inv b m L H) {o' : Nat} (hi : i ∈ L o) (hi' : i ∈ L o') : o = o' := by
  have h1 := h.mem.mp hi
  rw [h.mem.mp hi'] at h1
  simpa using h1.symm

theorem Inv.detach (h : Inv b m L H) (hi : i ∈ L o) : ∃ b', b.unlink i o = some b' ∧ Apart b b' ∧
    Inv (b'.set i stNone) (update m i none) (update L o ((L o).erase i))
      (fun j => H j ∨ SameCell o i j) := by
  obtain ⟨l1, l2, hl1, hL, herase⟩ := exists_erase_eq hi
  have hm := h.mem.mp hi
  have hseg := h.linked o
  rw [hL] at hseg
  have hnd := h.nodup o
  rw [hL] at hnd
  have hlink := hseg.link
  have hcount : Lib.Checked.sub (b.counts o) 1 = some (l1 ++ l2).length := by
    rw [h.counts o, hL, Lib.Checked.sub_eq_some]
    simp only [length_append, length_cons]
    omega
  have hrest : ∀ q j, j ∈ update L o ((L o).erase i) q ↔ j ≠ i ∧ j ∈ L q := by
    intro q j
    by_cases hq : q = o
    · subst hq
      rw [update_self, (h.nodup q).mem_erase_iff]
    rw [update_of_ne hq]
    refine ⟨fun hj => ⟨?_, hj⟩, fun hj => hj.2⟩
    rintro rfl
    exact hq (h.list_unique hj hi)
  have hun : b.unlink i o = some { b with
      links := Lib.Linked.unlink b.links i
      heads := l1.getLast?.elim (update b.heads o l2.head?) fun _ => b.heads
      counts := update b.counts o (l1 ++ l2).length } := by
    rw [Buddy.unlink, hcount, hlink]
    cases l1.getLast? <;> rfl
  refine ⟨_, hun, ⟨rfl, rfl, rfl⟩, ?_⟩
  constructor
  · exact bytes_update h.bytes i none
  · exact h.tiling.lift hm
  · exact forall_cells h.single fun hc => by cases hc
  · exact (Function.forall_update_iff L fun _ l => l.Nodup).mpr
      ⟨(h.nodup o).erase i, fun q _ => h.nodup q⟩
  · intro q
    by_cases hq : q = o
    · subst hq
      rw [update_self, herase]
      exact hseg.unlink hnd
    rw [update_of_ne hq]
    refine (h.linked q).congr fun j hj => ?_
    -- the neighbours of the block are on its own list
    refine Lib.Linked.unlink_of_not_mem hseg fun hin => hq (h.list_unique hj ?_)
    rw [hL]
    simp only [mem_append, mem_cons] at hin ⊢
    tauto
  · intro q
    simp only [Buddy.set]
    by_cases hq : q = o
    · subst hq
      rw [herase]
      cases l1 using reverseRecOn with
      | nil => simp
      | append_singleton t x =>
        have hhead : b.heads q = (t ++ [x] ++ i :: l2).head? := by rw [h.heads q, hL]
        rw [getLast?_append_of_ne_nil _ (by simp)]
        cases t <;> simpa using hhead
    · rw [update_of_ne hq, ← h.heads q]
      cases l1.getLast? <;> simp [hq]
  · intro q
    by_cases hq : q = o
    · subst hq
      simp [Buddy.set, herase]
    · simp [Buddy.set, hq, h.counts q]
  · intro q j
    rw [hrest, h.mem]
    by_cases hji : j = i <;> simp [hji]
  · intro q j hlt hj hbud
    exact h.merged hlt ((hrest q j).mp hj).2 ((hrest q _).mp hbud).2

/-- A free block is put on its list; its buddy is not free. -/
theorem Inv.attach (h : Inv b m L H) (ho : o ≤ maxOrder) (hal : 2 ^ o ∣ i)
    (hb : i + 2 ^ o ≤ b.frames) (hfree : ∀ j, SameCell o i j → H j)
    (hbuddy : o < maxOrder → buddy o i ∉ L o) :
    Inv (b.push i o) (update m i (some (.free, o))) (update L o (i :: L o))
      (fun j => H j ∧ ¬ SameCell o i j) := by
  have hnone := (h.tiling.outside (hfree i (.refl o i))).2
  have hnot : ∀ q, i ∉ L q := by
    intro q hq
    rw [h.mem.mp hq] at hnone
    cases hnone
  constructor
  · exact bytes_update h.bytes i (some (.free, o))
  · exact h.tiling.place ho hal hb hfree .free
  · exact forall_cells h.single nofun
  · exact (Function.forall_update_iff L fun _ l => l.Nodup).mpr
      ⟨nodup_cons.mpr ⟨hnot o, h.nodup o⟩, fun q _ => h.nodup q⟩
  · intro q
    by_cases hq : q = o
    · subst hq
      simpa [Buddy.push, Buddy.set, h.heads q] using (h.linked q).push (h.nodup q) (hnot q)
    rw [update_of_ne hq]
    refine (h.linked q).congr fun j hj => ?_
    simp only [Buddy.push, Buddy.set, h.heads o]
    apply Lib.Linked.push_of_ne
    · rintro rfl
      exact hnot q hj
    · rintro x hx rfl
      exact hq (h.list_unique hj (mem_of_mem_head? hx))
  · intro q
    by_cases hq : q = o
    · subst hq
      simp [Buddy.push, Buddy.set]
    · simp [Buddy.push, Buddy.set, hq, h.heads q]
  · intro q
    by_cases hq : q = o
    · subst hq
      simp [Buddy.push, Buddy.set, h.counts q]
    · simp [Buddy.push, Buddy.set, hq, h.counts q]
  · intro q j
    rw [mem_update_cons, h.mem]
    by_cases hji : j = i
    · simp [hji, hnone, eq_comm]
    · simp [hji]
  · intro q j hlt hj hbud
    have hne : buddy q j ≠ j := fun he => not_sameCell_buddy q j (by rw [he]; exact .refl q j)
    rcases mem_update_cons.mp hj with ⟨rfl, rfl⟩ | hj'
    · rcases mem_update_cons.mp hbud with ⟨-, he⟩ | hin
      · exact hne he
      · exact hbuddy hlt hin
    · rcases mem_update_cons.mp hbud with ⟨rfl, he⟩ | hin
      · rw [← he, buddy_buddy] at hbuddy
        exact hbuddy hlt hj'
      · exact h.merged hlt hj' hin

end Fastros.Alloc
