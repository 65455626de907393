import Fastros.Alloc.Slab
import Fastros.Lib.Linked

/-!
# What the slab allocator's memory represents

A slab is a header and objects. Its free objects are on a chain of encoded
pointers; the slabs of a class with a free object are on a doubly linked list
through their headers. `Rep` describes one slab, `Core` all of them.
-/

namespace Fastros.Alloc.Slabs

open List Slab

open Function (update update_self update_of_ne forall_update_iff update_apply)
open Lib.Linked (Link Segment Chain mem_update_cons)

/-- A word read as a pointer. -/
def ptr (n : Nat) : Option Nat := if n = 0 then none else some n

@[simp] theorem ptr_zero : ptr 0 = none := rfl

@[simp] theorem ptr_eq_none {n : Nat} : ptr n = none ↔ n = 0 := by simp [ptr]

theorem ptr_eq_some {n m : Nat} : ptr n = some m ↔ n = m ∧ m ≠ 0 := by
  rw [ptr]
  split
  · next h =>
    simp only [reduceCtorEq, false_iff]
    omega
  · next h =>
    simp only [Option.some.injEq]
    omega

theorem ptr_of_ne {n : Nat} (h : n ≠ 0) : ptr n = some n := if_neg h

theorem field_offsets : classField = 8 ∧ inUseField = 16 ∧ capacityField = 24 ∧ freeField = 32 ∧
    nextField = 40 ∧ prevField = 48 ∧ onPartialField = 56 ∧ headerSize = 64 := by
  decide

/-- How the classes are laid out. -/
structure Shape (c : Nat) : Prop where
  size : 16 ≤ classSize c
  words : classSize c % 8 = 0
  first : 64 ≤ firstOffset c
  firstMul : firstOffset c % classSize c = 0
  fits : firstOffset c + capacity c * classSize c ≤ slabBytes c
  bytes : slabBytes c % classSize c = 0
  page : slabBytes c % 4096 = 0
  two : 2 ≤ capacity c

theorem shape {c : Nat} (hc : c < 8) : Shape c := by
  have h : ∀ c < 8, 16 ≤ classSize c ∧ classSize c % 8 = 0 ∧ 64 ≤ firstOffset c ∧
      firstOffset c % classSize c = 0 ∧ firstOffset c + capacity c * classSize c ≤ slabBytes c ∧
      slabBytes c % classSize c = 0 ∧ slabBytes c % 4096 = 0 ∧ 2 ≤ capacity c := by decide
  obtain ⟨h1, h2, h3, h4, h5, h6, h7, h8⟩ := h c hc
  exact ⟨h1, h2, h3, h4, h5, h6, h7, h8⟩

theorem slabBytes_ge {c : Nat} (hc : c < 8) : 64 ≤ slabBytes c := by
  have h1 := (shape hc).first
  have h2 := (shape hc).fits
  omega

/-- The objects of a slab. -/
def objects (s c : Nat) : List Nat :=
  (List.range (capacity c)).map fun i => s + firstOffset c + i * classSize c

variable {s s' c c' o o' a : Nat}
variable {y q : Nat}

theorem mem_objects : o ∈ objects s c ↔ ∃ i < capacity c, o = s + firstOffset c + i * classSize c := by
  simp [objects, eq_comm]

theorem object_bounds (hc : c < 8) (ho : o ∈ objects s c) :
    s + 64 ≤ o ∧ o + classSize c ≤ s + slabBytes c := by
  obtain ⟨i, hi, rfl⟩ := mem_objects.mp ho
  have hs := shape hc
  have hmul := Nat.mul_le_mul_right (classSize c) (Nat.succ_le_of_lt hi)
  rw [Nat.succ_mul] at hmul
  have h1 := hs.first
  have h2 := hs.fits
  omega

theorem object_unique (ho : o ∈ objects s c) (ho' : o' ∈ objects s c)
    (h1 : o ≤ a) (h2 : a < o + classSize c) (h3 : o' ≤ a) (h4 : a < o' + classSize c) : o = o' := by
  obtain ⟨i, _, rfl⟩ := mem_objects.mp ho
  obtain ⟨j, _, rfl⟩ := mem_objects.mp ho'
  have hmul : ∀ {i j}, i < j → i * classSize c + classSize c ≤ j * classSize c := by
    intro i j hij
    rw [← Nat.succ_mul]
    exact Nat.mul_le_mul_right _ hij
  rcases Nat.lt_trichotomy i j with hij | rfl | hij
  · have := hmul hij
    omega
  · rfl
  · have := hmul hij
    omega

theorem object_slab (hc : c < 8) (hs : s % slabBytes c = 0) (ho : o ∈ objects s c) :
    o / slabBytes c * slabBytes c = s := by
  have hb := object_bounds hc ho
  have hsh := shape hc
  obtain ⟨q, rfl⟩ := Nat.dvd_of_mod_eq_zero hs
  have := hsh.size
  obtain ⟨d, hd⟩ := Nat.exists_eq_add_of_le (show slabBytes c * q ≤ o by omega)
  have hlt : d < slabBytes c := by omega
  rw [hd, Nat.mul_add_div (by omega), Nat.div_eq_of_lt hlt, add_zero, mul_comm]

theorem objects_nodup (hc : c < 8) : (objects s c).Nodup := by
  have := (shape hc).size
  refine List.Nodup.map_on ?_ nodup_range
  intro i _ j _ h
  have hmul : i * classSize c = j * classSize c := by omega
  exact Nat.eq_of_mul_eq_mul_right (by omega) hmul

theorem objects_length : (objects s c).length = capacity c := by simp [objects]

namespace Slab

variable (st : Slab)

@[simp] theorem write_mem (a v x : Nat) : (st.write a v).mem x = if x = a then v else st.mem x := by
  simp [write, update_apply]

@[simp] theorem zero_mem (a n x : Nat) :
    (st.zero a n).mem x = if a ≤ x ∧ x < a + n then 0 else st.mem x := rfl

@[simp] theorem write_slabs (a v : Nat) : (st.write a v).slabs = st.slabs := rfl
@[simp] theorem write_pages (a v : Nat) : (st.write a v).pages = st.pages := rfl

@[simp] theorem encode_write (a v p slot : Nat) : (st.write a v).encode p slot = st.encode p slot := rfl
@[simp] theorem encode_zero (a n p slot : Nat) : (st.zero a n).encode p slot = st.encode p slot := rfl

theorem encode_encode (p slot : Nat) : st.encode (st.encode p slot) slot = p := by
  simp only [encode, Nat.xor_assoc]
  rw [← Nat.xor_assoc (swapBytes slot), Nat.xor_comm (swapBytes slot) st.secret, Nat.xor_assoc,
    Nat.xor_self, Nat.xor_zero, Nat.xor_self, Nat.xor_zero]

/-- The object after a free one. -/
def next (o : Nat) : Option Nat := ptr (st.encode (st.mem o) o)

/-- The first free object of a slab. -/
def firstFree (s : Nat) : Option Nat := ptr (st.encode (st.mem (s + freeField)) (s + freeField))

/-- The links of a slab on its partial list. -/
def link (s : Nat) : Link Nat := ⟨ptr (st.mem (s + nextField)), ptr (st.mem (s + prevField))⟩

end Slab

/-- A slab of class `c` at `s` with the free objects `F`; it is on its partial list if
`on` holds. -/
structure Rep (st : Slab) (s c : Nat) (F : List Nat) (on : Prop) : Prop where
  magic : st.mem s = headerMagic
  cls : st.mem (s + classField) = c
  inUse : st.mem (s + inUseField) + F.length = capacity c
  chain : Chain st.next (st.firstFree s) F
  onList : on ↔ st.mem (s + onPartialField) ≠ 0
  nodup : F.Nodup
  objs : ∀ o ∈ F, o ∈ objects s c
  blank : ∀ o ∈ F, ∀ x, o < x → x < o + classSize c → x % 8 = 0 → st.mem x = 0

variable {st st' : Slab} {F l : List Nat} {on : Prop}

/-- The words a slab is read from: those of its header but the links, and its free objects. -/
theorem Rep.frame {on' : Prop} (h : Rep st s c F on) (hc : c < 8) (hsec : st'.secret = st.secret)
    (hhead : ∀ k, k < 40 → st'.mem (s + k) = st.mem (s + k))
    (hobj : ∀ o ∈ F, ∀ x, o ≤ x → x < o + classSize c → st'.mem x = st.mem x)
    (hon : on' ↔ st'.mem (s + onPartialField) ≠ 0) : Rep st' s c F on' := by
  have := field_offsets
  have henc : ∀ p slot, st'.encode p slot = st.encode p slot := by
    intro p slot
    rw [encode, encode, hsec]
  refine ⟨?_, ?_, ?_, ?_, hon, h.nodup, h.objs, ?_⟩
  · rw [← h.magic]
    exact hhead 0 (by omega)
  · rw [hhead _ (by omega), h.cls]
  · rw [hhead _ (by omega), h.inUse]
  · rw [firstFree, henc, hhead _ (by omega)]
    refine h.chain.congr fun o ho => ?_
    have := (shape hc).size
    rw [Slab.next, Slab.next, henc, hobj o ho o le_rfl (by omega)]
  · intro o ho x hx1 hx2 hx3
    rw [hobj o ho x (by omega) hx2]
    exact h.blank o ho x hx1 hx2 hx3

/-- The block of a slab is unchanged, apart from its links. -/
theorem Rep.congr {on' : Prop} (h : Rep st s c F on) (hc : c < 8) (hsec : st'.secret = st.secret)
    (hmem : ∀ a, s ≤ a → a < s + slabBytes c → a ≠ s + nextField → a ≠ s + prevField →
      a ≠ s + onPartialField → st'.mem a = st.mem a)
    (hon : on' ↔ st'.mem (s + onPartialField) ≠ 0) : Rep st' s c F on' := by
  have := field_offsets
  have hb := slabBytes_ge hc
  refine h.frame hc hsec ?_ ?_ hon
  · intro k hk
    exact hmem _ (by omega) (by omega) (by omega) (by omega) (by omega)
  · intro o ho x hx1 hx2
    have hb := object_bounds hc (h.objs o ho)
    exact hmem x (by omega) (by omega) (by omega) (by omega) (by omega)

theorem Rep.length_le (h : Rep st s c F on) : F.length ≤ capacity c := by
  have := h.inUse
  omega

theorem Rep.length_lt (h : Rep st s c F on) (ho : o ∈ objects s c) (hF : o ∉ F) :
    F.length < capacity c := by
  have hnd : (o :: F).Nodup := nodup_cons.mpr ⟨hF, h.nodup⟩
  have hsub : o :: F ⊆ objects s c := by
    intro x hx
    rcases mem_cons.mp hx with rfl | hx
    · exact ho
    · exact h.objs x hx
  have hle := (subperm_of_subset hnd hsub).length_le
  rw [objects_length, length_cons] at hle
  omega

/-- The first free object is taken. -/
theorem Rep.pop (h : Rep st s c (o :: l) on) (hc : c < 8) :
    Rep (((st.write (s + freeField) (st.encode (st.encode (st.mem o) o) (s + freeField))).write o 0).write
      (s + inUseField) (st.mem (s + inUseField) + 1)) s c l on := by
  have := field_offsets
  have hb := object_bounds hc (h.objs o mem_cons_self)
  have := (shape hc).size
  have hnot : o ∉ l := (nodup_cons.mp h.nodup).1
  have hobjs : ∀ o' ∈ l, o' ∈ objects s c := fun o' ho' => h.objs o' (mem_cons_of_mem o ho')
  -- words of the other free objects are not written
  have hother : ∀ o' ∈ l, ∀ x, o' ≤ x → x < o' + classSize c →
      x ≠ s + freeField ∧ x ≠ o ∧ x ≠ s + inUseField := by
    intro o' ho' x hx1 hx2
    have := object_bounds hc (hobjs o' ho')
    refine ⟨by omega, ?_, by omega⟩
    rintro rfl
    have he := object_unique (h.objs x mem_cons_self) (hobjs o' ho') le_rfl (by omega) hx1 hx2
    exact hnot (he ▸ ho')
  refine ⟨?_, ?_, ?_, ?_, ?_, (nodup_cons.mp h.nodup).2, hobjs, ?_⟩
  · simp only [write_mem]
    repeat rw [if_neg (by omega)]
    rw [h.magic]
  · simp only [write_mem]
    repeat rw [if_neg (by omega)]
    rw [h.cls]
  · have hin := h.inUse
    simp only [write_mem, if_true]
    rw [length_cons] at hin
    omega
  · have hchain := h.chain.2
    simp only [firstFree, write_mem, encode_write]
    rw [if_neg (by omega), if_neg (by omega), if_true, encode_encode]
    refine hchain.congr fun o' ho' => ?_
    obtain ⟨h1, h2, h3⟩ := hother o' ho' o' le_rfl (by omega)
    simp only [Slab.next, encode_write, write_mem, h1, h2, h3, if_false]
  · rw [h.onList]
    simp only [write_mem]
    repeat rw [if_neg (by omega)]
  · intro o' ho' x hx1 hx2 hx3
    obtain ⟨h1, h2, h3⟩ := hother o' ho' x (by omega) hx2
    simp only [write_mem, h1, h2, h3, if_false]
    exact h.blank o' (mem_cons_of_mem o ho') x hx1 hx2 hx3

/-- An object is zeroed and put in front of the free ones, of which `u` are then used. -/
def pushed (st : Slab) (c s o u : Nat) : Slab :=
  (((st.zero o (classSize c)).write o
    (st.encode (st.encode (st.mem (s + freeField)) (s + freeField)) o)).write
    (s + freeField) (st.encode o (s + freeField))).write (s + inUseField) u

/-- A used object is zeroed and becomes the first free one. -/
theorem Rep.push (h : Rep st s c l on) (hc : c < 8) (ho : o ∈ objects s c) (hnot : o ∉ l) (u : Nat)
    (hu : u + 1 = st.mem (s + inUseField)) : Rep (pushed st c s o u) s c (o :: l) on := by
  have := field_offsets
  have hb := object_bounds hc ho
  have := (shape hc).size
  -- words of the other free objects are not written
  have hother : ∀ o' ∈ l, ∀ x, o' ≤ x → x < o' + classSize c →
      x ≠ s + freeField ∧ ¬ (o ≤ x ∧ x < o + classSize c) ∧ x ≠ s + inUseField := by
    intro o' ho' x hx1 hx2
    have := object_bounds hc (h.objs o' ho')
    refine ⟨by omega, ?_, by omega⟩
    rintro ⟨h1, h2⟩
    have he := object_unique ho (h.objs o' ho') h1 h2 hx1 hx2
    exact hnot (he ▸ ho')
  have hhead : ∀ k, k < 64 → k ≠ 32 → k ≠ 16 → (pushed st c s o u).mem (s + k) = st.mem (s + k) := by
    intro k hk h32 h16
    simp only [pushed, write_mem, zero_mem]
    repeat rw [if_neg (by omega)]
  refine ⟨?_, ?_, ?_, ⟨?_, ?_⟩, ?_, nodup_cons.mpr ⟨hnot, h.nodup⟩, ?_, ?_⟩
  · rw [← h.magic]
    exact hhead 0 (by omega) (by omega) (by omega)
  · rw [hhead _ (by omega) (by omega) (by omega), h.cls]
  · have := h.inUse
    simp only [pushed, write_mem, if_true, length_cons]
    omega
  · simp only [pushed, firstFree, write_mem, encode_write, encode_zero]
    rw [if_neg (by omega), if_true, encode_encode, ptr_of_ne (by omega)]
  · have hfirst : (pushed st c s o u).next o = st.firstFree s := by
      simp only [pushed, Slab.next, firstFree, write_mem, encode_write, encode_zero]
      rw [if_neg (by omega), if_neg (by omega), if_true, encode_encode]
    rw [hfirst]
    refine h.chain.congr fun o' ho' => ?_
    obtain ⟨h1, h2, h3⟩ := hother o' ho' o' le_rfl (by omega)
    have h4 : o' ≠ o := by
      rintro rfl
      exact hnot ho'
    simp only [pushed, Slab.next, encode_write, encode_zero, write_mem, Slab.zero_mem,
      h1, h2, h3, h4, if_false]
  · rw [h.onList, hhead _ (by omega) (by omega) (by omega)]
  · intro o' ho'
    rcases mem_cons.mp ho' with rfl | ho'
    · exact ho
    · exact h.objs o' ho'
  · intro o' ho' x hx1 hx2 hx3
    simp only [pushed, write_mem, Slab.zero_mem]
    rcases mem_cons.mp ho' with rfl | ho'
    · repeat rw [if_neg (by omega)]
      rw [if_pos (by omega)]
    obtain ⟨h1, h2, h3⟩ := hother o' ho' x (by omega) hx2
    have h4 : x ≠ o := by
      rintro rfl
      exact h2 ⟨le_rfl, by omega⟩
    simp only [h1, h2, h3, h4, if_false]
    exact h.blank o' ho' x hx1 hx2 hx3

/-- `S` are the slabs of each class, `F` the free objects of each slab and `P` the
partial lists. Which slabs are on the partial lists is left open. -/
structure Core (st : Slab) (S : Nat → List Nat) (F : Nat → List Nat) (P : Nat → List Nat) :
    Prop where
  classLt : ∀ {s c}, s ∈ S c → c < 8
  pages : ∀ {s q}, (s, q) ∈ st.pages ↔ ∃ c, s ∈ S c ∧ q = slabOrder c
  pagesNodup : st.pages.Nodup
  nonzero : ∀ {s c}, s ∈ S c → s ≠ 0
  aligned : ∀ {s c}, s ∈ S c → s % slabBytes c = 0
  apart : ∀ {s c s' c'}, s ∈ S c → s' ∈ S c' →
    s + slabBytes c ≤ s' ∨ s' + slabBytes c' ≤ s ∨ s = s' ∧ c = c'
  rep : ∀ {s c}, s ∈ S c → Rep st s c (F s) (s ∈ P c)
  nodup : ∀ c, (S c).Nodup
  listNodup : ∀ c, (P c).Nodup
  sub : ∀ {s c}, s ∈ P c → s ∈ S c
  linked : ∀ c, Segment st.link none (P c) none
  heads : ∀ c, ptr (st.heads c) = (P c).head?
  slabs : ∀ c, st.slabs c = (S c).length
  inUse : ∀ c, st.inUse c + ((S c).map fun s => (F s).length).sum = (S c).length * capacity c

variable {S F P : Nat → List Nat}

theorem Core.page_aligned (h : Core st S F P) (hs : s ∈ S c) : s % 4096 = 0 := by
  have h1 := h.aligned hs
  have h2 := (shape (h.classLt hs)).page
  obtain ⟨q, hq⟩ := Nat.dvd_of_mod_eq_zero h1
  obtain ⟨r, hr⟩ := Nat.dvd_of_mod_eq_zero h2
  rw [hq, hr, mul_assoc, Nat.mul_mod_right]

theorem Core.class_unique (h : Core st S F P) (hs : s ∈ S c) (hs' : s ∈ S c') : c = c' := by
  have h1 := slabBytes_ge (h.classLt hs)
  have h2 := slabBytes_ge (h.classLt hs')
  rcases h.apart hs hs' with h | h | ⟨-, h⟩
  · omega
  · omega
  · exact h

theorem Core.block_unique (h : Core st S F P) (hs : s ∈ S c) (hs' : s' ∈ S c')
    (h1 : s ≤ a) (h2 : a < s + slabBytes c) (h3 : s' ≤ a) (h4 : a < s' + slabBytes c') : s = s' := by
  rcases h.apart hs hs' with h | h | ⟨h, -⟩
  · omega
  · omega
  · exact h

theorem sum_map_update_same (g : List Nat → Nat) (v : List Nat) (hs : s ∉ l) :
    (l.map fun x => g (update F s v x)).sum = (l.map fun x => g (F x)).sum := by
  congr 1
  apply map_congr_left
  intro y hy
  have hne : y ≠ s := by
    rintro rfl
    exact hs hy
  simp [hne]

theorem sum_map_update (g : List Nat → Nat) (v : List Nat) : ∀ {l : List Nat}, l.Nodup → s ∈ l →
    (l.map fun x => g (update F s v x)).sum + g (F s) = (l.map fun x => g (F x)).sum + g v := by
  intro l
  induction l with
  | nil => exact fun _ h => absurd h not_mem_nil
  | cons x xs ih =>
    intro hnd hs
    obtain ⟨hx, hnd'⟩ := nodup_cons.mp hnd
    rw [map_cons, map_cons, sum_cons, sum_cons]
    by_cases he : x = s
    · subst he
      rw [sum_map_update_same g v hx, update_self]
      omega
    · have := ih hnd' ((mem_cons.mp hs).resolve_left (Ne.symm he))
      rw [update_of_ne he]
      omega

/-- What the state does not say about memory. -/
structure Alike (st st' : Slab) : Prop where
  secret : st'.secret = st.secret
  heads : st'.heads = st.heads
  slabs : st'.slabs = st.slabs
  pages : st'.pages = st.pages

/-- A slab whose block is left alone keeps its representation and its links. -/
theorem Core.same_block (h : Core st S F P) (hs : s ∈ S c) (hsec : st'.secret = st.secret)
    (hmem : ∀ a, s ≤ a → a < s + slabBytes c → st'.mem a = st.mem a) :
    Rep st' s c (F s) (s ∈ P c) ∧ st'.link s = st.link s := by
  have := field_offsets
  have hb := slabBytes_ge (h.classLt hs)
  constructor
  · refine (h.rep hs).congr (h.classLt hs) hsec (fun a h1 h2 _ _ _ => hmem a h1 h2) ?_
    rw [hmem _ (by omega) (by omega)]
    exact (h.rep hs).onList
  · rw [link, link, hmem _ (by omega) (by omega), hmem _ (by omega) (by omega)]

theorem Core.congr (h : Core st S F P) (hal : Alike st st') (huse : st'.inUse = st.inUse)
    (hmem : ∀ y q, y ∈ S q → ∀ a, y ≤ a → a < y + slabBytes q → st'.mem a = st.mem a) :
    Core st' S F P := by
  refine ⟨h.classLt, by rw [hal.pages]; exact h.pages, by rw [hal.pages]; exact h.pagesNodup,
    h.nonzero, h.aligned, h.apart, ?_, h.nodup, h.listNodup, h.sub, ?_, by rw [hal.heads]; exact h.heads,
    by rw [hal.slabs]; exact h.slabs, by rw [huse]; exact h.inUse⟩
  · intro y q hy
    exact (h.same_block hy hal.secret (hmem y q hy)).1
  · intro q
    exact (h.linked q).congr fun y hy =>
      (h.same_block (h.sub hy) hal.secret (hmem y q (h.sub hy))).2

/-- A change inside the block of one slab, apart from its links. -/
theorem Core.change (h : Core st S F P) (hs : s ∈ S c) (hal : Alike st st')
    (hmem : ∀ a, a < s ∨ s + slabBytes c ≤ a ∨ a = s + nextField ∨ a = s + prevField →
      st'.mem a = st.mem a)
    (hrep : Rep st' s c l (s ∈ P c)) (hin : st'.inUse c + l.length = st.inUse c + (F s).length)
    (hother : ∀ c', c' ≠ c → st'.inUse c' = st.inUse c') : Core st' S (update F s l) P := by
  have := field_offsets
  have hlink : ∀ {y c'}, y ∈ S c' → st'.link y = st.link y := by
    intro y c' hy
    have hb := slabBytes_ge (h.classLt hy)
    have hmem' : ∀ k, k = 40 ∨ k = 48 → st'.mem (y + k) = st.mem (y + k) := by
      intro k hk
      by_cases hys : y = s
      · subst hys
        exact hmem _ (by omega)
      · have hout : ¬ (s ≤ y + k ∧ y + k < s + slabBytes c) := fun hin =>
          hys (h.block_unique hy hs (by omega) (by omega) hin.1 hin.2)
        exact hmem _ (by omega)
    rw [link, link, hmem' _ (by omega), hmem' _ (by omega)]
  refine ⟨h.classLt, ?_, ?_, h.nonzero, h.aligned, h.apart, ?_, h.nodup, h.listNodup, h.sub, ?_, ?_,
    ?_, ?_⟩
  · intro s' q
    rw [hal.pages]
    exact h.pages
  · rw [hal.pages]
    exact h.pagesNodup
  · intro s' c' hs'
    by_cases he : s' = s
    · subst he
      obtain rfl := h.class_unique hs hs'
      rwa [update_self]
    rw [update_of_ne he]
    have hsame : ∀ a, s' ≤ a → a < s' + slabBytes c' → st'.mem a = st.mem a := by
      intro a h1 h2
      apply hmem
      by_contra hout
      exact he (h.block_unique hs' hs h1 h2 (by omega) (by omega))
    exact (h.same_block hs' hal.secret hsame).1
  · intro c'
    exact (h.linked c').congr fun y hy => hlink (h.sub hy)
  · intro c'
    rw [hal.heads]
    exact h.heads c'
  · intro c'
    rw [hal.slabs]
    exact h.slabs c'
  · intro c'
    have hsum := h.inUse c'
    by_cases hc' : c' = c
    · subst hc'
      have := sum_map_update (F := F) length l (h.nodup c') hs
      omega
    · rw [sum_map_update_same length _ fun hin => hc' (h.class_unique hin hs), hother c' hc']
      exact hsum

theorem linkPartial_mem (st : Slab) (c s a : Nat) : (st.linkPartial c s).mem a =
    if st.heads c ≠ 0 ∧ a = st.heads c + prevField then s
    else if a = s + onPartialField then 1
    else if a = s + prevField then 0
    else if a = s + nextField then st.heads c else st.mem a := by
  rw [linkPartial]
  by_cases hh : st.heads c = 0
  · simp [hh]
  · simp [hh]

theorem linkPartial_link (hs : s % 4096 = 0) (hh : st.heads c % 4096 = 0) (hne : st.heads c ≠ s)
    (hs0 : s ≠ 0) {y : Nat} (hy : y % 4096 = 0) :
    (st.linkPartial c s).link y = Lib.Linked.push st.link (ptr (st.heads c)) s y := by
  have := field_offsets
  simp only [link, linkPartial_mem]
  by_cases hz : st.heads c = 0
  · simp only [hz, ne_eq, not_true_eq_false, false_and, if_false, ptr_zero, Lib.Linked.push]
    by_cases hys : y = s
    · subst hys
      rw [update_self, if_neg (by omega), if_neg (by omega), if_pos rfl, if_neg (by omega),
        if_pos rfl]
      rfl
    · rw [update_of_ne hys]
      repeat rw [if_neg (by omega)]
      rfl
  simp only [hz, ne_eq, not_false_eq_true, true_and, ptr_of_ne hz, Lib.Linked.push]
  by_cases hyh : y = st.heads c
  · subst hyh
    rw [update_self, update_of_ne hne]
    repeat rw [if_neg (by omega)]
    rw [if_pos rfl, ptr_of_ne hs0]
    rfl
  rw [update_of_ne hyh]
  by_cases hys : y = s
  · subst hys
    rw [update_self]
    repeat rw [if_neg (by omega)]
    rw [if_pos rfl]
    repeat rw [if_neg (by omega)]
    rw [if_pos rfl, ptr_of_ne hz]
    rfl
  · rw [update_of_ne hys]
    repeat rw [if_neg (by omega)]
    rfl

/-- The only links in the block of a slab are its own. -/
theorem Core.own_links (h : Core st S F P) (hs : s ∈ S c) (h1 : s ≤ a) (h2 : a < s + slabBytes c)
    (hn : a ≠ s + nextField) (hp : a ≠ s + prevField) (hy : y ∈ S q) :
    a ≠ y + nextField ∧ a ≠ y + prevField := by
  have := field_offsets
  have hb := slabBytes_ge (h.classLt hy)
  by_cases he : y = s
  · rw [he]
    exact ⟨hn, hp⟩
  constructor
  · rintro rfl
    exact he (h.block_unique hy hs (by omega) (by omega) h1 h2)
  · rintro rfl
    exact he (h.block_unique hy hs (by omega) (by omega) h1 h2)

/-- Only links are written, and whether one slab is on its list. -/
theorem Core.relist (h : Core st S F P) (hs : s ∈ S c) {P' : Nat → List Nat}
    (hsec : st'.secret = st.secret) (hpages : st'.pages = st.pages) (hslabs : st'.slabs = st.slabs)
    (huse : st'.inUse = st.inUse)
    (hmem : ∀ a, (∀ y q, y ∈ S q → a ≠ y + nextField ∧ a ≠ y + prevField) →
      a ≠ s + onPartialField → st'.mem a = st.mem a)
    (hon : s ∈ P' c ↔ st'.mem (s + onPartialField) ≠ 0)
    (hsame : ∀ y q, y ≠ s → (y ∈ P' q ↔ y ∈ P q))
    (hnodup : ∀ q, (P' q).Nodup) (hsub : ∀ {y q}, y ∈ P' q → y ∈ S q)
    (hlinked : ∀ q, Segment st'.link none (P' q) none)
    (hheads : ∀ q, ptr (st'.heads q) = (P' q).head?) : Core st' S F P' := by
  have := field_offsets
  refine ⟨h.classLt, by rw [hpages]; exact h.pages, by rw [hpages]; exact h.pagesNodup, h.nonzero,
    h.aligned, h.apart, ?_, h.nodup, hnodup, hsub, hlinked, hheads, by rw [hslabs]; exact h.slabs,
    by rw [huse]; exact h.inUse⟩
  intro s' c' hs'
  have hb := slabBytes_ge (h.classLt hs')
  have hblock : ∀ a, s' ≤ a → a < s' + slabBytes c' → a ≠ s' + nextField → a ≠ s' + prevField →
      ∀ y q, y ∈ S q → a ≠ y + nextField ∧ a ≠ y + prevField :=
    fun a ha1 ha2 ha3 ha4 y q hy => h.own_links hs' ha1 ha2 ha3 ha4 hy
  by_cases he : s' = s
  · subst he
    obtain rfl := h.class_unique hs hs'
    exact (h.rep hs').congr (h.classLt hs') hsec
      (fun a ha1 ha2 ha3 ha4 ha5 => hmem a (hblock a ha1 ha2 ha3 ha4) ha5) hon
  have hout : ∀ a, s' ≤ a → a < s' + slabBytes c' → a ≠ s + onPartialField := by
    rintro a ha1 ha2 rfl
    have := slabBytes_ge (h.classLt hs)
    exact he (h.block_unique hs' hs ha1 ha2 (by omega) (by omega))
  refine (h.rep hs').congr (h.classLt hs') hsec
    (fun a ha1 ha2 ha3 ha4 _ => hmem a (hblock a ha1 ha2 ha3 ha4) (hout a ha1 ha2)) ?_
  rw [hsame s' c' he, (h.rep hs').onList, hmem _ (hblock _ (by omega) (by omega) (by omega) (by omega))
    (hout _ (by omega) (by omega))]

theorem Core.head_mem (h : Core st S F P) (hz : st.heads c ≠ 0) : st.heads c ∈ P c := by
  have hh := h.heads c
  rw [ptr_of_ne hz] at hh
  exact mem_of_mem_head? hh.symm

theorem linkPartial_fields (st : Slab) (c s : Nat) :
    (st.linkPartial c s).secret = st.secret ∧ (st.linkPartial c s).pages = st.pages ∧
      (st.linkPartial c s).slabs = st.slabs ∧ (st.linkPartial c s).inUse = st.inUse ∧
      (st.linkPartial c s).heads = update st.heads c s ∧
      (st.linkPartial c s).empty = st.empty := by
  simp only [linkPartial]
  split <;> exact ⟨rfl, rfl, rfl, rfl, rfl, rfl⟩

theorem mem_update_erase (h : (S c).Nodup) :
    y ∈ update S c ((S c).erase s) q ↔ (q = c → y ≠ s) ∧ y ∈ S q := by
  by_cases hq : q = c
  · subst hq
    rw [update_self, h.mem_erase_iff]
    simp
  · simp [hq]

/-- A slab is put on its partial list. -/
theorem Core.link (h : Core st S F P) (hs : s ∈ S c) (hnot : s ∉ P c) :
    Core (st.linkPartial c s) S F (update P c (s :: P c)) := by
  have := field_offsets
  have hsa := h.page_aligned hs
  have hha : st.heads c % 4096 = 0 := by
    by_cases hz : st.heads c = 0
    · simp [hz]
    · exact h.page_aligned (h.sub (h.head_mem hz))
  have hhs : st.heads c ≠ s := by
    intro he
    have hz : st.heads c ≠ 0 := by
      rw [he]
      exact h.nonzero hs
    exact hnot (he ▸ h.head_mem hz)
  have hlink : ∀ {y c'}, y ∈ S c' → (st.linkPartial c s).link y
      = Lib.Linked.push st.link (ptr (st.heads c)) s y := fun hy =>
    linkPartial_link hsa hha hhs (h.nonzero hs) (h.page_aligned hy)
  obtain ⟨hsec, hpages, hslabs, huse, hheads, -⟩ := linkPartial_fields st c s
  refine h.relist hs hsec hpages hslabs huse ?_ ?_ ?_ ?_ ?_ ?_ ?_
  · intro a hout hon
    have hself := hout s c hs
    rw [linkPartial_mem, if_neg ?_, if_neg hon, if_neg hself.2, if_neg hself.1]
    rintro ⟨hz, rfl⟩
    exact (hout _ c (h.sub (h.head_mem hz))).2 rfl
  · rw [linkPartial_mem, if_neg (by omega)]
    simp
  · intro y q hy
    simp [mem_update_cons, hy]
  · rw [forall_update_iff P fun _ l => l.Nodup]
    exact ⟨nodup_cons.mpr ⟨hnot, h.listNodup c⟩, fun q _ => h.listNodup q⟩
  · intro y q hy
    rcases mem_update_cons.mp hy with ⟨rfl, rfl⟩ | hy'
    · exact hs
    · exact h.sub hy'
  · intro q
    by_cases hq : q = c
    · subst hq
      rw [update_self]
      have hseg := (h.linked q).push (h.listNodup q) hnot
      refine hseg.congr fun y hy => ?_
      rw [← h.heads q]
      rcases mem_cons.mp hy with rfl | hy
      · exact hlink hs
      · exact hlink (h.sub hy)
    · rw [update_of_ne hq]
      refine (h.linked q).congr fun y hy => ?_
      rw [hlink (h.sub hy), h.heads c]
      apply Lib.Linked.push_of_ne
      · rintro rfl
        exact hq (h.class_unique (h.sub hy) hs)
      · rintro x hx rfl
        exact hq (h.class_unique (h.sub hy) (h.sub (mem_of_mem_head? hx)))
  · intro q
    rw [hheads]
    by_cases hq : q = c
    · subst hq
      simp [ptr_of_ne (h.nonzero hs)]
    · rw [update_of_ne hq, update_of_ne hq]
      exact h.heads q

theorem unlinkPartial_mem (st : Slab) (c s a : Nat) :
    (st.unlinkPartial c s).mem a =
    if a = s + prevField then 0
    else if a = s + nextField then 0
    else if a = s + onPartialField then 0
    else if st.mem (s + nextField) ≠ 0 ∧ a = st.mem (s + nextField) + prevField then
      st.mem (s + prevField)
    else if st.mem (s + prevField) ≠ 0 ∧ a = st.mem (s + prevField) + nextField then
      st.mem (s + nextField)
    else st.mem a := by
  rw [unlinkPartial]
  by_cases hp : st.mem (s + prevField) = 0 <;> by_cases hn : st.mem (s + nextField) = 0 <;>
    simp [hp, hn]

theorem unlinkPartial_link (hs : s % 4096 = 0) (hn : st.mem (s + nextField) % 4096 = 0)
    (hp : st.mem (s + prevField) % 4096 = 0) (hy : y % 4096 = 0) (hys : y ≠ s) :
    (st.unlinkPartial c s).link y = Lib.Linked.unlink st.link s y := by
  have := field_offsets
  rw [Lib.Linked.unlink_apply]
  simp only [link, unlinkPartial_mem]
  have h1 : ptr (st.mem (s + prevField)) = some y ↔
      st.mem (s + prevField) ≠ 0 ∧ y + nextField = st.mem (s + prevField) + nextField := by
    rw [ptr_eq_some]
    omega
  have h2 : ptr (st.mem (s + nextField)) = some y ↔
      st.mem (s + nextField) ≠ 0 ∧ y + prevField = st.mem (s + nextField) + prevField := by
    rw [ptr_eq_some]
    omega
  have h3 : ¬ (st.mem (s + nextField) ≠ 0 ∧ y + nextField = st.mem (s + nextField) + prevField) := by
    omega
  have h4 : ¬ (st.mem (s + prevField) ≠ 0 ∧ y + prevField = st.mem (s + prevField) + nextField) := by
    omega
  rw [if_neg (show y + nextField ≠ s + prevField by omega),
    if_neg (show y + nextField ≠ s + nextField by omega),
    if_neg (show y + nextField ≠ s + onPartialField by omega), if_neg h3,
    if_neg (show y + prevField ≠ s + prevField by omega),
    if_neg (show y + prevField ≠ s + nextField by omega),
    if_neg (show y + prevField ≠ s + onPartialField by omega), if_neg h4]
  simp only [h1, h2, apply_ite ptr]

/-- The neighbours of a slab on a partial list are on it too. -/
theorem Core.neighbours (h : Core st S F P) (hs : s ∈ P c) :
    (st.mem (s + nextField) ≠ 0 → st.mem (s + nextField) ∈ P c) ∧
    (st.mem (s + prevField) ≠ 0 → st.mem (s + prevField) ∈ P c) := by
  obtain ⟨l1, l2, hP⟩ := append_of_mem hs
  have hseg := h.linked c
  rw [hP] at hseg
  have hlink : st.link s = ⟨l2.head?, l1.getLast?⟩ := hseg.link
  have hnext : ptr (st.mem (s + nextField)) = l2.head? := congrArg Link.next hlink
  have hprev : ptr (st.mem (s + prevField)) = l1.getLast? := congrArg Link.prev hlink
  rw [hP]
  constructor
  · intro hz
    rw [ptr_of_ne hz] at hnext
    simp [mem_of_mem_head? hnext.symm]
  · intro hz
    rw [ptr_of_ne hz] at hprev
    simp [mem_of_mem_getLast? hprev.symm]

/-- Taking a slab off its list writes only links. -/
theorem Core.unlink_mem (h : Core st S F P) (hs : s ∈ P c)
    (hout : ∀ y q, y ∈ S q → a ≠ y + nextField ∧ a ≠ y + prevField) (hon : a ≠ s + onPartialField) :
    (st.unlinkPartial c s).mem a = st.mem a := by
  obtain ⟨hnmem, hpmem⟩ := h.neighbours hs
  have hself := hout s c (h.sub hs)
  rw [unlinkPartial_mem, if_neg hself.2, if_neg hself.1, if_neg hon, if_neg ?_, if_neg ?_]
  · rintro ⟨hz, rfl⟩
    exact (hout _ c (h.sub (hpmem hz))).1 rfl
  · rintro ⟨hz, rfl⟩
    exact (hout _ c (h.sub (hnmem hz))).2 rfl

theorem unlinkPartial_fields (st : Slab) (c s : Nat) :
    (st.unlinkPartial c s).secret = st.secret ∧ (st.unlinkPartial c s).pages = st.pages ∧
      (st.unlinkPartial c s).slabs = st.slabs ∧ (st.unlinkPartial c s).inUse = st.inUse ∧
      ((st.unlinkPartial c s).heads = if st.mem (s + prevField) ≠ 0 then st.heads
        else update st.heads c (st.mem (s + nextField))) ∧
      (st.unlinkPartial c s).empty = st.empty := by
  simp only [unlinkPartial]
  split <;> split <;> exact ⟨rfl, rfl, rfl, rfl, rfl, rfl⟩

/-- A slab is taken off its partial list. -/
theorem Core.unlink (h : Core st S F P) (hs : s ∈ P c) :
    Core (st.unlinkPartial c s) S F (update P c ((P c).erase s)) := by
  have := field_offsets
  obtain ⟨l1, l2, hl1, hP, herase⟩ := exists_erase_eq hs
  have hsS := h.sub hs
  have hnd := h.listNodup c
  have hseg := h.linked c
  have hhead := h.heads c
  rw [hP] at hnd hseg hhead
  have hlink : st.link s = ⟨l2.head?, l1.getLast?⟩ := hseg.link
  have hnext : ptr (st.mem (s + nextField)) = l2.head? := congrArg Link.next hlink
  have hprev : ptr (st.mem (s + prevField)) = l1.getLast? := congrArg Link.prev hlink
  obtain ⟨hnmem, hpmem⟩ := h.neighbours hs
  have hna : st.mem (s + nextField) % 4096 = 0 := by
    by_cases hz : st.mem (s + nextField) = 0
    · simp [hz]
    · exact h.page_aligned (h.sub (hnmem hz))
  have hpa : st.mem (s + prevField) % 4096 = 0 := by
    by_cases hz : st.mem (s + prevField) = 0
    · simp [hz]
    · exact h.page_aligned (h.sub (hpmem hz))
  have hlinks : ∀ {y q}, y ∈ S q → y ≠ s →
      (st.unlinkPartial c s).link y = Lib.Linked.unlink st.link s y := fun hy hys =>
    unlinkPartial_link (h.page_aligned hsS) hna hpa (h.page_aligned hy) hys
  obtain ⟨hsec, hpages, hslabs, huse, hheads, -⟩ := unlinkPartial_fields st c s
  refine h.relist hsS hsec hpages hslabs huse ?_ ?_ ?_ ?_ ?_ ?_ ?_
  · intro a hout hon
    exact h.unlink_mem hs hout hon
  · rw [mem_update_erase (h.listNodup c), unlinkPartial_mem, if_pos rfl]
    simp
  · intro y q hy
    simp [mem_update_erase (h.listNodup c), hy]
  · rw [forall_update_iff P fun _ l => l.Nodup]
    exact ⟨(h.listNodup c).erase s, fun q _ => h.listNodup q⟩
  · intro y q hy
    exact h.sub ((mem_update_erase (h.listNodup c)).mp hy).2
  · intro q
    by_cases hq : q = c
    · subst hq
      rw [update_self, herase]
      refine (hseg.unlink hnd).congr fun y hy => ?_
      have hin : y ∈ P q := by
        rw [hP]
        simp only [mem_append, mem_cons] at hy ⊢
        tauto
      refine hlinks (h.sub hin) ?_
      rintro rfl
      rw [← herase, (h.listNodup q).mem_erase_iff] at hy
      exact hy.1 rfl
    · rw [update_of_ne hq]
      refine (h.linked q).congr fun y hy => ?_
      rw [hlinks (h.sub hy) (by
        rintro rfl
        exact hq (h.class_unique (h.sub hy) hsS))]
      refine Lib.Linked.unlink_of_not_mem hseg fun hin => ?_
      have hin' : y ∈ P c := by
        rw [hP]
        simp only [mem_append, mem_cons] at hin ⊢
        tauto
      exact hq (h.class_unique (h.sub hy) (h.sub hin'))
  · intro q
    rw [hheads]
    by_cases hq : q = c
    · subst hq
      rw [update_self, herase]
      rcases eq_nil_or_concat' l1 with rfl | ⟨t, x, rfl⟩
      · rw [getLast?_nil, ptr_eq_none] at hprev
        rw [if_neg (by simp [hprev]), update_self, hnext]
        rfl
      have hz : st.mem (s + prevField) ≠ 0 := by
        intro hz
        rw [hz] at hprev
        simp at hprev
      rw [if_pos hz, hhead]
      cases t <;> simp
    · rw [update_of_ne hq, ← h.heads q]
      split
      · rfl
      · rw [update_of_ne hq]

end Fastros.Alloc.Slabs
