import Fastros.Alloc.SlabState

/-!
# Allocating from slabs

A new slab has all its objects free. Allocating takes the first free object of the
first slab on the partial list, after growing the class if no slab is on it.
-/

namespace Fastros.Alloc.Slabs

open List Slab

open Function (update update_self update_of_ne forall_update_iff)
open Lib (Checked.sub Checked.sub_eq_some)

open Lib.Linked (Chain mem_update_cons)

variable {st st' : Slab} {S F P : Nat → List Nat} {s s' c c' o o' a : Nat} {l : List Nat}

/-- The `i`-th object of a slab. -/
def objectAt (s c i : Nat) : Nat := s + firstOffset c + i * classSize c

theorem objectAt_inj (hc : c < 8) {i j : Nat} (h : objectAt s c i = objectAt s c j) : i = j := by
  have := (shape hc).size
  have hmul : i * classSize c = j * classSize c := by
    rw [objectAt, objectAt] at h
    omega
  exact Nat.eq_of_mul_eq_mul_right (by omega) hmul

theorem objectAt_mem {i : Nat} (hi : i < capacity c) : objectAt s c i ∈ objects s c :=
  mem_objects.mpr ⟨i, hi, rfl⟩

theorem thread_spec (hc : c < 8) : ∀ (n : Nat) (next : Nat) (st : Slab),
    ∃ mem, thread c s n next st = (if n = 0 then next else objectAt s c 0, { st with mem := mem }) ∧
      (∀ i < n, mem (objectAt s c i) = st.encode (if i + 1 = n then next else objectAt s c (i + 1))
        (objectAt s c i)) ∧
      ∀ a, (∀ i < n, a ≠ objectAt s c i) → mem a = st.mem a := by
  intro n
  induction n with
  | zero => exact fun next st => ⟨st.mem, rfl, fun i hi => absurd hi (by omega), fun _ _ => rfl⟩
  | succ n ih =>
    intro next st
    obtain ⟨mem, hrun, hobj, hother⟩ := ih (objectAt s c n)
      (st.write (objectAt s c n) (st.encode next (objectAt s c n)))
    refine ⟨mem, ?_, fun i hi => ?_, fun a ha => ?_⟩
    · have hrun' : thread c s (n + 1) next st = thread c s n (objectAt s c n)
          (st.write (objectAt s c n) (st.encode next (objectAt s c n))) := rfl
      rw [hrun', hrun]
      by_cases hn : n = 0
      · subst hn
        rfl
      · rw [if_neg hn]
        rfl
    · by_cases hin : i = n
      · subst hin
        rw [hother _ fun j hj he => ?_]
        · simp
        · have := objectAt_inj hc he
          omega
      · rw [hobj i (by omega), if_neg (show ¬ i + 1 = n + 1 by omega)]
        by_cases hlast : i + 1 = n
        · rw [if_pos hlast, hlast]
          rfl
        · rw [if_neg hlast]
          rfl
    · rw [hother a fun i hi => ha i (by omega), write_mem, if_neg (ha n (by omega))]

theorem objects_chain (next : Nat → Option Nat) (h : ∀ i < capacity c, next (objectAt s c i)
      = if i + 1 = capacity c then none else some (objectAt s c (i + 1))) :
    ∀ (m k : Nat), k + m = capacity c → Chain next
      (if m = 0 then none else some (objectAt s c k)) ((List.range' k m).map (objectAt s c)) := by
  intro m
  induction m with
  | zero => exact fun _ _ => rfl
  | succ m ih =>
    intro k hk
    refine ⟨rfl, ?_⟩
    have hrest := ih (k + 1) (by omega)
    rw [h k (by omega)]
    by_cases hm : m = 0
    · rw [if_pos hm] at hrest
      rw [if_pos (by omega)]
      exact hrest
    · rw [if_neg hm] at hrest
      rw [if_neg (by omega)]
      exact hrest

/-- A block with the header of a slab. -/
def headed (st : Slab) (s c : Nat) : Slab :=
  (((st.zero s (slabBytes c)).write s headerMagic).write (s + classField) c).write
    (s + capacityField) (capacity c)

/-- The page provider's block is written as a slab without used objects. -/
theorem grow_rep (hc : c < 8) (st : Slab) :
    ∃ mem next, thread c s (capacity c) 0 (headed st s c) = (next, { st with mem := mem }) ∧
      Rep (write { st with mem := mem } (s + freeField) (st.encode next (s + freeField)))
        s c (objects s c) False ∧
      ∀ a, ¬ (s ≤ a ∧ a < s + slabBytes c) → mem a = st.mem a := by
  have := field_offsets
  have hsh := shape hc
  have h1 := hsh.first
  have h2 := hsh.fits
  have h3 := hsh.two
  have := hsh.size
  obtain ⟨mem, hrun, hobj, hother⟩ := thread_spec (s := s) hc (capacity c) 0 (headed st s c)
  have hbounds : ∀ {i}, i < capacity c →
      s + 64 ≤ objectAt s c i ∧ objectAt s c i + classSize c ≤ s + slabBytes c :=
    fun hi => object_bounds hc (objectAt_mem hi)
  have hhead : ∀ k, k < 64 → mem (s + k) = (headed st s c).mem (s + k) := by
    intro k hk
    apply hother
    intro i hi he
    have := (hbounds hi).1
    omega
  have hmem : ∀ x, x ≠ s + freeField → (write { st with mem := mem } (s + freeField)
      (st.encode (objectAt s c 0) (s + freeField))).mem x = mem x := by
    intro x hx
    rw [write_mem, if_neg hx]
  refine ⟨mem, objectAt s c 0, ?_, ?_, ?_⟩
  · rw [hrun, if_neg (by omega)]
    rfl
  · refine ⟨?_, ?_, ?_, ?_, ?_, objects_nodup hc, fun o ho => ho, ?_⟩
    · have h0 := hhead 0 (by omega)
      simp only [add_zero] at h0
      rw [hmem _ (by omega), h0]
      simp only [headed, write_mem]
      rw [if_neg (by omega), if_neg (by omega), if_true]
    · rw [hmem _ (by omega), hhead _ (by omega)]
      simp only [headed, write_mem]
      rw [if_neg (by omega), if_true]
    · rw [hmem _ (by omega), hhead _ (by omega), objects_length]
      simp only [headed, write_mem, zero_mem]
      repeat rw [if_neg (by omega)]
      rw [if_pos (by omega), zero_add]
    · have hchain := objects_chain (s := s) (write { st with mem := mem } (s + freeField)
          (st.encode (objectAt s c 0) (s + freeField))).next (fun i hi => by
          have hb := hbounds hi
          rw [Slab.next, hmem _ (by omega), hobj i hi, encode_write]
          have henc : ∀ p, encode { st with mem := mem } (encode (headed st s c) p
              (objectAt s c i)) (objectAt s c i) = p :=
            fun p => st.encode_encode p (objectAt s c i)
          rw [henc]
          split
          · rfl
          · exact ptr_of_ne (by have := (hbounds (i := i + 1) (by omega)).1; omega))
        (capacity c) 0 (by omega)
      rw [if_neg (by omega), ← range_eq_range'] at hchain
      have hfirst : (write { st with mem := mem } (s + freeField)
          (st.encode (objectAt s c 0) (s + freeField))).firstFree s = some (objectAt s c 0) := by
        simp only [firstFree, write_mem, encode_write, if_true]
        have henc : encode { st with mem := mem } (st.encode (objectAt s c 0) (s + freeField))
            (s + freeField) = objectAt s c 0 := st.encode_encode _ _
        rw [henc]
        exact ptr_of_ne (by have := (hbounds (i := 0) (by omega)).1; omega)
      rw [hfirst]
      exact hchain
    · rw [hmem _ (by omega), hhead _ (by omega)]
      simp only [headed, write_mem, Slab.zero_mem]
      repeat rw [if_neg (by omega)]
      rw [if_pos (by omega)]
      simp
    · intro o ho x hx1 hx2 _
      have hb := object_bounds hc ho
      rw [hmem _ (by omega), hother x]
      · simp only [headed, write_mem, Slab.zero_mem]
        repeat rw [if_neg (by omega)]
        rw [if_pos (by omega)]
      · rintro i hi rfl
        have he := object_unique ho (objectAt_mem hi) (by omega) (by omega) le_rfl (by omega)
        omega
  · intro a ha
    rw [hother a]
    · simp only [headed, write_mem, Slab.zero_mem]
      repeat rw [if_neg (by omega)]
    · rintro i hi rfl
      have := hbounds hi
      omega

/-- A slab is added. -/
theorem Core.add (h : Core st S F P) (hc : c < 8) (hs0 : s ≠ 0) (hal : s % slabBytes c = 0)
    (hdis : ∀ s' c', s' ∈ S c' → s + slabBytes c ≤ s' ∨ s' + slabBytes c' ≤ s)
    (hmem : ∀ a, ¬ (s ≤ a ∧ a < s + slabBytes c) → st'.mem a = st.mem a)
    (hrep : Rep st' s c l False) (hl : l.length = capacity c)
    (hsec : st'.secret = st.secret) (hheads : st'.heads = st.heads) (huse : st'.inUse = st.inUse)
    (hpages : st'.pages = (s, slabOrder c) :: st.pages)
    (hslabs : st'.slabs = update st.slabs c (st.slabs c + 1)) :
    Core st' (update S c (s :: S c)) (update F s l) P := by
  have hnew : ∀ {q}, s ∉ S q := by
    intro q hin
    have h1 := hdis s q hin
    have h2 := slabBytes_ge (h.classLt hin)
    have h3 := slabBytes_ge hc
    omega
  have hold : ∀ {y q}, y ∈ S q → ∀ a, y ≤ a → a < y + slabBytes q → st'.mem a = st.mem a := by
    intro y q hy a h1 h2
    have h3 := hdis y q hy
    exact hmem a (by omega)
  refine ⟨?_, ?_, ?_, ?_, ?_, ?_, ?_, ?_, h.listNodup, ?_, ?_, ?_, ?_, ?_⟩
  · intro y q hy
    rcases mem_update_cons.mp hy with ⟨rfl, rfl⟩ | hy
    · exact hc
    · exact h.classLt hy
  · intro y q
    rw [hpages, mem_cons, h.pages]
    constructor
    · rintro (he | ⟨d, hd, rfl⟩)
      · cases he
        exact ⟨c, mem_update_cons.mpr (.inl ⟨rfl, rfl⟩), rfl⟩
      · exact ⟨d, mem_update_cons.mpr (.inr hd), rfl⟩
    · rintro ⟨d, hd, rfl⟩
      rcases mem_update_cons.mp hd with ⟨rfl, rfl⟩ | hd
      · exact .inl rfl
      · exact .inr ⟨d, hd, rfl⟩
  · rw [hpages]
    refine nodup_cons.mpr ⟨fun hin => ?_, h.pagesNodup⟩
    obtain ⟨d, hd, _⟩ := h.pages.mp hin
    exact hnew hd
  · intro y q hy
    rcases mem_update_cons.mp hy with ⟨rfl, rfl⟩ | hy
    · exact hs0
    · exact h.nonzero hy
  · intro y q hy
    rcases mem_update_cons.mp hy with ⟨rfl, rfl⟩ | hy
    · exact hal
    · exact h.aligned hy
  · intro y q y' q' hy hy'
    rcases mem_update_cons.mp hy with ⟨rfl, rfl⟩ | hyS
    · rcases mem_update_cons.mp hy' with ⟨rfl, rfl⟩ | hy'
      · exact .inr (.inr ⟨rfl, rfl⟩)
      · rcases hdis y' q' hy' with h1 | h1
        · exact .inl h1
        · exact .inr (.inl h1)
    · rcases mem_update_cons.mp hy' with ⟨rfl, rfl⟩ | hy'
      · rcases hdis y q hyS with h1 | h1
        · exact .inr (.inl h1)
        · exact .inl h1
      · exact h.apart hyS hy'
  · intro y q hy
    rcases mem_update_cons.mp hy with ⟨rfl, rfl⟩ | hy
    · have hoff : (y ∈ P q) = False := by
        simp only [eq_iff_iff, iff_false]
        exact fun hin => hnew (h.sub hin)
      rw [update_self, hoff]
      exact hrep
    · have hne : y ≠ s := fun he => hnew (he ▸ hy)
      rw [update_of_ne hne]
      exact (h.same_block hy hsec (hold hy)).1
  · rw [forall_update_iff S fun _ l => l.Nodup]
    exact ⟨nodup_cons.mpr ⟨hnew, h.nodup c⟩, fun q _ => h.nodup q⟩
  · intro y q hy
    exact mem_update_cons.mpr (.inr (h.sub hy))
  · intro q
    exact (h.linked q).congr fun y hy => (h.same_block (h.sub hy) hsec (hold (h.sub hy))).2
  · intro q
    rw [hheads]
    exact h.heads q
  · intro q
    rw [hslabs]
    by_cases hq : q = c
    · subst hq
      simp [h.slabs q]
    · simp [hq, h.slabs q]
  · intro q
    have hsum := h.inUse q
    rw [huse]
    by_cases hq : q = c
    · subst hq
      rw [update_self, map_cons, sum_cons, update_self,
        sum_map_update_same length _ hnew, length_cons, Nat.succ_mul]
      omega
    · rw [update_of_ne hq, sum_map_update_same length _ hnew]
      exact hsum

/-- How many slabs of the class are empty. -/
def emptyCount (S F : Nat → List Nat) (c : Nat) : Nat :=
  ((S c).map fun s => if (F s).length = capacity c then 1 else 0).sum

structure Inv (st : Slab) (S F P : Nat → List Nat) : Prop where
  core : Core st S F P
  listed : ∀ {s c}, s ∈ S c → (s ∈ P c ↔ F s ≠ [])
  empty : ∀ c, st.empty c = emptyCount S F c
  one : ∀ c, st.empty c ≤ 1

theorem emptyCount_update (hnd : (S c).Nodup) (hs : s ∈ S c) :
    emptyCount S (update F s l) c + (if (F s).length = capacity c then 1 else 0)
      = emptyCount S F c + (if l.length = capacity c then 1 else 0) := by
  exact sum_map_update (fun v => if v.length = capacity c then 1 else 0) l hnd hs

theorem emptyCount_same (hs : s ∉ S c) : emptyCount S (update F s l) c = emptyCount S F c := by
  exact sum_map_update_same (fun v => if v.length = capacity c then 1 else 0) l hs

/-- The free objects of one slab and its place on the lists change. -/
theorem Inv.listed_update {P' : Nat → List Nat} (h : Inv st S F P) (hs : s ∈ S c)
    (hself : s ∈ P' c ↔ l ≠ []) (hother : ∀ {y q}, y ≠ s → (y ∈ P' q ↔ y ∈ P q)) {y q : Nat}
    (hy : y ∈ S q) : y ∈ P' q ↔ update F s l y ≠ [] := by
  by_cases hys : y = s
  · subst hys
    obtain rfl := h.core.class_unique hs hy
    rw [update_self]
    exact hself
  · rw [update_of_ne hys, hother hys]
    exact h.listed hy

/-- The state `takeFirst` has when it may take the slab off its list. -/
def taken (st : Slab) (c s o empty : Nat) : Slab :=
  { ((st.write (s + freeField) (st.encode (st.encode (st.mem o) o) (s + freeField))).write o 0).write
      (s + inUseField) (st.mem (s + inUseField) + 1) with
    empty := Function.update st.empty c empty
    inUse := Function.update st.inUse c (st.inUse c + 1) }

theorem takeFirst_eq (h : Core st S F P) (hs : s ∈ S c) (hhead : st.heads c = s) (hF : F s = o :: l) :
    st.takeFirst c = (if st.mem (s + inUseField) = 0 then Checked.sub (st.empty c) 1
      else some (st.empty c)).bind fun e => some (o,
        if l = [] then (taken st c s o e).unlinkPartial c s else taken st c s o e) := by
  have := field_offsets
  have hrep := h.rep hs
  rw [hF] at hrep
  have hb := object_bounds (h.classLt hs) (hrep.objs o mem_cons_self)
  obtain ⟨hobj, ho⟩ := ptr_eq_some.mp hrep.chain.1
  have hnext : st.encode (st.mem o) o = 0 ↔ l = [] := by
    have hhead := hrep.chain.2.head_eq
    rw [Slab.next] at hhead
    rw [← ptr_eq_none, hhead, head?_eq_none_iff]
  have hin : ∀ v, ((st.write (s + freeField) v).write o 0).mem (s + inUseField)
      = st.mem (s + inUseField) := by
    intro v
    simp only [write_mem]
    repeat rw [if_neg (by omega)]
  simp only [takeFirst, hhead, hobj, if_neg ho, hin, hnext]
  split <;> rfl

theorem takeFirst_spec (h : Inv st S F P) (hz : st.heads c ≠ 0) :
    ∃ s o l st' P', s ∈ S c ∧ F s = o :: l ∧ st.takeFirst c = some (o, st') ∧
      Inv st' S (update F s l) P' ∧ st'.pages = st.pages ∧
      ∀ x, o ≤ x → x < o + classSize c → x % 8 = 0 → st'.mem x = 0 := by
  have := field_offsets
  obtain ⟨s, hhead⟩ : ∃ s, st.heads c = s := ⟨_, rfl⟩
  have hsP : s ∈ P c := hhead ▸ h.core.head_mem hz
  have hs := h.core.sub hsP
  have hc := h.core.classLt hs
  obtain ⟨o, l, hF⟩ := exists_cons_of_ne_nil ((h.listed hs).mp hsP)
  have hrep := h.core.rep hs
  rw [hF] at hrep
  have hin := hrep.inUse
  have hb := object_bounds hc (hrep.objs o mem_cons_self)
  have := (shape hc).size
  have hlen : (F s).length = l.length + 1 := by rw [hF, length_cons]
  -- the slab was empty exactly if nothing in it was used
  have hcount := emptyCount_update (F := F) (l := l) (h.core.nodup c) hs
  have hzero : st.mem (s + inUseField) = 0 ↔ (F s).length = capacity c := by
    rw [length_cons] at hin
    omega
  have hnotfull : l.length ≠ capacity c := by
    rw [length_cons] at hin
    omega
  rw [if_neg hnotfull, ← h.empty c, hlen] at hcount
  obtain ⟨e, he, hecount⟩ : ∃ e, (if st.mem (s + inUseField) = 0 then Checked.sub (st.empty c) 1
      else some (st.empty c)) = some e ∧ e = emptyCount S (update F s l) c := by
    by_cases hu : st.mem (s + inUseField) = 0
    · rw [if_pos (hlen ▸ hzero.mp hu)] at hcount
      refine ⟨st.empty c - 1, ?_, by omega⟩
      rw [if_pos hu, Checked.sub_eq_some]
      omega
    · rw [if_neg fun hc => hu (hzero.mpr (hlen.trans hc))] at hcount
      exact ⟨st.empty c, if_neg hu, by omega⟩
  have hone : e ≤ 1 := by
    have := h.one c
    omega
  have hcore : Core (taken st c s o e) S (update F s l) P := by
    refine h.core.change hs ⟨rfl, rfl, rfl, rfl⟩ ?_ ?_ ?_ ?_
    · intro a ha
      simp only [taken, write_mem]
      repeat rw [if_neg (by omega)]
    · refine (hrep.pop hc).congr hc rfl (fun _ _ _ _ _ _ => rfl) ?_
      exact (hrep.pop hc).onList
    · simp only [taken, update_self]
      omega
    · intro c' hc'
      simp only [taken, update_of_ne hc']
  have hempty : ∀ q, (taken st c s o e).empty q = emptyCount S (update F s l) q := by
    intro q
    by_cases hq : q = c
    · subst hq
      simpa only [taken, update_self] using hecount
    · rw [emptyCount_same fun hin => hq (h.core.class_unique hin hs), ← h.empty q]
      simp only [taken, update_of_ne hq]
  have hones : ∀ q, (taken st c s o e).empty q ≤ 1 :=
    (forall_update_iff st.empty fun _ n => n ≤ 1).mpr ⟨hone, fun q _ => h.one q⟩
  have hblank : ∀ x, o ≤ x → x < o + classSize c → x % 8 = 0 → (taken st c s o e).mem x = 0 := by
    intro x hx1 hx2 hx3
    simp only [taken, write_mem]
    rw [if_neg (by omega)]
    by_cases hxo : x = o
    · rw [if_pos hxo]
    · rw [if_neg hxo, if_neg (by omega)]
      exact hrep.blank o mem_cons_self x (by omega) hx2 hx3
  have hrun : ∀ st', (if l = [] then (taken st c s o e).unlinkPartial c s else taken st c s o e) = st' →
      st.takeFirst c = some (o, st') := by
    intro st' hst
    rw [takeFirst_eq h.core hs hhead hF, he, ← hst]
    rfl
  by_cases hl : l = []
  · obtain ⟨-, hpages, -, -, -, hsame⟩ := unlinkPartial_fields (taken st c s o e) c s
    refine ⟨s, o, l, _, _, hs, hF, hrun _ (if_pos hl), ⟨hcore.unlink hsP, ?_, ?_, ?_⟩, hpages, ?_⟩
    · refine h.listed_update hs ?_ fun hys => ?_
      · rw [update_self, (h.core.listNodup c).mem_erase_iff]
        simp [hl]
      · rw [mem_update_erase (h.core.listNodup c)]
        simp [hys]
    · rw [hsame]
      exact hempty
    · rw [hsame]
      exact hones
    · intro x hx1 hx2 hx3
      rw [hcore.unlink_mem hsP (fun y q hy => hcore.own_links hs (by omega) (by omega) (by omega)
        (by omega) hy) (by omega)]
      exact hblank x hx1 hx2 hx3
  · refine ⟨s, o, l, _, P, hs, hF, hrun _ (if_neg hl), ⟨hcore, ?_, hempty, hones⟩, rfl, hblank⟩
    exact h.listed_update hs ⟨fun _ => hl, fun _ => hsP⟩ fun _ => Iff.rfl

/-- A class without a partial list has no empty slab. -/
theorem Inv.empty_eq_zero (h : Inv st S F P) (hc : c < 8) (hz : st.heads c = 0) : st.empty c = 0 := by
  have hP : P c = [] := by
    have hh := h.core.heads c
    rw [hz] at hh
    exact head?_eq_none_iff.mp hh.symm
  rw [h.empty c]
  apply sum_eq_zero
  intro n hn
  obtain ⟨s, hs, rfl⟩ := mem_map.mp hn
  have hF : F s = [] := by
    by_contra hF
    have hin := (h.listed hs).mpr hF
    rw [hP] at hin
    exact absurd hin not_mem_nil
  have := (shape hc).two
  rw [hF, length_nil, if_neg (by omega)]

theorem allocPages_cases (st : Slab) (q : Nat) (offer : Option Nat) :
    st.allocPages q offer = none ∨ ∃ s, s ≠ 0 ∧ s % (pageSize * 2 ^ q) = 0 ∧
      (∀ p ∈ st.pages, s + pageSize * 2 ^ q ≤ p.1 ∨ p.1 + pageSize * 2 ^ p.2 ≤ s) ∧
      st.allocPages q offer = some (s, { st with pages := (s, q) :: st.pages }) := by
  cases offer with
  | none => exact .inl rfl
  | some s =>
    by_cases hg : s ≠ 0 ∧ s % (pageSize * 2 ^ q) = 0 ∧ s + pageSize * 2 ^ q ≤ 2 ^ 64 ∧
        st.pages.all (fun p => disjoint s q p.1 p.2)
    · refine .inr ⟨s, hg.1, hg.2.1, ?_, if_pos hg⟩
      intro p hp
      have hd := all_eq_true.mp hg.2.2.2 p hp
      simpa [disjoint] using hd
    · exact .inl (if_neg hg)

/-- A class without a partial list gets a new slab, if there are pages. -/
theorem grow_spec (h : Inv st S F P) (hc : c < 8) (hz : st.heads c = 0) (offer : Option Nat) :
    st.grow c offer = none ∨ ∃ s st', (∀ q, s ∉ S q) ∧ st.grow c offer = some st' ∧
      Inv st' (update S c (s :: S c)) (update F s (objects s c)) (update P c (s :: P c)) ∧
      st'.heads c ≠ 0 ∧ st'.pages = (s, slabOrder c) :: st.pages := by
  rcases allocPages_cases st (slabOrder c) offer with hno | ⟨s, hs0, hal, hdis, hget⟩
  · exact .inl (by rw [grow, hno]; rfl)
  have hdis' : ∀ s' c', s' ∈ S c' → s + slabBytes c ≤ s' ∨ s' + slabBytes c' ≤ s :=
    fun s' c' hs' => hdis _ (h.core.pages.mpr ⟨c', hs', rfl⟩)
  have hnew : ∀ q, s ∉ S q := by
    intro q hin
    have h1 := hdis' s q hin
    have h2 := slabBytes_ge (h.core.classLt hin)
    have h3 := slabBytes_ge hc
    omega
  obtain ⟨mem, next, hthread, hrep, hother⟩ := grow_rep (s := s) hc
    { st with pages := (s, slabOrder c) :: st.pages }
  -- the slab before it is put on the list
  obtain ⟨st1, hst1⟩ : ∃ st1 : Slab, st1 = { write { st with
      pages := (s, slabOrder c) :: st.pages, mem := mem } (s + freeField)
        (st.encode next (s + freeField)) with
      slabs := update st.slabs c (st.slabs c + 1)
      empty := update st.empty c (st.empty c + 1) } := ⟨_, rfl⟩
  have hrun : st.grow c offer = some (st1.linkPartial c s) := by
    unfold headed at hthread
    rw [grow, hget, hst1]
    simp only [Option.bind_eq_bind, Option.bind_some, hthread]
    rfl
  have := field_offsets
  have hcore : Core st1 (update S c (s :: S c)) (update F s (objects s c)) P := by
    refine h.core.add hc hs0 hal hdis' ?_ ?_ objects_length ?_ ?_ ?_ ?_ ?_
    · intro a ha
      have hb := slabBytes_ge hc
      rw [hst1]
      simp only [write_mem]
      rw [if_neg (by omega)]
      exact hother a ha
    · rw [hst1]
      exact hrep.congr hc rfl (fun _ _ _ _ _ _ => rfl) hrep.onList
    all_goals
      subst hst1
      rfl
  obtain ⟨-, hpages, -, -, hheads, hsame⟩ := linkPartial_fields st1 c s
  have hcount : ∀ q, emptyCount (update S c (s :: S c)) (update F s (objects s c)) q
      = emptyCount S F q + if q = c then 1 else 0 := by
    intro q
    rw [emptyCount]
    by_cases hq : q = c
    · subst hq
      have hold := emptyCount_same (F := F) (l := objects s q) (hnew q)
      rw [emptyCount] at hold
      rw [update_self, map_cons, sum_cons, hold, update_self,
        objects_length, if_pos rfl, if_pos rfl, add_comm]
    · rw [update_of_ne hq, if_neg hq]
      exact emptyCount_same (hnew q)
  have hempty : ∀ q, st1.empty q = st.empty q + if q = c then 1 else 0 := by
    intro q
    rw [hst1]
    by_cases hq : q = c
    · subst hq
      simp
    · simp [hq]
  have hnot : s ∉ P c := fun hin => hnew c (h.core.sub hin)
  refine .inr ⟨s, _, hnew, hrun, ⟨hcore.link (by simp) hnot, ?_, ?_, ?_⟩, ?_, ?_⟩
  · intro y q hy
    have := (shape hc).two
    rcases mem_update_cons.mp hy with ⟨rfl, rfl⟩ | hyS
    · have hne : objects y q ≠ [] := by
        intro hnil
        have hlen := objects_length (s := y) (c := q)
        rw [hnil, length_nil] at hlen
        omega
      simp [hne]
    · have hys : y ≠ s := fun he => hnew q (he ▸ hyS)
      rw [update_of_ne hys, mem_update_cons, ← h.listed hyS]
      simp [hys]
  · intro q
    rw [hsame, hempty, hcount, h.empty q]
  · intro q
    rw [hsame, hempty]
    by_cases hq : q = c
    · subst hq
      rw [if_pos rfl, h.empty_eq_zero hc hz]
    · rw [if_neg hq]
      exact h.one q
  · rw [hheads, update_self]
    exact hs0
  · rw [hpages, hst1]
    rfl

/-- The object is in use. -/
def Live (S F : Nat → List Nat) (c o : Nat) : Prop := ∃ s ∈ S c, o ∈ objects s c ∧ o ∉ F s

/-- An address is in one object only. -/
theorem Core.object_unique (h : Core st S F P) (hs : s ∈ S c) (hs' : s' ∈ S c')
    (ho : o ∈ objects s c) (ho' : o' ∈ objects s' c') (h1 : o ≤ a) (h2 : a < o + classSize c)
    (h3 : o' ≤ a) (h4 : a < o' + classSize c') : s = s' ∧ c = c' ∧ o = o' := by
  have hb := object_bounds (h.classLt hs) ho
  have := object_bounds (h.classLt hs') ho'
  have he := h.block_unique hs hs' (a := a) (by omega) (by omega) (by omega) (by omega)
  subst he
  obtain rfl := h.class_unique hs hs'
  exact ⟨rfl, rfl, Slabs.object_unique ho ho' h1 h2 h3 h4⟩

theorem Core.object_owner (h : Core st S F P) (hs : s ∈ S c) (hs' : s' ∈ S c')
    (ho : o ∈ objects s c) (ho' : o ∈ objects s' c') : s = s' ∧ c = c' := by
  have := (shape (h.classLt hs)).size
  have := (shape (h.classLt hs')).size
  obtain ⟨h1, h2, -⟩ := h.object_unique hs hs' ho ho' le_rfl (by omega) le_rfl (by omega)
  exact ⟨h1, h2⟩

/-- An object is in use after it leaves the free list, and not before. -/
theorem Core.live_pop (h : Core st S F P) (hs : s ∈ S c) (hF : F s = o :: l) :
    (∀ q, ¬ Live S F q o) ∧
    ∀ q p, Live S (update F s l) q p ↔ Live S F q p ∨ q = c ∧ p = o := by
  have hrep := h.rep hs
  have ho : o ∈ objects s c := hrep.objs o (by simp [hF])
  have hnot : o ∉ l := by
    have hnd := hrep.nodup
    rw [hF] at hnd
    exact (nodup_cons.mp hnd).1
  constructor
  · rintro q ⟨s', hs', ho', hfree⟩
    obtain ⟨rfl, -⟩ := h.object_owner hs hs' ho ho'
    exact hfree (by simp [hF])
  intro q p
  constructor
  · rintro ⟨s', hs', hp, hfree⟩
    by_cases he : s' = s
    · subst he
      obtain rfl := h.class_unique hs hs'
      rw [update_self] at hfree
      by_cases hpo : p = o
      · exact .inr ⟨rfl, hpo⟩
      · refine .inl ⟨s', hs', hp, ?_⟩
        rw [hF, mem_cons]
        tauto
    · rw [update_of_ne he] at hfree
      exact .inl ⟨s', hs', hp, hfree⟩
  · rintro (⟨s', hs', hp, hfree⟩ | ⟨rfl, rfl⟩)
    · refine ⟨s', hs', hp, ?_⟩
      by_cases he : s' = s
      · subst he
        rw [update_self]
        rw [hF] at hfree
        tauto
      · rw [update_of_ne he]
        exact hfree
    · refine ⟨s, hs, ho, ?_⟩
      rw [update_self]
      exact hnot

theorem live_add (hnew : ∀ q, s ∉ S q) (q p : Nat) :
    Live (update S c (s :: S c)) (update F s (objects s c)) q p ↔ Live S F q p := by
  have hold : ∀ {y}, y ∈ S q → y ≠ s := fun hy he => hnew q (he ▸ hy)
  constructor
  · rintro ⟨y, hy, hp, hfree⟩
    rcases mem_update_cons.mp hy with ⟨rfl, rfl⟩ | hy
    · rw [update_self] at hfree
      exact absurd hp hfree
    · rw [update_of_ne (hold hy)] at hfree
      exact ⟨y, hy, hp, hfree⟩
  · rintro ⟨y, hy, hp, hfree⟩
    refine ⟨y, mem_update_cons.mpr (.inr hy), hp, ?_⟩
    rwa [update_of_ne (hold hy)]

theorem alloc_spec (h : Inv st S F P) (hc : c < 8) (offer : Option Nat) :
    st.alloc c offer = some (none, st) ∨
    ∃ o st' S' F' P', st.alloc c offer = some (some o, st') ∧ Inv st' S' F' P' ∧
      (∀ q, ¬ Live S F q o) ∧ (∀ q p, Live S' F' q p ↔ Live S F q p ∨ q = c ∧ p = o) ∧
      (∀ b ∈ st.pages, b ∈ st'.pages) ∧
      ∀ x, o ≤ x → x < o + classSize c → x % 8 = 0 → st'.mem x = 0 := by
  by_cases hz : st.heads c = 0
  · rcases grow_spec h hc hz offer with hno | ⟨s, st1, hnew, hgrow, h1, hz1, hpages⟩
    · left
      rw [alloc, if_pos hz, hno]
    right
    obtain ⟨s', o, l, st', P', hs', hF, hrun, h', hsame, hblank⟩ := takeFirst_spec h1 hz1
    obtain ⟨hfresh, hlive⟩ := h1.core.live_pop hs' hF
    refine ⟨o, st', _, _, P', ?_, h', ?_, ?_, ?_, hblank⟩
    · rw [alloc, if_pos hz, hgrow]
      simp only [hrun, Option.bind_eq_bind, Option.bind_some]
    · intro q hq
      exact hfresh q ((live_add hnew q o).mpr hq)
    · intro q p
      rw [hlive, live_add hnew]
    · intro b hb
      rw [hsame, hpages]
      exact mem_cons_of_mem _ hb
  · right
    obtain ⟨s', o, l, st', P', hs', hF, hrun, h', hsame, hblank⟩ := takeFirst_spec h hz
    obtain ⟨hfresh, hlive⟩ := h.core.live_pop hs' hF
    refine ⟨o, st', S, _, P', ?_, h', hfresh, hlive, ?_, hblank⟩
    · rw [alloc, if_neg hz, hrun]
      rfl
    · intro b hb
      rwa [hsame]

end Fastros.Alloc.Slabs
