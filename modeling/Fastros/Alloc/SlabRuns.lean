import Fastros.Alloc.SlabFree
import Fastros.Lib.Run

/-!
# What holds in every run of the slab allocator

The callers' objects are exactly those the tables of the allocator have in use.
Each event keeps this, so it holds after every sequence of events, and the promises
of the allocator follow from it.
-/

namespace Fastros.Alloc.Slabs

open List
open Option (bind_eq_bind bind_some)

open Lib.Linked (Segment Chain)
open Lib.Run (runs runs_total)

variable {h h' : Heap} {S F P : Nat → List Nat} {s c o a v : Nat}

theorem classFor_some {size align : Nat} (hc : classFor size align = some c) :
    c < 8 ∧ size ≤ classSize c ∧ align ≤ classSize c := by
  obtain ⟨hlt, hfit, -⟩ := findIdx?_eq_some_iff_getElem.mp hc
  have : sizeClasses.length = 8 := rfl
  have : classSize c = sizeClasses[c] := by
    rw [classSize, getD_eq_getElem?_getD, getElem?_eq_getElem hlt, Option.getD_some]
  rw [decide_eq_true_eq] at hfit
  omega

/-- Objects are aligned to their size, which is a power of two. -/
theorem Core.object_aligned {st : Slab} (hcore : Core st S F P) (hs : s ∈ S c)
    (ho : o ∈ objects s c) {k : Nat} (hk : 2 ^ k ≤ classSize c) : 2 ^ k ∣ o := by
  have hc := hcore.classLt hs
  have hpow : ∀ c < 8, classSize c = 2 ^ (4 + c) := by decide
  obtain ⟨i, -, rfl⟩ := mem_objects.mp ho
  have hself : classSize c ∣ s :=
    Nat.dvd_trans (Nat.dvd_of_mod_eq_zero (shape hc).bytes) (Nat.dvd_of_mod_eq_zero (hcore.aligned hs))
  have hfirst : classSize c ∣ firstOffset c := Nat.dvd_of_mod_eq_zero (shape hc).firstMul
  have hobj : classSize c ∣ s + firstOffset c + i * classSize c :=
    Nat.dvd_add (Nat.dvd_add hself hfirst) (Nat.dvd_mul_left _ _)
  rw [hpow c hc] at hk
  have hle : k ≤ 4 + c := (Nat.pow_le_pow_iff_right (by decide)).mp hk
  have hdvd : 2 ^ k ∣ classSize c := by
    rw [hpow c hc]
    exact Nat.pow_dvd_pow 2 hle
  exact Nat.dvd_trans hdvd hobj

/-- The objects of the callers are those in use. -/
structure Kept (h : Heap) (S F P : Nat → List Nat) : Prop where
  inv : Inv h.slab S F P
  live : ∀ q p, (∃ obj ∈ h.live, obj.cls = q ∧ obj.ptr = p) ↔ Live S F q p
  nodup : (h.live.map Object.ptr).Nodup
  fits : ∀ obj ∈ h.live, classFor obj.layout.size obj.layout.align = some obj.cls

theorem kept_boot (mem : Nat → Nat) (secret : Nat) :
    Kept (boot mem secret) (fun _ => []) (fun _ => []) (fun _ => []) := by
  have hcore : Core (boot mem secret).slab (fun _ => []) (fun _ => []) (fun _ => []) := by
    constructor <;> simp [boot, Slab.new, Segment]
  refine ⟨⟨hcore, ?_, ?_, ?_⟩, ?_, ?_, ?_⟩
  · intro y q hy
    cases hy
  · intro q
    rfl
  · intro q
    exact Nat.zero_le 1
  · intro q p
    simp [boot, Live]
  · exact nodup_nil
  · intro obj hobj
    cases hobj

/-- An object of the callers is an object of a slab. -/
theorem Kept.place (hk : Kept h S F P) {obj : Object} (hobj : obj ∈ h.live) :
    ∃ s ∈ S obj.cls, obj.ptr ∈ objects s obj.cls ∧ obj.ptr ∉ F s :=
  (hk.live obj.cls obj.ptr).mp ⟨obj, hobj, rfl, rfl⟩

theorem Kept.eq_of_ptr (hk : Kept h S F P) {obj obj' : Object} (hobj : obj ∈ h.live)
    (hobj' : obj' ∈ h.live) (he : obj.ptr = obj'.ptr) : obj = obj' :=
  inj_on_of_nodup_map hk.nodup hobj hobj' he

/-- An object that was just handed out is zero. -/
def Zeroed (h h' : Heap) : Prop :=
  ∀ obj, h'.live = obj :: h.live → ∀ x, obj.ptr ≤ x → x < obj.ptr + classSize obj.cls → x % 8 = 0 →
    h'.slab.mem x = 0

/-- The object lies in no part of the block. -/
def Outside (obj : Object) (b : Nat × Nat) : Prop :=
  obj.ptr + classSize obj.cls ≤ b.1 ∨ b.1 + pageSize * 2 ^ b.2 ≤ obj.ptr

/-- No object lies in a block that was given back. -/
def Returned (h h' : Heap) : Prop :=
  ∀ b ∈ h.slab.pages, b ∉ h'.slab.pages → ∀ obj ∈ h'.live, Outside obj b

theorem zeroed_of_length (hlen : h'.live.length ≤ h.live.length) : Zeroed h h' := by
  intro obj hobj
  rw [hobj, length_cons] at hlen
  omega

theorem returned_of_pages (hpages : ∀ b ∈ h.slab.pages, b ∈ h'.slab.pages) : Returned h h' :=
  fun b hb hnot => absurd (hpages b hb) hnot

/-- An event is taken, and the tables are in order after it. -/
abbrev Taken (e : Event) (h : Heap) : Prop :=
  ∃ h' S F P, step e h = some h' ∧ Kept h' S F P ∧ Zeroed h h' ∧ Returned h h'

theorem Kept.refuses {e : Event} (hk : Kept h S F P) (hs : step e h = some h) : Taken e h :=
  ⟨h, S, F, P, hs, hk, zeroed_of_length le_rfl, returned_of_pages fun _ => id⟩

theorem alloc_kept (hk : Kept h S F P) (layout : Layout) (offer : Option Nat) :
    Taken (.alloc layout offer) h := by
  cases hcls : classFor layout.size layout.align with
  | none =>
    apply hk.refuses
    simp only [step, hcls]
  | some c =>
    rcases alloc_spec hk.inv (classFor_some hcls).1 offer with
      hno | ⟨o, st', S', F', P', hrun, hinv, hfresh, hlive, hpages, hblank⟩
    · apply hk.refuses
      simp only [step, hcls, hno, bind_eq_bind, bind_some]
    refine ⟨⟨st', ⟨o, c, layout⟩ :: h.live⟩, S', F', P', ?_, ⟨hinv, ?_, ?_, ?_⟩, ?_,
      returned_of_pages hpages⟩
    · simp only [step, hcls, hrun, bind_eq_bind, bind_some]
    · intro q p
      rw [hlive, ← hk.live]
      constructor
      · rintro ⟨obj, hobj, rfl, rfl⟩
        rcases mem_cons.mp hobj with rfl | hobj
        · exact .inr ⟨rfl, rfl⟩
        · exact .inl ⟨obj, hobj, rfl, rfl⟩
      · rintro (⟨obj, hobj, rfl, rfl⟩ | ⟨rfl, rfl⟩)
        · exact ⟨obj, mem_cons_of_mem _ hobj, rfl, rfl⟩
        · exact ⟨_, mem_cons_self, rfl, rfl⟩
    · rw [map_cons]
      refine nodup_cons.mpr ⟨?_, hk.nodup⟩
      intro hin
      obtain ⟨obj, hobj, hptr⟩ := mem_map.mp hin
      exact hfresh obj.cls ((hk.live obj.cls o).mp ⟨obj, hobj, rfl, hptr⟩)
    · intro obj hobj
      rcases mem_cons.mp hobj with rfl | hobj
      · exact hcls
      · exact hk.fits obj hobj
    · intro obj hobj x h1 h2 h3
      obtain ⟨rfl, -⟩ := cons.inj hobj
      exact hblank x h1 h2 h3

theorem free_kept (hk : Kept h S F P) (obj : Object) : Taken (.free obj) h := by
  by_cases hobj : obj ∈ h.live
  · have hlive := (hk.live obj.cls obj.ptr).mp ⟨obj, hobj, rfl, rfl⟩
    rcases free_spec hk.inv hlive with hno | ⟨st', S', F', P', hrun, hinv, hlive', hsub⟩
    · apply hk.refuses
      simp only [step, if_pos hobj, hno, bind_eq_bind, bind_some]
    have hnd : h.live.Nodup := hk.nodup.of_map _
    have hk' : Kept ⟨st', h.live.erase obj⟩ S' F' P' := by
      refine ⟨hinv, ?_, ?_, ?_⟩
      · intro q p
        rw [hlive', ← hk.live]
        constructor
        · rintro ⟨x, hx, rfl, rfl⟩
          obtain ⟨hne, hx⟩ := hnd.mem_erase_iff.mp hx
          exact ⟨⟨x, hx, rfl, rfl⟩, fun he => hne (hk.eq_of_ptr hx hobj he.2)⟩
        · rintro ⟨⟨x, hx, rfl, rfl⟩, hne⟩
          refine ⟨x, hnd.mem_erase_iff.mpr ⟨?_, hx⟩, rfl, rfl⟩
          rintro rfl
          exact hne ⟨rfl, rfl⟩
      · exact hk.nodup.sublist (erase_sublist.map _)
      · intro x hx
        exact hk.fits x (mem_of_mem_erase hx)
    refine ⟨_, S', F', P', ?_, hk', zeroed_of_length (length_erase_le), ?_⟩
    · simp only [step, if_pos hobj, hrun, bind_eq_bind, bind_some]
    intro b hb hnot x hx
    obtain ⟨q, hq, hord⟩ := hk.inv.core.pages.mp (show (b.1, b.2) ∈ h.slab.pages from hb)
    obtain ⟨y, hy, hplace, -⟩ := hk'.place hx
    have := object_bounds (hinv.core.classLt hy) hplace
    have : pageSize * 2 ^ b.2 = slabBytes q := by rw [hord, slabBytes]
    rw [Outside]
    rcases hk.inv.core.apart (hsub hy) hq with hap | hap | ⟨he, hqc⟩
    · omega
    · omega
    -- the slab of a live object is still there
    refine absurd (hinv.core.pages.mpr ⟨x.cls, hy, ?_⟩) (show (y, b.2) ∉ st'.pages from ?_)
    · rw [hord, hqc]
    · rw [he]
      exact hnot
  · apply hk.refuses
    rw [step, if_neg hobj]

/-- A caller's write does not reach the tables. -/
theorem write_core {st : Slab} (hcore : Core st S F P) (hs : s ∈ S c) (ho : o ∈ objects s c)
    (hF : o ∉ F s) (h1 : o ≤ a) (h2 : a < o + classSize c) : Core (st.write a v) S F P := by
  have := field_offsets
  have hc := hcore.classLt hs
  have hb := object_bounds hc ho
  have hrep := hcore.rep hs
  have hsame : Function.update F s (F s) = F := Function.update_eq_self s F
  rw [← hsame]
  refine hcore.change hs ⟨rfl, rfl, rfl, rfl⟩ ?_ ?_ rfl fun _ _ => rfl
  · intro x hx
    rw [Slab.write_mem, if_neg (by omega)]
  refine hrep.frame hc rfl ?_ ?_ ?_
  · intro k hk
    rw [Slab.write_mem, if_neg (by omega)]
  · intro o' ho' x hx1 hx2
    rw [Slab.write_mem, if_neg]
    rintro rfl
    exact hF (object_unique (hrep.objs o' ho') ho hx1 hx2 h1 h2 ▸ ho')
  · rw [Slab.write_mem, if_neg (by omega)]
    exact hrep.onList

theorem write_kept (hk : Kept h S F P) (a v : Nat) : Taken (.write a v) h := by
  by_cases hg : (inPages h.slab.pages a && !inLive h.live a) = true
  · apply hk.refuses
    rw [step, if_pos hg]
  have hcore : Core (h.slab.write a v) S F P := by
    by_cases hin : inLive h.live a = true
    · obtain ⟨obj, hobj, hrange⟩ := any_eq_true.mp hin
      rw [Bool.and_eq_true, decide_eq_true_eq, decide_eq_true_eq] at hrange
      obtain ⟨s, hs, ho, hF⟩ := hk.place hobj
      exact write_core hk.inv.core hs ho hF hrange.1 hrange.2
    have hout : inPages h.slab.pages a ≠ true := by
      intro hp
      rw [hp, Bool.eq_false_iff.mpr hin] at hg
      exact hg rfl
    refine hk.inv.core.congr ⟨rfl, rfl, rfl, rfl⟩ rfl ?_
    intro y q hy x h1 h2
    rw [Slab.write_mem, if_neg]
    rintro rfl
    apply hout
    refine any_eq_true.mpr ⟨_, hk.inv.core.pages.mpr ⟨q, hy, rfl⟩, ?_⟩
    rw [Bool.and_eq_true, decide_eq_true_eq, decide_eq_true_eq]
    exact ⟨h1, h2⟩
  refine ⟨{ h with slab := h.slab.write a v }, S, F, P, ?_,
    ⟨⟨hcore, hk.inv.listed, hk.inv.empty, hk.inv.one⟩, hk.live, hk.nodup, hk.fits⟩,
    zeroed_of_length le_rfl, returned_of_pages fun _ => id⟩
  rw [step, if_neg hg]

theorem step_kept (hk : Kept h S F P) (e : Event) : Taken e h := by
  cases e with
  | alloc layout offer => exact alloc_kept hk layout offer
  | free obj => exact free_kept hk obj
  | write a v => exact write_kept hk a v

theorem run_kept (mem : Nat → Nat) (secret : Nat) (events : List Event) :
    ∃ h, runs step events (boot mem secret) = some h ∧ ∃ S F P, Kept h S F P := by
  refine runs_total ?_ events _ ⟨_, _, _, kept_boot mem secret⟩
  rintro h e ⟨S, F, P, hk⟩
  obtain ⟨h', S', F', P', hrun, hk', -⟩ := step_kept hk e
  exact ⟨h', hrun, S', F', P', hk'⟩

/-- The block lies in memory as a slab of class `c`: how many of its objects are in
use, and which are on its free list. -/
structure IsSlab (h : Heap) (b : Nat × Nat) (c : Nat) : Prop where
  order : b.2 = slabOrder c
  magic : h.slab.mem b.1 = headerMagic
  cls : h.slab.mem (b.1 + classField) = c
  inUse : h.slab.mem (b.1 + inUseField) = h.live.countP
    fun obj => b.1 ≤ obj.ptr ∧ obj.ptr < b.1 + pageSize * 2 ^ b.2
  free : ∃ F, Chain h.slab.next (h.slab.firstFree b.1) F ∧ F.Nodup ∧
    ∀ o, o ∈ F ↔ o ∈ objects b.1 c ∧ ∀ obj ∈ h.live, obj.ptr ≠ o

/-- The partial list of a class: the slabs with a free object, at most one of them
without used ones. -/
structure IsPartial (h : Heap) (c : Nat) (L : List Nat) : Prop where
  nodup : L.Nodup
  linked : Segment h.slab.link none L none
  head : ptr (h.slab.heads c) = L.head?
  mem : ∀ s, s ∈ L ↔ (s, slabOrder c) ∈ h.slab.pages ∧ h.slab.mem (s + classField) = c ∧
    h.slab.mem (s + inUseField) < capacity c
  empty : ∀ s ∈ L, ∀ s' ∈ L, h.slab.mem (s + inUseField) = 0 → h.slab.mem (s' + inUseField) = 0 → s = s'

structure Sound (h : Heap) : Prop where
  fits : ∀ obj ∈ h.live, classFor obj.layout.size obj.layout.align = some obj.cls ∧
    obj.layout.size ≤ classSize obj.cls
  aligned : ∀ obj ∈ h.live, obj.layout.align ∣ obj.ptr
  inside : ∀ obj ∈ h.live, ∃ b ∈ h.slab.pages, b.1 + headerSize ≤ obj.ptr ∧
    obj.ptr + classSize obj.cls ≤ b.1 + pageSize * 2 ^ b.2
  disjoint : h.live.Pairwise fun x y =>
    x.ptr + classSize x.cls ≤ y.ptr ∨ y.ptr + classSize y.cls ≤ x.ptr
  slabs : ∀ b ∈ h.slab.pages, ∃ c < 8, IsSlab h b c
  lists : ∀ c, ∃ L, IsPartial h c L

theorem Kept.disjoint (hk : Kept h S F P) : h.live.Pairwise fun x y =>
    x.ptr + classSize x.cls ≤ y.ptr ∨ y.ptr + classSize y.cls ≤ x.ptr := by
  have hnd : h.live.Nodup := hk.nodup.of_map _
  refine (pairwise_iff_getElem.mpr ?_ : List.Pairwise _ h.live)
  intro i j hi hj hij
  obtain ⟨s, hs, ho, -⟩ := hk.place (getElem_mem hi)
  obtain ⟨s', hs', ho', -⟩ := hk.place (getElem_mem hj)
  by_contra hover
  -- an address in both objects makes them one
  have := (shape (hk.inv.core.classLt hs)).size
  have := (shape (hk.inv.core.classLt hs')).size
  obtain ⟨-, -, he⟩ := hk.inv.core.object_unique hs hs' ho ho'
    (a := max h.live[i].ptr h.live[j].ptr) (by omega) (by omega) (by omega) (by omega)
  have heq := hk.eq_of_ptr (getElem_mem hi) (getElem_mem hj) he
  have := (hnd.getElem_inj_iff).mp heq
  omega

/-- The number of objects in use that lie in a slab. -/
theorem Kept.count (hk : Kept h S F P) (hs : s ∈ S c) :
    h.live.countP (fun obj => s ≤ obj.ptr ∧ obj.ptr < s + slabBytes c) + (F s).length = capacity c := by
  have hc := hk.inv.core.classLt hs
  have hrep := hk.inv.core.rep hs
  have hperm : (((h.live.filter fun obj => s ≤ obj.ptr ∧ obj.ptr < s + slabBytes c).map Object.ptr)
      ++ F s).Perm (objects s c) := by
    have hmem : ∀ p, p ∈ (h.live.filter fun obj => s ≤ obj.ptr ∧ obj.ptr < s + slabBytes c).map
        Object.ptr ↔ p ∈ objects s c ∧ p ∉ F s := by
      intro p
      rw [mem_map]
      constructor
      · rintro ⟨obj, hobj, rfl⟩
        obtain ⟨hobj, hrange⟩ := mem_filter.mp hobj
        rw [decide_eq_true_eq] at hrange
        obtain ⟨y, hy, ho, hF⟩ := hk.place hobj
        have hb := object_bounds (hk.inv.core.classLt hy) ho
        have hsz := (shape (hk.inv.core.classLt hy)).size
        obtain rfl := hk.inv.core.block_unique hs hy hrange.1 hrange.2 (by omega) (by omega)
        rw [hk.inv.core.class_unique hs hy]
        exact ⟨ho, hF⟩
      · rintro ⟨ho, hF⟩
        obtain ⟨obj, hobj, -, rfl⟩ := (hk.live c p).mpr ⟨s, hs, ho, hF⟩
        have hb := object_bounds hc ho
        have hsz := (shape hc).size
        refine ⟨obj, mem_filter.mpr ⟨hobj, ?_⟩, rfl⟩
        rw [decide_eq_true_eq]
        omega
    have hleft : ((h.live.filter fun obj => s ≤ obj.ptr ∧ obj.ptr < s + slabBytes c).map
        Object.ptr).Nodup := hk.nodup.sublist (filter_sublist.map _)
    refine (perm_ext_iff_of_nodup ?_ (objects_nodup hc)).mpr ?_
    · refine nodup_append.mpr ⟨hleft, hrep.nodup, ?_⟩
      rintro p hp _ hp' rfl
      exact ((hmem p).mp hp).2 hp'
    intro p
    rw [mem_append, hmem]
    constructor
    · rintro (hp | hp)
      · exact hp.1
      · exact hrep.objs p hp
    · intro hp
      by_cases hF : p ∈ F s
      · exact .inr hF
      · exact .inl ⟨hp, hF⟩
  have hlen := hperm.length_eq
  rw [length_append, length_map, objects_length, ← countP_eq_length_filter] at hlen
  exact hlen

theorem Kept.isSlab (hk : Kept h S F P) (hs : s ∈ S c) : IsSlab h (s, slabOrder c) c := by
  have hrep := hk.inv.core.rep hs
  have := hrep.inUse
  have hcount := hk.count hs
  refine ⟨rfl, hrep.magic, hrep.cls, ?_, F s, hrep.chain, hrep.nodup, ?_⟩
  · rw [slabBytes] at hcount
    dsimp only
    omega
  intro o
  constructor
  · intro ho
    refine ⟨hrep.objs o ho, ?_⟩
    rintro obj hobj rfl
    obtain ⟨y, hy, hoy, hF⟩ := hk.place hobj
    obtain ⟨rfl, -⟩ := hk.inv.core.object_owner hs hy (hrep.objs _ ho) hoy
    exact hF ho
  · rintro ⟨ho, hno⟩
    by_contra hF
    obtain ⟨obj, hobj, -, hptr⟩ := (hk.live c o).mpr ⟨s, hs, ho, hF⟩
    exact hno obj hobj hptr

theorem Inv.empty_unique {st : Slab} {s' : Nat} (hinv : Inv st S F P) (hs : s ∈ S c) (hs' : s' ∈ S c)
    (he : (F s).length = capacity c) (he' : (F s').length = capacity c) : s = s' := by
  by_contra hne
  have hcount := hinv.empty c
  have := hinv.one c
  have h1 := sum_map_erase (fun x => if (F x).length = capacity c then 1 else 0) hs
  have hs2 : s' ∈ (S c).erase s := (hinv.core.nodup c).mem_erase_iff.mpr ⟨Ne.symm hne, hs'⟩
  have h2 := sum_map_erase (fun x => if (F x).length = capacity c then 1 else 0) hs2
  rw [if_pos he] at h1
  rw [if_pos he'] at h2
  rw [emptyCount] at hcount
  omega

theorem Kept.isPartial (hk : Kept h S F P) (c : Nat) : IsPartial h c (P c) := by
  have hcore := hk.inv.core
  refine ⟨hcore.listNodup c, hcore.linked c, hcore.heads c, ?_, ?_⟩
  · intro s
    constructor
    · intro hs
      have hsS := hcore.sub hs
      have hin := (hcore.rep hsS).inUse
      have := length_pos_iff.mpr ((hk.inv.listed hsS).mp hs)
      exact ⟨hcore.pages.mpr ⟨c, hsS, rfl⟩, (hcore.rep hsS).cls, by omega⟩
    · rintro ⟨hpage, hcls, hlt⟩
      obtain ⟨q, hs, -⟩ := hcore.pages.mp hpage
      obtain rfl : c = q := by rw [← hcls, (hcore.rep hs).cls]
      have hin := (hcore.rep hs).inUse
      refine (hk.inv.listed hs).mpr (length_pos_iff.mp ?_)
      omega
  · intro s hs s' hs' he he'
    have hin := (hcore.rep (hcore.sub hs)).inUse
    have := (hcore.rep (hcore.sub hs')).inUse
    exact hk.inv.empty_unique (hcore.sub hs) (hcore.sub hs') (by omega) (by omega)

theorem Kept.sound (hk : Kept h S F P) : Sound h := by
  refine ⟨?_, ?_, ?_, hk.disjoint, ?_, fun c => ⟨P c, hk.isPartial c⟩⟩
  · intro obj hobj
    exact ⟨hk.fits obj hobj, (classFor_some (hk.fits obj hobj)).2.1⟩
  · intro obj hobj
    obtain ⟨s, hs, ho, -⟩ := hk.place hobj
    exact hk.inv.core.object_aligned hs ho (classFor_some (hk.fits obj hobj)).2.2
  · intro obj hobj
    obtain ⟨s, hs, ho, -⟩ := hk.place hobj
    have hb := object_bounds (hk.inv.core.classLt hs) ho
    exact ⟨(s, slabOrder obj.cls), hk.inv.core.pages.mpr ⟨obj.cls, hs, rfl⟩, hb⟩
  · rintro ⟨s, q⟩ hb
    obtain ⟨c, hs, rfl⟩ := hk.inv.core.pages.mp hb
    exact ⟨c, hk.inv.core.classLt hs, hk.isSlab hs⟩

/-- After every sequence of events the objects and the tables are sound, and whatever
comes next, an object is handed out zeroed and a block is given back without objects in it. -/
theorem slab_sound (mem : Nat → Nat) (secret : Nat) (events : List Event) :
    ∃ h, runs step events (boot mem secret) = some h ∧ Sound h ∧
      ∀ e, ∃ h', step e h = some h' ∧ Sound h' ∧ Zeroed h h' ∧ Returned h h' := by
  obtain ⟨h, hrun, S, F, P, hk⟩ := run_kept mem secret events
  refine ⟨h, hrun, hk.sound, ?_⟩
  intro e
  obtain ⟨h', S', F', P', hstep, hk', hzero, hret⟩ := step_kept hk e
  exact ⟨h', hstep, hk'.sound, hzero, hret⟩

end Fastros.Alloc.Slabs
