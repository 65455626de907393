import Fastros.Alloc.SlabAlloc

/-!
# Returning objects to slabs

Freeing puts an object back on the free list of its slab. A slab that becomes empty
is kept if it is the only empty one of its class, and given back otherwise.
-/

namespace Fastros.Alloc.Slabs

open List Slab

open Function (update update_self update_of_ne forall_update_iff)
open Lib (Checked.sub Checked.sub_eq_some)

variable {st st' : Slab} {S F P : Nat → List Nat} {s s' c c' o a : Nat} {l : List Nat}

theorem Core.mem_erase (h : Core st S F P) (hs : s ∈ S c) {q y : Nat} :
    y ∈ update S c ((S c).erase s) q ↔ y ∈ S q ∧ y ≠ s := by
  rw [mem_update_erase (h.nodup c), and_comm]
  refine and_congr_right fun hy => ⟨fun hne hys => ?_, fun hne _ => hne⟩
  subst hys
  exact hne (h.class_unique hy hs) rfl

/-- A slab without used objects is given back. -/
theorem Core.remove (h : Core st S F P) (hs : s ∈ S c) (hnot : s ∉ P c)
    (hfull : (F s).length = capacity c) (hmem : ∀ a, a ≠ s → st'.mem a = st.mem a)
    (hsec : st'.secret = st.secret) (hheads : st'.heads = st.heads) (huse : st'.inUse = st.inUse)
    (hpages : st'.pages = st.pages.erase (s, slabOrder c))
    (hslabs : st'.slabs = update st.slabs c (st.slabs c - 1)) :
    Core st' (update S c ((S c).erase s)) F P := by
  have hmemS : ∀ {q y}, y ∈ update S c ((S c).erase s) q ↔ y ∈ S q ∧ y ≠ s := h.mem_erase hs
  have hold : ∀ {y q}, y ∈ S q → y ≠ s → ∀ a, y ≤ a → a < y + slabBytes q → st'.mem a = st.mem a := by
    intro y q hy hne a h1 h2
    apply hmem
    rintro rfl
    have hb := slabBytes_ge (h.classLt hs)
    exact hne (h.block_unique hy hs h1 h2 le_rfl (by omega))
  have hlisted : ∀ {y q}, y ∈ P q → y ∈ S q ∧ y ≠ s := by
    intro y q hy
    refine ⟨h.sub hy, ?_⟩
    rintro rfl
    rw [h.class_unique (h.sub hy) hs] at hy
    exact hnot hy
  refine ⟨fun hy => h.classLt (hmemS.mp hy).1, ?_, ?_, fun hy => h.nonzero (hmemS.mp hy).1,
    fun hy => h.aligned (hmemS.mp hy).1, fun hy hy' => h.apart (hmemS.mp hy).1 (hmemS.mp hy').1, ?_, ?_,
    h.listNodup, fun hy => hmemS.mpr (hlisted hy), ?_, ?_, ?_, ?_⟩
  · intro y q
    rw [hpages, h.pagesNodup.mem_erase_iff, h.pages]
    constructor
    · rintro ⟨hne, d, hd, rfl⟩
      refine ⟨d, hmemS.mpr ⟨hd, ?_⟩, rfl⟩
      rintro rfl
      rw [h.class_unique hd hs] at hne
      exact hne rfl
    · rintro ⟨d, hd, rfl⟩
      exact ⟨fun he => (hmemS.mp hd).2 (Prod.mk.inj he).1, d, (hmemS.mp hd).1, rfl⟩
  · rw [hpages]
    exact h.pagesNodup.erase _
  · intro y q hy
    obtain ⟨hy, hne⟩ := hmemS.mp hy
    exact (h.same_block hy hsec (hold hy hne)).1
  · rw [forall_update_iff S fun _ l => l.Nodup]
    exact ⟨(h.nodup c).erase s, fun q _ => h.nodup q⟩
  · intro q
    refine (h.linked q).congr fun y hy => ?_
    obtain ⟨hy', hne⟩ := hlisted hy
    exact (h.same_block hy' hsec (hold hy' hne)).2
  · intro q
    rw [hheads]
    exact h.heads q
  · intro q
    rw [hslabs]
    by_cases hq : q = c
    · subst hq
      rw [update_self, update_self, h.slabs q, length_erase_of_mem hs]
    · rw [update_of_ne hq, update_of_ne hq]
      exact h.slabs q
  · intro q
    rw [huse]
    have hsum := h.inUse q
    by_cases hq : q = c
    · subst hq
      have := sum_map_erase (fun x => (F x).length) hs
      have hlen := length_erase_of_mem hs
      have := length_pos_of_mem hs
      obtain ⟨d, hd⟩ : ∃ d, (S q).length = d + 1 := ⟨(S q).length - 1, by omega⟩
      rw [hd, Nat.succ_mul] at hsum
      rw [update_self, hlen, hd, Nat.add_sub_cancel]
      omega
    · rw [update_of_ne hq]
      exact hsum

/-- The state `putBack` has when it may put the slab on its list. -/
def returned (st : Slab) (c s o used total : Nat) : Slab :=
  { (((st.zero o (classSize c)).write o
        (st.encode (st.encode (st.mem (s + freeField)) (s + freeField)) o)).write
      (s + freeField) (st.encode o (s + freeField))).write (s + inUseField) used with
    inUse := Function.update st.inUse c total }

theorem putBack_eq (hc : c < 8) (ho : o ∈ objects s c) (st : Slab) :
    st.putBack c s o = (Checked.sub (st.mem (s + inUseField)) 1).bind fun u =>
      (Checked.sub (st.inUse c) 1).bind fun t =>
        some (if st.mem (s + onPartialField) = 0 then (returned st c s o u t).linkPartial c s
          else returned st c s o u t) := by
  have := field_offsets
  have hb := object_bounds hc ho
  have hfree : (st.zero o (classSize c)).mem (s + freeField) = st.mem (s + freeField) := by
    rw [zero_mem, if_neg (by omega)]
  have hin : ∀ v w, (((st.zero o (classSize c)).write o v).write (s + freeField) w).mem (s + inUseField)
      = st.mem (s + inUseField) := by
    intro v w
    simp only [write_mem, zero_mem]
    repeat rw [if_neg (by omega)]
  have hon : ∀ v w u, ((((st.zero o (classSize c)).write o v).write (s + freeField) w).write
      (s + inUseField) u).mem (s + onPartialField) = st.mem (s + onPartialField) := by
    intro v w u
    simp only [write_mem, zero_mem]
    repeat rw [if_neg (by omega)]
  simp only [putBack, hfree, hin, hon]
  rfl

/-- What a used object's return leaves, up to whether its slab is kept. -/
theorem putBack_spec (h : Inv st S F P) (hs : s ∈ S c) (ho : o ∈ objects s c) (hF : o ∉ F s) :
    ∃ st' P', st.putBack c s o = some st' ∧ Core st' S (update F s (o :: F s)) P' ∧
      (∀ {y q}, y ∈ S q → (y ∈ P' q ↔ update F s (o :: F s) y ≠ [])) ∧
      st'.pages = st.pages ∧ st'.empty = st.empty := by
  have := field_offsets
  have hc := h.core.classLt hs
  have hrep := h.core.rep hs
  have hb := object_bounds hc ho
  have := (shape hc).size
  have hin := hrep.inUse
  have := hrep.length_lt ho hF
  obtain ⟨u, hu⟩ : ∃ u, u + 1 = st.mem (s + inUseField) := ⟨st.mem (s + inUseField) - 1, by omega⟩
  -- some object of the class is used, so the counter is positive
  have htotal : 1 ≤ st.inUse c := by
    have hsum := h.core.inUse c
    have := sum_map_erase (fun x => (F x).length) hs
    have hbound : (((S c).erase s).map fun x => (F x).length).sum
        ≤ ((S c).erase s).length * capacity c := by
      have hle := sum_le_card_nsmul (((S c).erase s).map fun x => (F x).length) (capacity c) (by
        intro n hn
        obtain ⟨y, hy, rfl⟩ := mem_map.mp hn
        exact (h.core.rep (mem_of_mem_erase hy)).length_le)
      simpa using hle
    have hlen := length_erase_of_mem hs
    have := length_pos_of_mem hs
    obtain ⟨d, hd⟩ : ∃ d, (S c).length = d + 1 := ⟨(S c).length - 1, by omega⟩
    rw [hlen, hd, Nat.add_sub_cancel] at hbound
    rw [hd, Nat.succ_mul] at hsum
    omega
  have hcore : Core (returned st c s o u (st.inUse c - 1)) S (update F s (o :: F s)) P := by
    refine h.core.change hs ⟨rfl, rfl, rfl, rfl⟩ ?_ ?_ ?_ ?_
    · intro a ha
      simp only [returned, write_mem, zero_mem]
      repeat rw [if_neg (by omega)]
    · have hpush := hrep.push hc ho hF u hu
      exact hpush.congr hc rfl (fun _ _ _ _ _ _ => rfl) hpush.onList
    · simp only [returned, update_self, length_cons]
      omega
    · intro c' hc'
      simp only [returned, update_of_ne hc']
  have hrun : ∀ st', (if st.mem (s + onPartialField) = 0 then
      (returned st c s o u (st.inUse c - 1)).linkPartial c s
      else returned st c s o u (st.inUse c - 1)) = st' → st.putBack c s o = some st' := by
    intro st' hst
    rw [putBack_eq hc ho, Checked.sub_eq_some.mpr ⟨by omega, show st.mem (s + inUseField) - 1 = u by omega⟩,
      Checked.sub_eq_some.mpr ⟨htotal, rfl⟩, ← hst]
    rfl
  by_cases hon : st.mem (s + onPartialField) = 0
  · have hnot : s ∉ P c := fun hin => hrep.onList.mp hin hon
    obtain ⟨-, hpages, -, -, -, hsame⟩ := linkPartial_fields (returned st c s o u (st.inUse c - 1)) c s
    refine ⟨_, _, hrun _ (if_pos hon), hcore.link hs hnot, ?_, hpages, hsame⟩
    refine h.listed_update hs (by simp) fun hys => ?_
    rw [Lib.Linked.mem_update_cons]
    simp [hys]
  · have hin : s ∈ P c := hrep.onList.mpr hon
    refine ⟨_, P, hrun _ (if_neg hon), hcore, ?_, rfl, rfl⟩
    exact h.listed_update hs (by simp [hin]) fun _ => Iff.rfl

/-- An empty slab is kept if it is the only one, and given back otherwise. -/
theorem release_spec (h : Core st S F P) (hs : s ∈ S c) (hpos : F s ≠ [])
    (hlisted : ∀ {y q}, y ∈ S q → (y ∈ P q ↔ F y ≠ []))
    (hempty : ∀ q, st.empty q + (if q = c ∧ (F s).length = capacity c then 1 else 0) = emptyCount S F q)
    (hone : ∀ q, st.empty q ≤ 1) :
    ∃ st' S' P', st.release c s = some st' ∧ Inv st' S' F P' ∧
      (∀ q p, Live S' F q p ↔ Live S F q p) ∧ ∀ {y q}, y ∈ S' q → y ∈ S q := by
  have hrep := h.rep hs
  have := hrep.inUse
  by_cases hu : st.mem (s + inUseField) = 0
  · have hfull : (F s).length = capacity c := by omega
    by_cases he : 1 ≤ st.empty c
    · have hsP : s ∈ P c := (hlisted hs).mpr hpos
      have hcore := h.unlink hsP
      obtain ⟨-, hpages, hslabs', -, -, hsame⟩ := unlinkPartial_fields st c s
      have hslabs : 1 ≤ st.slabs c := by
        rw [h.slabs c]
        exact length_pos_of_mem hs
      have hpage : (s, slabOrder c) ∈ st.pages := h.pages.mpr ⟨c, hs, rfl⟩
      obtain ⟨st', hst'⟩ : ∃ st' : Slab, st' = { (st.unlinkPartial c s).write s 0 with
          slabs := update st.slabs c (st.slabs c - 1)
          pages := st.pages.erase (s, slabOrder c) } := ⟨_, rfl⟩
      have hrun : st.release c s = some st' := by
        rw [release, if_pos hu, if_pos he]
        simp only [write_slabs, hslabs', Checked.sub_eq_some.mpr ⟨hslabs, rfl⟩,
          Option.bind_eq_bind, Option.bind_some, freePages, write_pages, hpages,
          if_pos hpage, hst']
      have hremove : Core st' (update S c ((S c).erase s)) F (update P c ((P c).erase s)) := by
        refine hcore.remove hs ?_ hfull ?_ ?_ ?_ ?_ ?_ ?_
        · rw [update_self, (h.listNodup c).mem_erase_iff]
          simp
        · intro a ha
          rw [hst']
          simp only [write_mem]
          rw [if_neg ha]
        all_goals
          rw [hst']
          first | rfl | rw [hpages] | rw [hslabs']
      have hmemS : ∀ {y q}, y ∈ update S c ((S c).erase s) q ↔ y ∈ S q ∧ y ≠ s := h.mem_erase hs
      have hst : ∀ q, st'.empty q = st.empty q := by
        intro q
        rw [hst']
        exact congrFun hsame q
      refine ⟨st', _, _, hrun, ⟨hremove, ?_, ?_, ?_⟩, ?_, fun hy => (hmemS.mp hy).1⟩
      · intro y q hy
        obtain ⟨hyS, hys⟩ := hmemS.mp hy
        rw [← hlisted hyS, mem_update_erase (h.listNodup c)]
        simp [hys]
      · intro q
        have hq' := hempty q
        rw [hst, emptyCount]
        by_cases hq : q = c
        · subst hq
          rw [if_pos ⟨rfl, hfull⟩, emptyCount] at hq'
          have herase := sum_map_erase (fun x => if (F x).length = capacity q then 1 else 0) hs
          rw [if_pos hfull] at herase
          rw [update_self]
          omega
        · rw [if_neg fun hh => hq hh.1, emptyCount] at hq'
          rw [update_of_ne hq]
          omega
      · intro q
        rw [hst]
        exact hone q
      · intro q p
        constructor
        · rintro ⟨y, hy, hp, hfree⟩
          exact ⟨y, (hmemS.mp hy).1, hp, hfree⟩
        rintro ⟨y, hy, hp, hfree⟩
        refine ⟨y, hmemS.mpr ⟨hy, ?_⟩, hp, hfree⟩
        -- a slab whose objects are all free has none in use
        rintro rfl
        obtain rfl := h.class_unique hs hy
        have := hrep.length_lt hp hfree
        omega
    · have hcore : Core { st with empty := update st.empty c (st.empty c + 1) } S F P :=
        h.congr ⟨rfl, rfl, rfl, rfl⟩ rfl fun _ _ _ _ _ _ => rfl
      refine ⟨_, S, P, ?_, ⟨hcore, hlisted, ?_, ?_⟩, fun _ _ => Iff.rfl, fun hy => hy⟩
      · rw [release, if_pos hu, if_neg he]
      · intro q
        have hq' := hempty q
        by_cases hq : q = c
        · subst hq
          rw [if_pos ⟨rfl, hfull⟩] at hq'
          simpa only [update_self] using hq'
        · rw [if_neg fun hh => hq hh.1] at hq'
          simpa only [update_of_ne hq, add_zero] using hq'
      · exact (forall_update_iff st.empty fun _ n => n ≤ 1).mpr ⟨by omega, fun q _ => hone q⟩
  · refine ⟨st, S, P, ?_, ⟨h, hlisted, ?_, hone⟩, fun _ _ => Iff.rfl, fun hy => hy⟩
    · rw [release, if_neg hu]
    · intro q
      have hq' := hempty q
      rwa [if_neg fun hh => hu (by omega)] at hq'

/-- The checks of `free` let a used object pass, except for the one against double frees. -/
theorem free_eq (h : Inv st S F P) (hs : s ∈ S c) (ho : o ∈ objects s c) :
    st.free o c = if st.looksFree s o (classSize c) then some (.error .doubleFree, st)
      else (st.putBack c s o).bind fun st => (st.release c s).bind fun st => some (.ok (), st) := by
  have hc := h.core.classLt hs
  have hslab := object_slab hc (h.core.aligned hs) ho
  have hrep := h.core.rep hs
  obtain ⟨i, hi, he⟩ := mem_objects.mp ho
  have hoff : o - s = firstOffset c + i * classSize c := by omega
  have hheader : ¬ (s = 0 ∨ st.mem s ≠ headerMagic ∨ st.mem (s + classField) ≠ c) := by
    rintro (hz | hz | hz)
    · exact h.core.nonzero hs hz
    · exact hz hrep.magic
    · exact hz hrep.cls
  have hplace : ¬ (o - s < firstOffset c ∨ (o - s - firstOffset c) % classSize c ≠ 0) := by
    rw [hoff]
    have : (firstOffset c + i * classSize c - firstOffset c) % classSize c = 0 := by
      rw [Nat.add_sub_cancel_left, Nat.mul_mod_left]
    omega
  simp only [free, hslab, if_neg hheader, if_neg hplace]
  rfl

theorem Core.live_push (h : Core st S F P) (hs : s ∈ S c) (ho : o ∈ objects s c) (q p : Nat) :
    Live S (update F s (o :: F s)) q p ↔ Live S F q p ∧ ¬ (q = c ∧ p = o) := by
  constructor
  · rintro ⟨s', hs', hp, hfree⟩
    by_cases he : s' = s
    · subst he
      rw [update_self, mem_cons] at hfree
      exact ⟨⟨s', hs', hp, by tauto⟩, by tauto⟩
    · rw [update_of_ne he] at hfree
      refine ⟨⟨s', hs', hp, hfree⟩, ?_⟩
      rintro ⟨rfl, rfl⟩
      exact he (h.object_owner hs' hs hp ho).1
  · rintro ⟨⟨s', hs', hp, hfree⟩, hne⟩
    refine ⟨s', hs', hp, ?_⟩
    by_cases he : s' = s
    · subst he
      obtain rfl := h.class_unique hs hs'
      rw [update_self, mem_cons]
      tauto
    · rwa [update_of_ne he]

theorem free_spec (h : Inv st S F P) (hlive : Live S F c o) :
    st.free o c = some (.error .doubleFree, st) ∨
    ∃ st' S' F' P', st.free o c = some (.ok (), st') ∧ Inv st' S' F' P' ∧
      (∀ q p, Live S' F' q p ↔ Live S F q p ∧ ¬ (q = c ∧ p = o)) ∧
      ∀ {y q}, y ∈ S' q → y ∈ S q := by
  obtain ⟨s, hs, ho, hF⟩ := hlive
  rw [free_eq h hs ho]
  by_cases hlooks : st.looksFree s o (classSize c) = true
  · exact .inl (if_pos hlooks)
  right
  rw [if_neg hlooks]
  obtain ⟨st1, P1, hput, hcore, hlisted, hpages, hempty⟩ := putBack_spec h hs ho hF
  have := (h.core.rep hs).length_lt ho hF
  have hcount : ∀ q, st1.empty q + (if q = c ∧ (update F s (o :: F s) s).length = capacity c
      then 1 else 0) = emptyCount S (update F s (o :: F s)) q := by
    intro q
    rw [hempty, h.empty q, update_self]
    by_cases hq : q = c
    · subst hq
      have hup := emptyCount_update (F := F) (l := o :: F s) (h.core.nodup q) hs
      rw [if_neg (by omega)] at hup
      simp only [true_and]
      omega
    · rw [if_neg fun hh => hq hh.1, emptyCount_same fun hin => hq (h.core.class_unique hin hs)]
      rfl
  obtain ⟨st', S', P', hrel, hinv, hlive, hsub⟩ := release_spec hcore hs (by simp) hlisted hcount
    (by rw [hempty]; exact h.one)
  refine ⟨st', S', _, P', ?_, hinv, ?_, hsub⟩
  · rw [hput, Option.bind_some, hrel, Option.bind_some]
  · intro q p
    rw [hlive, h.core.live_push hs ho]

end Fastros.Alloc.Slabs
