import Fastros.Fs.Overlay
import Fastros.Fs.TmpfsTree

/-!
# The node tree of an overlay

The nodes that are reached from the root through the caches mirror the upper
layer: a cached child has the upper inode that its directory holds under its
name. Lookups and copying up only extend the two, and keep what they mirror.
-/

namespace Fastros.Overlay

open Fs Tmpfs Tmpfs.TmpFs Lib.Stateful Lib.Walk List State
open Function (update update_self update_of_ne update_idem update_apply)

/-- A name that stands for itself: no path component with a meaning of its own, and
not the mark of a hidden name. -/
def Plain (n : Name) : Prop := n ≠ dot ∧ n ≠ dotdot ∧ ¬ whPrefix <+: n

instance : DecidablePred Plain := fun _ => inferInstanceAs (Decidable (_ ∧ _ ∧ _))

theorem whiteoutName_inj {n m : Name} (h : whiteoutName n = whiteoutName m) : n = m :=
  append_cancel_left h

theorem Plain.ne_whiteout {n : Name} (h : Plain n) (m : Name) : n ≠ whiteoutName m := by
  rintro rfl
  exact h.2.2 (prefix_append whPrefix m)

variable {ι : Type} {L : LowerTree ι} {s s' s'' : State ι} {a c p : NodeId} {fs fs' : TmpFs}
  {kind : FileType} {lo lo' lower lower' : Option ι} {m n : Name} {up up' upper upper' : Option Ino}

/-- A lower tree whose names stand for themselves and whose files a tmpfs can hold. -/
structure LowerTree.Fits (L : LowerTree ι) : Prop where
  plain : ∀ i n, (L.entries i).lookup n ≠ none → Plain n
  small : ∀ i, L.kind i = .regular → (L.data i).length ≤ maxOffset

/-- What a lower inode shows: its kind, and its contents or its target. -/
def LowerTree.shown (L : LowerTree ι) (j : ι) : FileType × List UInt8 :=
  (L.kind j, if L.kind j = .regular ∨ L.kind j = .symlink then L.data j else [])

/-- The cached child. -/
def State.kid (s : State ι) (p : NodeId) (n : Name) : Option NodeId := (s.nodes p).children.lookup n

/-- The node a path of cached names leads to. -/
def State.nodeAt (s : State ι) (q : List Name) : Option NodeId := walk s.kid rootId q

/-- The node is still in the tree. -/
def State.Attached (s : State ι) (c : NodeId) : Prop := ∃ q, s.nodeAt q = some c

theorem attached_root : s.Attached rootId := ⟨[], rfl⟩

theorem State.Attached.kid (h : s.Attached p) (hc : s.kid p n = some c) : s.Attached c := by
  obtain ⟨q, hq⟩ := h
  exact ⟨q ++ [n], walk_snoc.mpr ⟨p, hq, hc⟩⟩

/-- What two versions of a node have in common. -/
structure Kept (x y : Node ι) : Prop where
  lower : y.lower = x.lower
  parent : y.parent = x.parent
  name : y.name = x.name
  kind : y.kind = x.kind

theorem Kept.refl (x : Node ι) : Kept x x := ⟨rfl, rfl, rfl, rfl⟩

theorem Kept.trans {x y z : Node ι} (h : Kept x y) (h' : Kept y z) : Kept x z :=
  ⟨h'.lower.trans h.lower, h'.parent.trans h.parent, h'.name.trans h.name, h'.kind.trans h.kind⟩

section

theorem node_self (x : Node ι) : (s.setNode c x).nodes c = x := update_self ..

theorem node_ne (x : Node ι) (h : a ≠ c) : (s.setNode c x).nodes a = s.nodes a := update_of_ne h ..

theorem addNode_new : (s.addNode p n lower upper kind).nodes s.next = ⟨lower, upper, some p, n, kind, ∅⟩ :=
  update_self ..

theorem addNode_old (hc : c ≠ s.next) :
    (s.addNode p n lower upper kind).nodes c =
      if c = p then { s.nodes p with children := (s.nodes p).children.insert n s.next }
      else s.nodes c := by
  show update _ s.next _ c = _
  rw [update_of_ne hc]
  exact update_apply ..

theorem addNode_kept (hc : c ≠ s.next) :
    Kept (s.nodes c) ((s.addNode p n lower upper kind).nodes c) := by
  rw [addNode_old hc]
  split
  · rename_i h
    rw [h]
    exact ⟨rfl, rfl, rfl, rfl⟩
  · exact .refl _

theorem addNode_upper (hc : c ≠ s.next) :
    ((s.addNode p n lower upper kind).nodes c).upper = (s.nodes c).upper := by
  rw [addNode_old hc]
  split
  · rename_i h
    rw [h]
  · rfl

theorem addNode_kid_new : (s.addNode p n lower upper kind).kid s.next m = none := by
  rw [kid, addNode_new]
  exact AList.lookup_empty m

theorem addNode_kid_self (hp : p ≠ s.next) :
    (s.addNode p n lower upper kind).kid p n = some s.next := by
  rw [kid, addNode_old hp, if_pos rfl]
  exact AList.lookup_insert _

theorem addNode_kid_ne (ha : a ≠ s.next) (h : ¬ (a = p ∧ m = n)) :
    (s.addNode p n lower upper kind).kid a m = s.kid a m := by
  rw [kid, addNode_old ha]
  split
  · rename_i hap
    subst hap
    have hm : m ≠ n := fun hm => h ⟨rfl, hm⟩
    exact AList.lookup_insert_ne hm
  · rfl

variable {u : Ino}

theorem setUpper_kept (a : NodeId) : Kept (s.nodes a) ((s.setUpper c u).nodes a) := by
  by_cases h : a = c
  · subst h
    rw [setUpper, node_self]
    exact ⟨rfl, rfl, rfl, rfl⟩
  · rw [setUpper, node_ne _ h]
    exact .refl _

theorem setUpper_self : ((s.setUpper c u).nodes c).upper = some u := by
  rw [setUpper, node_self]

theorem setUpper_ne (h : a ≠ c) : ((s.setUpper c u).nodes a).upper = (s.nodes a).upper := by
  rw [setUpper, node_ne _ h]

theorem setUpper_kid : (s.setUpper c u).kid = s.kid := by
  funext a m
  rw [kid, kid]
  by_cases h : a = c
  · subst h
    rw [setUpper, node_self]
  · rw [setUpper, node_ne _ h]

theorem forget_kept (a : NodeId) : Kept (s.nodes a) ((s.forget p n).nodes a) := by
  by_cases h : a = p
  · subst h
    rw [forget, node_self]
    exact ⟨rfl, rfl, rfl, rfl⟩
  · rw [forget, node_ne _ h]
    exact .refl _

theorem forget_upper (a : NodeId) : ((s.forget p n).nodes a).upper = (s.nodes a).upper := by
  by_cases h : a = p
  · subst h
    rw [forget, node_self]
  · rw [forget, node_ne _ h]

theorem forget_kid_self : (s.forget p n).kid p n = none := by
  rw [kid, forget, node_self]
  exact AList.lookup_erase _ _

theorem forget_kid_ne (h : ¬ (a = p ∧ m = n)) : (s.forget p n).kid a m = s.kid a m := by
  rw [kid, kid]
  by_cases hap : a = p
  · subst hap
    have hm : m ≠ n := fun hm => h ⟨rfl, hm⟩
    rw [forget, node_self]
    exact AList.lookup_erase_ne hm
  · rw [forget, node_ne _ hap]

theorem kid_of_forget (h : (s.forget p n).kid a m = some c) : s.kid a m = some c := by
  by_cases hap : a = p ∧ m = n
  · obtain ⟨rfl, rfl⟩ := hap
    rw [forget_kid_self] at h
    cases h
  · rwa [forget_kid_ne hap] at h

theorem attached_of_forget (h : (s.forget p n).Attached c) : s.Attached c := by
  obtain ⟨q, hq⟩ := h
  exact ⟨q, walk_mono (fun _ _ _ => kid_of_forget) hq⟩

theorem addNode_forget : (s.forget p n).addNode p n lower upper kind = s.addNode p n lower upper kind := by
  have hins : ((s.nodes p).children.erase n).insert n s.next = (s.nodes p).children.insert n s.next := by
    apply AList.ext
    simp only [AList.insert, AList.erase, kinsert]
    rw [kerase_of_notMem_keys]
    exact notMem_keys_kerase n (s.nodes p).children.nodupKeys
  simp only [State.addNode, State.forget, State.setNode, update_self, update_idem, hins]

end

/-- The layers of a child against those of its directory. -/
structure Mirrors (L : LowerTree ι) (fs : TmpFs) (lo : Option ι) (up : Option Ino) (n : Name)
    (lo' : Option ι) (up' : Option Ino) : Prop where
  upper : up' = upperEntry fs up n
  lower : ∀ j, lo' = some j → lowerEntry L lo n = some j
  /-- A child without an upper inode shows the lower one, which nothing hides. -/
  bare : up' = none → upperEntry fs up (whiteoutName n) = none ∧ lo' ≠ none

theorem merge_some (h : merge L fs lower upper n = some (kind, lower', upper')) :
    Mirrors L fs lower upper n lower' upper' ∧ (∀ v, upper' = some v → fs.kind v = kind) ∧
      ∀ j, lower' = some j → L.kind j = kind := by
  unfold merge at h
  cases hu : upperEntry fs upper n with
  | some v =>
    cases hl : (if (upperEntry fs upper (whiteoutName n)).isSome then none
        else lowerEntry L lower n) with
    | some j =>
      have hj : lowerEntry L lower n = some j := by
        split at hl
        · cases hl
        · exact hl
      simp only [hu, hl] at h
      split at h
      · rename_i hk
        cases h
        exact ⟨⟨hu.symm, fun i hi => by cases hi; exact hj, nofun⟩,
          fun w hw => by cases hw; exact hk.1, fun i hi => by cases hi; exact hk.2⟩
      · cases h
        exact ⟨⟨hu.symm, nofun, nofun⟩, fun w hw => by cases hw; rfl, nofun⟩
    | none =>
      simp only [hu, hl] at h
      cases h
      exact ⟨⟨hu.symm, nofun, nofun⟩, fun w hw => by cases hw; rfl, nofun⟩
  | none =>
    by_cases hw : (upperEntry fs upper (whiteoutName n)).isSome = true
    · simp only [hu, hw, if_true] at h
      cases h
    cases hl : lowerEntry L lower n with
    | none => simp [hu, hw, hl] at h
    | some j =>
      simp only [hu, hw, hl] at h
      cases h
      refine ⟨⟨hu.symm, fun i hi => by cases hi; exact hl, fun _ => ⟨?_, nofun⟩⟩, nofun,
        fun i hi => by cases hi; rfl⟩
      simpa using hw

/-- The tree of nodes fits the two layers. -/
structure Coherent (L : LowerTree ι) (s : State ι) : Prop where
  sound : s.upper.Sound
  started : rootId < s.next
  root_upper : (s.nodes rootId).upper = some rootIno
  root_lower : (s.nodes rootId).lower = some L.root
  root_kind : (s.nodes rootId).kind = .directory
  linked : ∀ {p n c}, s.kid p n = some c →
    (s.nodes c).parent = some p ∧ (s.nodes c).name = n ∧ p < c ∧ c < s.next ∧ Plain n
  upper_kind : ∀ {c v}, (s.nodes c).upper = some v →
    v < s.upper.nextIno ∧ s.upper.kind v = (s.nodes c).kind
  lower_kind : ∀ {c j}, (s.nodes c).lower = some j → L.kind j = (s.nodes c).kind
  mirror : ∀ {p n c}, s.Attached p → s.kid p n = some c →
    Mirrors L s.upper (s.nodes p).lower (s.nodes p).upper n (s.nodes c).lower (s.nodes c).upper

theorem coherent_mount (h : fs.Sound) : Coherent L (mount L fs) := by
  have hkid : ∀ {p n c}, ¬ (mount L fs).kid p n = some c := by
    intro p n c hc
    cases hc
  refine ⟨h, Nat.zero_lt_one, rfl, rfl, rfl, fun hc => absurd hc hkid, ?_, ?_,
    fun _ hc => absurd hc hkid⟩
  · intro c v hv
    cases hv
    exact ⟨h.made h.root, h.root⟩
  · intro c j hj
    cases hj
    exact L.root_dir

namespace Coherent

variable {p p' c : NodeId} {n : Name} {u : Ino} {q q' : List Name} (h : Coherent L s)
include h

/-- A path of nodes is a path of the upper layer, as far as that goes. -/
theorem upper_at (hq : s.nodeAt q = some c) : (s.nodes c).upper = walk s.upper.entry rootIno q := by
  induction q using reverseRecOn generalizing c with
  | nil =>
    cases hq
    exact h.root_upper
  | append_singleton q n ih =>
    obtain ⟨p, hp, hc⟩ := walk_snoc.mp hq
    rw [(h.mirror ⟨q, hp⟩ hc).upper, ih hp, walk_concat]
    rfl

/-- A node knows its parent and its name, so one path leads to it. -/
theorem nodeAt_unique (hq : s.nodeAt q = some c) (hq' : s.nodeAt q' = some c) : q = q' := by
  have hforest : Forest s.kid rootId fun _ => True := by
    refine ⟨fun _ => trivial, fun _ hp hp' => ?_, fun hr => ?_⟩
    · obtain ⟨hpar, hname, -⟩ := h.linked hp
      obtain ⟨hpar', hname', -⟩ := h.linked hp'
      exact ⟨Option.mem_unique hpar hpar', hname.symm.trans hname'⟩
    · exact Nat.not_lt_zero _ (h.linked hr).2.2.1
  exact hforest.unique trivial hq hq'

theorem path_unique (hq : s.nodeAt q = some p)
    (hq' : s.nodeAt q' = some p') (hu : (s.nodes p).upper = some u)
    (hu' : (s.nodes p').upper = some u) (hd : s.upper.kind u = .directory) : q = q' := by
  rw [h.upper_at hq] at hu
  rw [h.upper_at hq'] at hu'
  exact h.sound.forest.unique hd hu hu'

/-- A directory of the upper layer belongs to one node of the tree. -/
theorem node_unique (hp : s.Attached p) (hp' : s.Attached p')
    (hu : (s.nodes p).upper = some u) (hu' : (s.nodes p').upper = some u)
    (hd : s.upper.kind u = .directory) : p = p' := by
  obtain ⟨q, hq⟩ := hp
  obtain ⟨q', hq'⟩ := hp'
  rw [h.path_unique hq hq' hu hu' hd, hq'] at hq
  exact (Option.some.inj hq).symm

theorem lt_next (hc : s.Attached c) : c < s.next := by
  obtain ⟨q, hq⟩ := hc
  cases q using reverseRecOn with
  | nil =>
    cases hq
    exact h.started
  | append_singleton q n =>
    obtain ⟨p, -, hc⟩ := walk_snoc.mp hq
    exact (h.linked hc).2.2.2.1

theorem parent_of (hc : s.Attached c) (hr : c ≠ rootId) :
    ∃ p, s.Attached p ∧ (s.nodes c).parent = some p ∧ s.kid p (s.nodes c).name = some c := by
  obtain ⟨q, hq⟩ := hc
  cases q using reverseRecOn with
  | nil =>
    cases hq
    exact absurd rfl hr
  | append_singleton q n =>
    obtain ⟨p, hp, hc⟩ := walk_snoc.mp hq
    obtain ⟨hpar, hname, -⟩ := h.linked hc
    exact ⟨p, ⟨q, hp⟩, hpar, hname ▸ hc⟩

theorem ne_root_of_bare (hu : (s.nodes c).upper = none) : c ≠ rootId := by
  rintro rfl
  rw [h.root_upper] at hu
  cases hu

/-- A directory that shows a lower child has a lower directory. -/
theorem kind_of_bare (hp : s.Attached p) (hc : s.kid p n = some c)
    (hu : (s.nodes c).upper = none) : (s.nodes p).kind = .directory := by
  have hm := h.mirror hp hc
  obtain ⟨j, hj⟩ := Option.ne_none_iff_exists'.mp (hm.bare hu).2
  obtain ⟨i, hi, hl⟩ := Option.bind_eq_some_iff.mp (hm.lower j hj)
  rw [← h.lower_kind hi]
  exact L.only_dirs i n (by rw [hl]; nofun)

end Coherent

/-- The upper layer got a new inode under a free name that shows what the lower
inode `j` shows. -/
structure Twin (L : LowerTree ι) (fs fs' : TmpFs) (u : Ino) (n : Name) (j : ι) : Prop where
  changes : Changes fs fs' u n
  dir : fs.kind u = .directory
  free : fs.entry u n = none
  entry : fs'.entry u n = some fs.nextIno
  bare : ∀ k, fs'.entry fs.nextIno k = none
  shown : fs'.shown fs.nextIno = L.shown j

/-- What lookups and copying up do to the state. -/
inductive Edit (L : LowerTree ι) (s : State ι) : State ι → Prop
  | cache {p n kind lower upper : _} (hp : p < s.next) (hn : Plain n) (hfree : s.kid p n = none)
      (hm : merge L s.upper (s.nodes p).lower (s.nodes p).upper n = some (kind, lower, upper)) :
      Edit L s (s.addNode p n lower upper kind)
  | copy {p n c u j fs' : _} (hp : s.Attached p) (hc : s.kid p n = some c)
      (hbare : (s.nodes c).upper = none) (hj : (s.nodes c).lower = some j)
      (hu : (s.nodes p).upper = some u) (ht : Twin L s.upper fs' u n j) :
      Edit L s (({ s with upper := fs' } : State ι).setUpper c s.upper.nextIno)

/-- The state after such a copy. -/
abbrev State.copied (s : State ι) (fs' : TmpFs) (c : NodeId) : State ι :=
  ({ s with upper := fs' } : State ι).setUpper c s.upper.nextIno

/-- Nothing that was there is lost. -/
structure Grows (s s' : State ι) : Prop where
  next : s.next ≤ s'.next
  kept : ∀ {c}, c < s.next → Kept (s.nodes c) (s'.nodes c)
  upper : ∀ {c u}, c < s.next → (s.nodes c).upper = some u → (s'.nodes c).upper = some u
  kid : ∀ {p n c}, s.kid p n = some c → s'.kid p n = some c

theorem Grows.refl (s : State ι) : Grows s s := ⟨le_rfl, fun _ => .refl _, fun _ => id, id⟩

theorem Grows.trans (h : Grows s s') (h' : Grows s' s'') : Grows s s'' :=
  ⟨le_trans h.next h'.next,
    fun hc => (h.kept hc).trans (h'.kept (lt_of_lt_of_le hc h.next)),
    fun hc hu => h'.upper (lt_of_lt_of_le hc h.next) (h.upper hc hu),
    fun hc => h'.kid (h.kid hc)⟩

theorem Grows.nodeAt (h : Grows s s') {q : List Name} (hq : s.nodeAt q = some c) :
    s'.nodeAt q = some c :=
  walk_mono (fun _ _ _ => h.kid) hq

theorem Grows.attached (h : Grows s s') (hc : s.Attached c) : s'.Attached c := by
  obtain ⟨q, hq⟩ := hc
  exact ⟨q, h.nodeAt hq⟩

/-- The edges of the new tree: the old ones and the one to the new node. -/
theorem addNode_kid_cases (hp : p < s.next) (hc : (s.addNode p n lower upper kind).kid a m = some c) :
    (a = p ∧ m = n ∧ c = s.next) ∨ s.kid a m = some c := by
  by_cases ha : a = s.next
  · rw [ha, addNode_kid_new] at hc
    cases hc
  by_cases hap : a = p ∧ m = n
  · obtain ⟨rfl, rfl⟩ := hap
    rw [addNode_kid_self (ne_of_lt hp)] at hc
    exact .inl ⟨rfl, rfl, (Option.some.inj hc).symm⟩
  · rw [addNode_kid_ne ha hap] at hc
    exact .inr hc

theorem attached_of_addNode (hp : p < s.next) (hc : (s.addNode p n lower upper kind).Attached c) :
    s.Attached c ∨ c = s.next := by
  obtain ⟨q, hq⟩ := hc
  refine (walk_dead_end (fun a m b hb => ?_) (fun _ => addNode_kid_new) hq).imp (fun h => ⟨q, h⟩) id
  exact (addNode_kid_cases hp hb).symm.imp_right fun h => h.2.2

theorem Edit.grows (hC : Coherent L s) (h : Edit L s s') : Grows s s' := by
  cases h with
  | cache hp hn hfree hm =>
    refine ⟨Nat.le_succ _, fun hc => addNode_kept (ne_of_lt hc), fun hc hu => ?_, ?_⟩
    · rw [addNode_upper (ne_of_lt hc), hu]
    intro a m c hc
    obtain ⟨-, -, hac, hcn, -⟩ := hC.linked hc
    rw [addNode_kid_ne (ne_of_lt (lt_trans hac hcn)) ?_, hc]
    rintro ⟨rfl, rfl⟩
    rw [hfree] at hc
    cases hc
  | @copy p n c u j fs' hp hc hbare hj hu ht =>
    refine ⟨le_rfl, fun _ => setUpper_kept _, fun {a v} _ hv => ?_, fun hk => ?_⟩
    · have hne : a ≠ c := by
        rintro rfl
        rw [hbare] at hv
        cases hv
      rw [setUpper_ne hne]
      exact hv
    · rw [setUpper_kid]
      exact hk

theorem coherent_addNode (hC : Coherent L s) (hp : p < s.next) (hn : Plain n)
    (hm : Mirrors L s.upper (s.nodes p).lower (s.nodes p).upper n lower upper)
    (hup : ∀ v, upper = some v → s.upper.kind v = kind)
    (hlo : ∀ j, lower = some j → L.kind j = kind) :
    Coherent L (s.addNode p n lower upper kind) := by
  have hpne : p ≠ s.next := ne_of_lt hp
  have hr : rootId ≠ s.next := ne_of_lt hC.started
  refine ⟨hC.sound, Nat.lt_succ_of_lt hC.started, ?_, ?_, ?_, ?_, ?_, ?_, ?_⟩
  · rw [addNode_upper hr, hC.root_upper]
  · rw [(addNode_kept hr).lower, hC.root_lower]
  · rw [(addNode_kept hr).kind, hC.root_kind]
  · intro a m c hc
    rcases addNode_kid_cases hp hc with ⟨rfl, rfl, rfl⟩ | hc
    · rw [addNode_new]
      exact ⟨rfl, rfl, hp, Nat.lt_succ_self _, hn⟩
    obtain ⟨hpar, hname, hac, hcn, hm'⟩ := hC.linked hc
    have hne : c ≠ s.next := ne_of_lt hcn
    rw [(addNode_kept hne).parent, (addNode_kept hne).name]
    exact ⟨hpar, hname, hac, Nat.lt_succ_of_lt hcn, hm'⟩
  · intro c v hv
    by_cases hc : c = s.next
    · subst hc
      rw [addNode_new] at hv ⊢
      refine ⟨?_, hup v hv⟩
      obtain ⟨u, -, he⟩ := Option.bind_eq_some_iff.mp (hm.upper.symm.trans hv)
      exact hC.sound.held he
    · rw [addNode_upper hc] at hv
      rw [(addNode_kept hc).kind]
      exact hC.upper_kind hv
  · intro c j hj
    by_cases hc : c = s.next
    · subst hc
      rw [addNode_new] at hj ⊢
      exact hlo j hj
    · rw [(addNode_kept hc).lower] at hj
      rw [(addNode_kept hc).kind]
      exact hC.lower_kind hj
  · intro a m c ha hc
    rcases addNode_kid_cases hp hc with ⟨rfl, rfl, rfl⟩ | hc
    · rw [addNode_new, addNode_upper hpne, (addNode_kept hpne).lower]
      exact hm
    obtain ⟨-, -, hac, hcn, -⟩ := hC.linked hc
    have hne : c ≠ s.next := ne_of_lt hcn
    have hane : a ≠ s.next := ne_of_lt (lt_trans hac hcn)
    have ha' : s.Attached a := (attached_of_addNode hp ha).resolve_right hane
    rw [addNode_upper hne, (addNode_kept hne).lower, addNode_upper hane, (addNode_kept hane).lower]
    exact hC.mirror ha' hc

/-- Entries that differ leave a child's view alone unless they are about its name. -/
theorem Mirrors.congr
    (h : Mirrors L fs lo up n lo' up') (he : upperEntry fs' up n = upperEntry fs up n)
    (hw : up' = none → upperEntry fs' up (whiteoutName n) = upperEntry fs up (whiteoutName n)) :
    Mirrors L fs' lo up n lo' up' :=
  ⟨h.upper.trans he.symm, h.lower, fun hb => ⟨(hw hb).trans (h.bare hb).1, (h.bare hb).2⟩⟩

theorem coherent_copy (hC : Coherent L s) {u : Ino} {j : ι}
    (hp : s.Attached p) (hc : s.kid p n = some c) (hbare : (s.nodes c).upper = none)
    (hj : (s.nodes c).lower = some j) (hu : (s.nodes p).upper = some u)
    (ht : Twin L s.upper fs' u n j) : Coherent L (s.copied fs' c) := by
  have hroot : rootId ≠ c := (hC.ne_root_of_bare hbare).symm
  have hkind : ∀ {v}, v < s.upper.nextIno → fs'.kind v = s.upper.kind v := ht.changes.kind
  refine ⟨ht.changes.sound, hC.started, ?_, ?_, ?_, ?_, ?_, ?_, ?_⟩
  · rw [setUpper_ne hroot]
    exact hC.root_upper
  · rw [(setUpper_kept _).lower]
    exact hC.root_lower
  · rw [(setUpper_kept _).kind]
    exact hC.root_kind
  · intro a m b hb
    rw [setUpper_kid] at hb
    rw [(setUpper_kept _).parent, (setUpper_kept _).name]
    exact hC.linked hb
  · intro a v hv
    rw [(setUpper_kept _).kind]
    by_cases ha : a = c
    · subst ha
      rw [setUpper_self] at hv
      cases hv
      refine ⟨ht.changes.sound.held ht.entry, ?_⟩
      exact (congrArg Prod.fst ht.shown).trans (hC.lower_kind hj)
    · rw [setUpper_ne ha] at hv
      obtain ⟨hlt, hk⟩ := hC.upper_kind hv
      exact ⟨lt_of_lt_of_le hlt ht.changes.next, (hkind hlt).trans hk⟩
  · intro a i hi
    rw [(setUpper_kept _).lower] at hi
    rw [(setUpper_kept _).kind]
    exact hC.lower_kind hi
  · rintro a m b ⟨q, hq⟩ hb
    rw [nodeAt, setUpper_kid] at hq
    rw [setUpper_kid] at hb
    have ha : s.Attached a := ⟨q, hq⟩
    have hm : Mirrors L s.upper (s.nodes a).lower (s.nodes a).upper m (s.nodes b).lower
      (s.nodes b).upper := hC.mirror ha hb
    rw [(setUpper_kept _).lower, (setUpper_kept _).lower]
    obtain ⟨hpar, hname, hlt, -, hplain⟩ := hC.linked hc
    by_cases hbc : b = c
    · -- the copied node: its directory now holds the new inode
      subst hbc
      obtain ⟨hpar', hname', hlt', -⟩ := hC.linked hb
      obtain rfl : a = p := Option.mem_unique hpar' hpar
      obtain rfl : m = n := hname'.symm.trans hname
      rw [setUpper_self, setUpper_ne (ne_of_lt hlt), hu]
      exact ⟨ht.entry.symm, hm.lower, nofun⟩
    rw [setUpper_ne hbc]
    by_cases hac : a = c
    · -- its children: the new directory is empty
      subst hac
      rw [hbare] at hm
      rw [setUpper_self]
      exact ⟨hm.upper.trans (ht.bare m).symm, hm.lower, fun hb => ⟨ht.bare _, (hm.bare hb).2⟩⟩
    rw [setUpper_ne hac]
    have hentry : ∀ k, k = m ∨ k = whiteoutName m →
        upperEntry fs' (s.nodes a).upper k = upperEntry s.upper (s.nodes a).upper k := by
      intro k hk
      cases hw : (s.nodes a).upper with
      | none => rfl
      | some w =>
        refine ht.changes.entry w k ?_
        rintro ⟨rfl, rfl⟩
        rcases hk with rfl | hk
        · have hap : a = p := hC.node_unique ha hp hw hu ht.dir
          subst hap
          exact hbc (Option.mem_unique hb hc)
        · exact hplain.ne_whiteout m hk
    exact hm.congr (hentry m (.inl rfl)) fun _ => hentry _ (.inr rfl)

theorem Edit.coherent (hC : Coherent L s) (h : Edit L s s') : Coherent L s' := by
  cases h with
  | cache hp hn hfree hm =>
    obtain ⟨hmir, hup, hlo⟩ := merge_some hm
    exact coherent_addNode hC hp hn hmir hup hlo
  | copy hp hc hbare hj hu ht => exact coherent_copy hC hp hc hbare hj hu ht

/-- Any number of lookups and copies. -/
def Grew (L : LowerTree ι) : State ι → State ι → Prop := Relation.ReflTransGen (Edit L)

theorem Grew.refl (s : State ι) : Grew L s s := Relation.ReflTransGen.refl

theorem Grew.trans (h : Grew L s s') (h' : Grew L s' s'') : Grew L s s'' :=
  Relation.ReflTransGen.trans h h'

theorem Edit.grew (h : Edit L s s') : Grew L s s' := Relation.ReflTransGen.single h

/-- What every edit of a coherent state keeps is kept by all of them. -/
theorem Grew.keeps {P : State ι → Prop} (hP : ∀ t t', Coherent L t → P t → Edit L t t' → P t')
    (hC : Coherent L s) (hs : P s) (h : Grew L s s') : P s' := by
  have hboth : Coherent L s' ∧ P s' := by
    induction h with
    | refl => exact ⟨hC, hs⟩
    | tail _ he ih => exact ⟨he.coherent ih.1, hP _ _ ih.1 ih.2 he⟩
  exact hboth.2

theorem Grew.coherent (h : Grew L s s') (hC : Coherent L s) : Coherent L s' :=
  h.keeps (fun _ _ ht _ he => he.coherent ht) hC hC

theorem Grew.grows (h : Grew L s s') (hC : Coherent L s) : Grows s s' :=
  h.keeps (fun _ _ ht hg he => hg.trans (he.grows ht)) hC (.refl s)

end Fastros.Overlay
