import Fastros.Fs.OverlayRemoval

/-!
# The cache of an overlay

A cached directory should have the layers that a lookup without the cache would
merge. Where that holds of every cached directory, the live tree shows what a new
overlay over the same two layers shows.
-/

namespace Fastros.Overlay

open Fs Tmpfs Tmpfs.TmpFs Lib.Stateful Lib.Walk Lib.Run State

variable {ι : Type} {L : LowerTree ι} {s s' s1 : State ι} {x y : Pos ι} {p c d e : NodeId}
  {n m : Name} {u w : Ino} {fs fs' : TmpFs} {q : List Name}

/-- Cached directories are what merging gives. -/
def Transparent (L : LowerTree ι) (s : State ι) : Prop :=
  ∀ ⦃p n c⦄, s.Attached p → s.kid p n = some c → (s.nodes c).kind = .directory →
    merge L s.upper (s.nodes p).lower (s.nodes p).upper n =
      some (.directory, (s.nodes c).lower, (s.nodes c).upper)

/-- The same layers, but for the lower one of what is no directory. -/
def SameLayers (s t : State ι) (x y : Pos ι) : Prop :=
  t.upperAt y = s.upperAt x ∧
    (t.lowerAt y = s.lowerAt x ∨ ∃ v, s.upperAt x = some v ∧ s.upper.kind v ≠ .directory)

variable {a d' t : NodeId} {kind : FileType} {lo lower : Option ι} {u' v : Ino}

/-- A position without a directory has nothing below. -/
theorem Coherent.leaf (hC : Coherent L s) (hx : find L s q = some x)
    (hv : s.upperAt x = some v) (hk : s.upper.kind v ≠ .directory) (n : Name) :
    look L s x n = none := by
  obtain ⟨k, hup, hlo, -⟩ := hC.kind_find hx
  have hkv := (hup v hv).2
  by_contra hne
  rcases (look_ne_none hC hx).mp hne with hu | ⟨-, hl⟩
  · obtain ⟨w, hw⟩ := Option.ne_none_iff_exists'.mp hu
    rw [hv] at hw
    exact hk (hC.sound.forest.inner hw)
  obtain ⟨j, hj⟩ := Option.ne_none_iff_exists'.mp hl
  obtain ⟨i, hi, he⟩ := Option.bind_eq_some_iff.mp hj
  have hdir := L.only_dirs i n (by rw [he]; nofun)
  rw [hkv, ← hlo i hi] at hk
  exact hk hdir

theorem mount_kidAt (fs : TmpFs) (y : Pos ι) (n : Name) : (mount L fs).kidAt y n = none := by
  cases y with
  | node c =>
    show AList.lookup n (∅ : AList fun _ : Name => NodeId) = none
    exact AList.lookup_empty n
  | layers lo up => rfl

/-- One name further in both trees. -/
theorem SameLayers.look (hC : Coherent L s) (hT : Transparent L s) (hx : find L s q = some x)
    (hy : find L (mount L s.upper) q = some y) (h : SameLayers s (mount L s.upper) x y) (n : Name) :
    Option.Rel (SameLayers s (mount L s.upper)) (look L s x n)
      (Overlay.look L (mount L s.upper) y n) := by
  have hM : Coherent L (mount L s.upper) := coherent_mount hC.sound
  obtain ⟨hupper, hlower | ⟨v, hv, hk⟩⟩ := h
  · -- the same layers: the new tree merges them
    have hmerge : Overlay.look L (mount L s.upper) y n = mergeAt L s x n := by
      rw [look_uncached (mount_kidAt s.upper y n), mergeAt, mergeAt, hupper, hlower]
      rfl
    rw [hmerge]
    cases hkid : s.kidAt x n with
    | none =>
      rw [look_uncached hkid]
      refine rel_refl fun z hz => ?_
      obtain ⟨-, lo, up, -, rfl⟩ := mergeAt_some hz
      exact ⟨rfl, .inl rfl⟩
    | some c =>
      have hlook : Overlay.look L s x n = some (.node c) := look_cached hkid
      have hvis : mergeAt L s x n ≠ none := by
        rw [mergeAt, ne_eq, Option.map_eq_none_iff, ← ne_eq, merge_ne_none, ← look_ne_none hC hx, hlook]
        exact Option.some_ne_none _
      obtain ⟨z, hz⟩ := Option.ne_none_iff_exists'.mp hvis
      rw [hlook, hz]
      obtain ⟨k, lo, up, hm, rfl⟩ := mergeAt_some hz
      obtain ⟨hmir, hup, -⟩ := merge_some hm
      have hmir' := hC.mirror_look hx hlook
      have hsame : up = (s.nodes c).upper := hmir.upper.trans hmir'.upper.symm
      refine .some ⟨hsame, ?_⟩
      cases hu : (s.nodes c).upper with
      | none =>
        -- only the lower layer has it, under the same name
        left
        rw [hu] at hsame
        obtain ⟨j, hj⟩ := Option.ne_none_iff_exists'.mp (hmir.bare hsame).2
        obtain ⟨j', hj'⟩ := Option.ne_none_iff_exists'.mp (hmir'.bare hu).2
        have hjj := (hmir.lower j hj).symm.trans (hmir'.lower j' hj')
        exact hj.trans (hjj.trans hj'.symm)
      | some v =>
        by_cases hdir : (s.nodes c).kind = .directory
        · left
          cases x with
          | layers _ _ => cases hkid
          | node p =>
            have ht := hT ⟨q, nodeAt_find hx⟩ hkid hdir
            rw [lowerAt, upperAt, ht] at hm
            cases hm
            rfl
        · exact .inr ⟨v, hu, by rw [(hC.upper_kind hu).2]; exact hdir⟩
  · -- no directory: nothing below in either tree
    rw [hC.leaf hx hv hk n, hM.leaf hy (hupper.trans hv) hk n]
    exact .none

theorem same_layers (hC : Coherent L s) (hT : Transparent L s) (q : List Name) :
    Option.Rel (SameLayers s (mount L s.upper)) (find L s q) (find L (mount L s.upper) q) := by
  have hroot : SameLayers s (mount L s.upper) (.node rootId) (.node rootId) :=
    ⟨hC.root_upper.symm, .inl hC.root_lower.symm⟩
  exact walk_rel (R := fun _ => SameLayers s (mount L s.upper))
    (fun _ _ _ => trivial) hroot (fun w x y n hx hy hxy _ => hxy.look hC hT hx hy n) q trivial

theorem SameLayers.shownAt (h : SameLayers s (mount L s.upper) x y) :
    shownAt L s x = Overlay.shownAt L (mount L s.upper) y := by
  obtain ⟨hupper, hlower⟩ := h
  unfold Overlay.shownAt
  rw [hupper]
  cases hv : s.upperAt x with
  | some v => rfl
  | none =>
    rcases hlower with hlower | ⟨v, hv', -⟩
    · rw [hlower]
      cases s.lowerAt x <;> rfl
    · rw [hv] at hv'
      cases hv'

/-- Reading what is no directory fails, whatever the lower layer. -/
theorem listing_file (h : fs.kind u ≠ .directory) : listing L fs lo (some u) = .error .enotdir := by
  have hread : fs.readdir u = .error .enotdir := by
    unfold TmpFs.readdir
    cases hd : (fs.inodes u).data with
    | dir es => exact absurd (kind_directory.mpr ⟨es, hd⟩) h
    | _ => rfl
  simp only [listing, hread, bind, Except.bind]

theorem SameLayers.listing (h : SameLayers s (mount L s.upper) x y) :
    listing L s.upper (s.lowerAt x) (s.upperAt x) =
      Overlay.listing L s.upper ((mount L s.upper).lowerAt y) ((mount L s.upper).upperAt y) := by
  obtain ⟨hupper, hlower | ⟨v, hv, hk⟩⟩ := h
  · rw [hupper, hlower]
  · rw [hupper, hv, listing_file hk, listing_file hk]

section

variable (hC : Coherent L s)
include hC

section

variable (hT : Transparent L s)
include hT

/-- A transparent cache shows what the layers show. -/
theorem Transparent.same (hq : ∀ n ∈ q, Plain n) :
    shows L s q = shows L (mount L s.upper) q ∧ lists L s q = lists L (mount L s.upper) q := by
  have hM : Coherent L (mount L s.upper) := coherent_mount hC.sound
  have hrel := same_layers hC hT q
  constructor
  · rw [shows_eq_view hC hq, shows_eq_view hM hq]
    exact rel_bind hrel fun x y _ hxy => hxy.shownAt
  · rw [lists_eq hC hq, lists_eq hM hq, Option.map_eq_bind, Option.map_eq_bind]
    exact rel_bind hrel fun x y _ hxy => congrArg some hxy.listing

theorem transparent_addNode
    {upper : Option Ino} (hp : p < s.next)
    (hm : kind = .directory → merge L s.upper (s.nodes p).lower (s.nodes p).upper n =
      some (.directory, lower, upper)) : Transparent L (s.addNode p n lower upper kind) := by
  intro a m c ha hc hk
  have hpn : p ≠ s.next := ne_of_lt hp
  rcases addNode_kid_cases hp hc with ⟨rfl, rfl, rfl⟩ | hc
  · rw [addNode_new] at hk ⊢
    rw [(addNode_kept hpn).lower, addNode_upper hpn]
    exact hm hk
  obtain ⟨-, -, hac, hcn, -⟩ := hC.linked hc
  have hc' : c ≠ s.next := ne_of_lt hcn
  have ha' : a ≠ s.next := ne_of_lt (lt_trans hac hcn)
  rw [(addNode_kept hc').kind] at hk
  rw [(addNode_kept hc').lower, addNode_upper hc', (addNode_kept ha').lower, addNode_upper ha']
  exact hT ((attached_of_addNode hp ha).resolve_right ha') hc hk

/-- A directory that was copied up is merged with the lower one it was copied from. -/
theorem transparent_copy {j : ι} (hp : s.Attached p)
    (hc : s.kid p n = some c) (hbare : (s.nodes c).upper = none) (hj : (s.nodes c).lower = some j)
    (hu : (s.nodes p).upper = some u) (ht : Twin L s.upper fs' u n j) :
    Transparent L (s.copied fs' c) := by
  rintro a m b ⟨q, hq⟩ hb hk
  rw [nodeAt, setUpper_kid] at hq
  rw [setUpper_kid] at hb
  rw [(setUpper_kept b).kind] at hk
  rw [(setUpper_kept a).lower, (setUpper_kept b).lower]
  obtain ⟨hpar, hname, hlt, -⟩ := hC.linked hc
  by_cases hbc : b = c
  · subst hbc
    obtain ⟨hpar', hname', -⟩ := hC.linked hb
    obtain rfl : a = p := Option.mem_unique hpar' hpar
    obtain rfl : m = n := hname'.symm.trans hname
    have hne : a ≠ b := ne_of_lt hlt
    obtain ⟨hfree, hmark⟩ := hC.free_of_bare hp hc hbare hu
    have hmark' : fs'.entry u (whiteoutName m) = none := by
      rw [ht.changes.entry u _ fun hk => (hC.linked hc).2.2.2.2.ne_whiteout m hk.2.symm, hmark]
    have hlow : lowerEntry L (s.nodes a).lower m = some j := (hC.mirror hp hc).lower j hj
    have hjdir : L.kind j = .directory := (hC.lower_kind hj).trans hk
    have hvdir : fs'.kind s.upper.nextIno = .directory := (congrArg Prod.fst ht.shown).trans hjdir
    rw [setUpper_self, setUpper_ne hne]
    show merge L fs' (s.nodes a).lower (s.nodes a).upper m = some (_, (s.nodes b).lower, _)
    rw [hu, hj]
    simp only [merge, upperEntry, Option.bind_some, ht.entry, hmark', hlow, hvdir, hjdir,
      Option.isSome_none, Bool.false_eq_true, if_false, and_self, if_true]
  · have hx : find L s q = some (.node a) := find_nodeAt hq
    have hne : ¬ ((Pos.node a : Pos ι) = .node p ∧ m = n) := by
      rintro ⟨ha, rfl⟩
      cases ha
      exact hbc (Option.mem_unique hb hc)
    rw [setUpper_ne hbc]
    exact (merge_copy hC hp hc hbare hu ht hx hne).trans (hT ⟨q, hq⟩ hb hk)

theorem Transparent.grew (hg : Grew L s s') : Transparent L s' := by
  refine hg.keeps (fun t t' ht hTt he => ?_) hC hT
  cases he with
  | cache hp hn hfree hm => exact transparent_addNode ht hTt hp fun hk => hk ▸ hm
  | copy hp hc hbare hj hu htw => exact transparent_copy ht hTt hp hc hbare hj hu htw

end

end

/-- Editing one name leaves what the others show. -/
theorem Ready.merge_touch (hr : Ready L s d u) (hs : fs.Sound) (ht : Touches fs fs' u n)
    (hn : Plain n) (ha : s.Attached a) (hm : Plain m) (hne : ¬ (d = a ∧ n = m)) :
    merge L fs' (s.nodes a).lower (s.nodes a).upper m =
      merge L fs (s.nodes a).lower (s.nodes a).upper m := by
  cases hw : (s.nodes a).upper with
  | none => exact merge_congr rfl rfl nofun
  | some w =>
    obtain ⟨he, hwh⟩ := hr.other_entries ha hw hm hn hne ht
    exact merge_congr he hwh fun v hv => ht.kind (hs.held hv)

theorem Ready.transparent_touch (hr : Ready L s d u) (hT : Transparent L s) (hn : Plain n)
    (ht : Touches s.upper fs' u n) :
    Transparent L (({ s with upper := fs' } : State ι).forget d n) := by
  intro a m c ha hc hk
  have hne : ¬ (d = a ∧ n = m) := by
    rintro ⟨rfl, rfl⟩
    rw [forget_kid_self] at hc
    cases hc
  have ha' : s.Attached a := attached_of_forget ha
  have hc' : s.kid a m = some c := kid_of_forget hc
  rw [(forget_kept c).kind] at hk
  rw [(forget_kept c).lower, (forget_kept a).lower, forget_upper, forget_upper]
  exact (hr.merge_touch hr.coherent.sound ht hn ha' (hr.coherent.linked hc').2.2.2.2 hne).trans
    (hT ha' hc' hk)

/-- The name has an upper entry and a whiteout at once. -/
def Clash (s : State ι) (d : NodeId) (n : Name) : Prop :=
  upperEntry s.upper (s.nodes d).upper n ≠ none ∧
    upperEntry s.upper (s.nodes d).upper (whiteoutName n) ≠ none

theorem Ready.transparent_unmark (hr : Ready L s d u) (hT : Transparent L s) (hn : Plain n)
    (hclash : ¬ Clash s d n) : Transparent L { s with upper := Overlay.unmark u n s.upper } := by
  intro a m c ha hc hk
  have ht : Touches s.upper (Overlay.unmark u n s.upper) u n :=
    .mark (unmark_changes hr.coherent.sound)
  by_cases hw : s.upper.entry u (whiteoutName n) = none
  · rw [unmark_free hw]
    exact hT ha hc hk
  have hne : ¬ (d = a ∧ n = m) := by
    rintro ⟨rfl, rfl⟩
    have hup := hr.upper_of_marked hc hw
    rw [(hr.coherent.mirror hr.attached hc).upper] at hup
    refine hclash ⟨hup, ?_⟩
    rw [hr.upper]
    exact hw
  exact (hr.merge_touch hr.coherent.sound ht hn ha (hr.coherent.linked hc).2.2.2.2 hne).trans
    (hT ha hc hk)

/-- A name that is cached or copied up was not hidden. -/
theorem Grew.clash (hC : Coherent L s) (hd : s.Attached d) (hg : Grew L s s')
    (h : ¬ Clash s d n) : ¬ Clash s' d n := by
  refine (hg.keeps (P := fun t => t.Attached d ∧ ¬ Clash t d n)
    (fun t t' ht hp he => ⟨(he.grows ht).attached hp.1, ?_⟩) hC ⟨hd, h⟩).2
  have hdn : d ≠ t.next := ne_of_lt (ht.lt_next hp.1)
  cases he with
  | cache hp' hn hfree hm =>
    rw [Clash, addNode_upper hdn]
    exact hp.2
  | @copy p k c u j fs' hp' hc hbare hj hu htw =>
    rintro ⟨hent, hmark⟩
    by_cases hdc : d = c
    · subst hdc
      rw [setUpper_self] at hent
      exact hent (htw.bare n)
    rw [setUpper_ne hdc] at hent hmark
    have hk : Plain k := (ht.linked hc).2.2.2.2
    cases hw : (t.nodes d).upper with
    | none =>
      rw [show (({ t with upper := fs' } : State ι).nodes d).upper = none from hw] at hent
      exact hent rfl
    | some w =>
      rw [show (({ t with upper := fs' } : State ι).nodes d).upper = some w from hw] at hent hmark
      have hmark' : t.upper.entry w (whiteoutName n) ≠ none := by
        rw [← htw.changes.entry w _ fun h => hk.ne_whiteout n h.2.symm]
        exact hmark
      by_cases hsame : w = u ∧ n = k
      · obtain ⟨rfl, rfl⟩ := hsame
        exact hmark' (ht.free_of_bare hp' hc hbare hu).2
      refine hp.2 ⟨?_, ?_⟩
      · rw [hw]
        show t.upper.entry w n ≠ none
        rw [← htw.changes.entry w n hsame]
        exact hent
      · rw [hw]
        exact hmark'

theorem merge_over {up : Option Ino} (hv : upperEntry fs up n = some v)
    (hk : fs.kind v = .directory) (hlo : ∀ j, lowerEntry L lo n = some j → L.kind j ≠ .directory) :
    merge L fs lo up n = some (.directory, none, some v) := by
  simp only [merge, hv]
  split
  case h_1 v' j heq hj =>
    cases heq
    have hlow : lowerEntry L lo n = some j := by
      split at hj
      · cases hj
      · exact hj
    rw [if_neg fun h => hlo j hlow h.2, hk]
  case h_2 v' heq hj =>
    cases heq
    rw [hk]
  case h_3 heq hj => cases heq
  case h_4 heq hj => cases heq

theorem make_transparent {f : TmpFs → Ino → Except Errno (Ino × TmpFs)}
    (hf : Creates f n kind) (hC : Coherent L s) (hT : Transparent L s) (hd : s.Dir d) (hn : Plain n)
    (hclash : ¬ Clash s d n) (hover : kind = .directory →
      ∀ j, lowerEntry L (s.nodes d).lower n = some j → L.kind j ≠ .directory) :
    Transparent L (stateOf (make L f d n kind s)) := by
  obtain ⟨u, s1, hg, hready, -, hend⟩ := make_cases f n kind hC hd
  have hT1 : Transparent L s1 := hT.grew hC hg
  have hch := unmark_changes (u := u) (n := n) hready.coherent.sound
  rcases hend with ⟨v, fs', hok, hrun⟩ | ⟨e, -, hrun⟩
  · rw [hrun]
    have hdir := (Touches.mark hch).dir hready.coherent.sound hready.dir
    obtain ⟨hv, x, hk, ha⟩ := hf hch.sound (hch.sound.made hdir) hok
    have ht := (Touches.mark hch).trans (.name ha.changes)
    rw [← addNode_forget]
    refine transparent_addNode (hready.touch hn ht) (hready.transparent_touch hT1 hn ht)
      (hready.coherent.lt_next hready.attached) fun hkind => ?_
    rw [(forget_kept d).lower, forget_upper]
    have hentry : upperEntry fs' (some u) n = some v := by
      rw [hv]
      exact ha.entry
    have hvk : fs'.kind v = .directory := by
      rw [hv, ← hkind, ← hk]
      exact congrArg Prod.fst ha.shown
    rw [hready.upper, ((hg.grows hC).kept (hC.lt_next hd.1)).lower]
    exact merge_over hentry hvk (hover hkind)
  · rw [hrun]
    exact hready.transparent_unmark hT1 hn (hg.clash hC hd.1 hclash)

theorem link_transparent (hL : L.Fits) (hC : Coherent L s) (hT : Transparent L s) (hd : s.Dir d)
    (hn : Plain n) (ht : s.Live t) (hlt : t < s.next) (hclash : ¬ Clash s d n) :
    Transparent L (stateOf (link L d n t s)) := by
  obtain ⟨u, v, s1, hg, hready, hv, hend⟩ := link_cases hL n hC hd ht hlt
  have hT1 : Transparent L s1 := hT.grew hC hg
  have hch := unmark_changes (u := u) (n := n) hready.coherent.sound
  rcases hend with ⟨fs', hok, hrun⟩ | ⟨e, -, hrun⟩
  · rw [hrun]
    have hlt := lt_of_lt_of_le (hready.coherent.upper_kind hv).1 hch.next
    obtain ⟨hl, -⟩ := link_changes hch.sound hlt hok
    exact hready.transparent_touch hT1 hn ((Touches.mark hch).trans (.name hl))
  · rw [hrun]
    exact hready.transparent_unmark hT1 hn (hg.clash hC hd.1 hclash)

theorem Removing.transparent {drop : TmpFs → Ino → Name → Except Errno (Unit × TmpFs)}
    (h : Removing L s s1 d n c u) (hdrop : Drops drop) (hC : Coherent L s) (hT : Transparent L s)
    (hn : Plain n) : Transparent L (s1.without drop d n c u) :=
  h.ready.transparent_touch (hT.grew hC h.grew) hn
    (removed_touches hdrop h.ready.coherent.sound h.ready.dir)

/-- A move forgets both names, and edits no other one. -/
theorem Moving.transparent {a b : Name} (hm : Moving L s s1 d a d' c u u')
    (ha : Plain a) (hb : Plain b) (hT1 : Transparent L s1)
    (hok : (Overlay.unmark u' b s1.upper).rename u a u' b = .ok ((), fs')) :
    Transparent L ((({ s1 with upper := sourced u a (s1.nodes c).lower fs' } : State ι).forget d a).forget
      d' b) := by
  intro x k y hx hy hk
  obtain ⟨fs2, h2, h3, h4⟩ := hm.edits hok
  have h1 : Touches s1.upper (unmark u' b s1.upper) u' b :=
    .mark (unmark_changes hm.target.coherent.sound)
  have hx' : s1.Attached x := attached_of_forget (attached_of_forget hx)
  have hy' : s1.kid x k = some y := kid_of_forget (kid_of_forget hy)
  have hplain : Plain k := (hm.source.coherent.linked hy').2.2.2.2
  have hne : ¬ (d = x ∧ a = k) := by
    rintro ⟨rfl, rfl⟩
    have hy := kid_of_forget hy
    rw [forget_kid_self] at hy
    cases hy
  have hne' : ¬ (d' = x ∧ b = k) := by
    rintro ⟨rfl, rfl⟩
    rw [forget_kid_self] at hy
    cases hy
  rw [(forget_kept y).kind, (forget_kept y).kind] at hk
  rw [(forget_kept y).lower, (forget_kept y).lower, (forget_kept x).lower, (forget_kept x).lower,
    forget_upper, forget_upper, forget_upper, forget_upper]
  have e1 := hm.target.merge_touch hm.target.coherent.sound h1 hb hx' hplain hne'
  have e2 := hm.source.merge_touch h1.sound h2 ha hx' hplain hne
  have e3 := hm.target.merge_touch h2.sound h3 hb hx' hplain hne'
  have e4 := hm.source.merge_touch h3.sound h4 ha hx' hplain hne
  exact (((e4.trans e3).trans e2).trans e1).trans (hT1 hx' hy' hk)

theorem rename_transparent (hL : L.Fits) (depth : Nat) {a b : Name} (hC : Coherent L s)
    (hT : Transparent L s) (hd : s.Dir d) (hd' : s.Dir d') (ha : Plain a) (hb : Plain b)
    (hclash : ¬ Clash s d' b) : Transparent L (stateOf (rename L depth d a d' b s)) := by
  rcases rename_cases hL depth hC hd hd' ha with ⟨-, hrun⟩ | ⟨s1, hg, hrun, -⟩ |
    ⟨c, u, u', s1, hm, ⟨fs', hok, hrun⟩ | ⟨e, -, hrun⟩⟩
  · rw [hrun]
    exact hT
  · rw [hrun]
    exact hT.grew hC hg
  · rw [hrun]
    exact hm.transparent ha hb (hT.grew hC hm.grew) hok
  · rw [hrun]
    exact hm.target.transparent_unmark (hT.grew hC hm.grew) hb (hm.grew.clash hC hd'.1 hclash)

theorem Transparent.rewrite (hT : Transparent L s)
    (h : Rewrites s.upper fs' v) : Transparent L { s with upper := fs' } := by
  intro a m c ha hc hk
  have hentry : ∀ k, upperEntry fs' (s.nodes a).upper k = upperEntry s.upper (s.nodes a).upper k := by
    intro k
    cases (s.nodes a).upper with
    | none => rfl
    | some w => exact h.entry w k
  exact (merge_congr (hentry m) (hentry _) fun v _ => h.kind v).trans (hT ha hc hk)

/-- A call that leaves no difference between the cache and the layers: a directory
is not made over a lower one, and a name that a call makes does not have an upper
entry next to a whiteout. -/
def Op.Clear (L : LowerTree ι) (s : State ι) : Op → Prop
  | .create d n kind _ => ¬ Clash s d n ∧ (kind = .directory →
      ∀ j, lowerEntry L (s.nodes d).lower n = some j → L.kind j ≠ .directory)
  | .symlink d n _ _ _ => ¬ Clash s d n
  | .link d n _ => ¬ Clash s d n
  | .rename _ _ _ d n => ¬ Clash s d n
  | _ => True

theorem transparent_mount : Transparent L (mount L fs) := by
  intro p n c _ hc
  have hnone := mount_kidAt (L := L) fs (.node p) n
  rw [kidAt, hc] at hnone
  cases hnone

theorem step_transparent (hL : L.Fits) (hC : Coherent L s) (hT : Transparent L s) {op : Op}
    (ht : op.Tidy s) (hclear : op.Clear L s) (hs : step L op s = some s') : Transparent L s' := by
  rw [step_state hs]
  cases op with
  | lookup p m => exact hT.grew hC (lookup_grew ht)
  | readdir p =>
    rw [readdir_state]
    exact hT
  | create p m kind attr =>
    rw [Op.run, stateOf_effect]
    exact make_transparent (creates_create m kind attr) hC hT ht.1 ht.2 hclear.1 hclear.2
  | symlink p m target uid gid =>
    rw [Op.run, stateOf_effect]
    exact make_transparent (creates_symlink m target uid gid) hC hT ht.1 ht.2 hclear fun h => by cases h
  | link p m t => exact link_transparent hL hC hT ht.1 ht.2.1 ht.2.2.2 ht.2.2.1 hclear
  | writeAt c off buf => exact writeAt_keeps hL hC ht off buf (hT.grew hC) Transparent.rewrite
  | setAttr c a => exact setAttr_keeps hL hC ht a (hT.grew hC) Transparent.rewrite
  | unlink p m =>
    rcases unlink_cases hC ht.1 ht.2 with hr | ⟨c, u, s1, hrem, hr⟩
    · rw [Op.run, hr]
      exact hT
    · rw [Op.run, hr]
      exact hrem.transparent unlink_drops hC hT ht.2
  | rmdir p m =>
    rcases rmdir_cases hL hC ht.1 ht.2 with ⟨e, s0, hg, hr⟩ | ⟨c, u, s1, hrem, -, -, hr⟩
    · rw [Op.run, hr]
      exact hT.grew hC hg
    · rw [Op.run, hr]
      exact hrem.transparent rmdir_drops hC hT ht.2
  | rename depth p old p' new =>
    exact rename_transparent hL depth hC hT ht.1 ht.2.2.1 ht.2.1 ht.2.2.2 hclear
  | remount => exact transparent_mount

/-- After any run of such calls, a new overlay over the same layers shows at every
path what the live one shows. -/
theorem cache_transparent (hL : L.Fits) {ops : List Op} {s : State ι}
    (hrun : runs (step L) ops (State.fresh L) = some s)
    (hclear : Throughout (step L) (fun t op => op.Tidy t ∧ op.Clear L t) ops (State.fresh L))
    {q : List Name} (hq : ∀ n ∈ q, Plain n) :
    shows L s q = shows L (mount L s.upper) q ∧ lists L s q = lists L (mount L s.upper) q := by
  obtain ⟨hC, hT⟩ : Coherent L s ∧ Transparent L s :=
    throughout_last (P := fun t => Coherent L t ∧ Transparent L t)
      (fun _ _ _ h ht hs => ⟨step_coherent hL h.1 ht.1 hs, step_transparent hL h.1 h.2 ht.1 ht.2 hs⟩)
      ⟨coherent_fresh, transparent_mount⟩ hclear hrun
  exact hT.same hC hq

/-- A directory made under a new name next to a deleted file. -/
theorem cache_transparent_image : ∃ s, runs (step image)
      [.unlink rootId nameF, .create rootId nameG .directory {}] (State.fresh image) = some s ∧
    shows image s [nameG] = shows image (mount image s.upper) [nameG] ∧
    lists image s [nameG] = lists image (mount image s.upper) [nameG] := by
  have hruns : ((step image (.unlink rootId nameF) (fresh image)).bind fun t =>
      (runs (step image) [.create rootId nameG .directory {}] t).map fun _ =>
        decide (upperEntry t.upper (t.nodes rootId).upper nameG = none ∧
          lowerEntry image (t.nodes rootId).lower nameG = none)) = some true := by
    decide +kernel
  obtain ⟨t, ht, hruns⟩ := Option.bind_eq_some_iff.mp hruns
  obtain ⟨s, hs, hfree⟩ := Option.map_eq_some_iff.mp hruns
  obtain ⟨hup, hlo⟩ := of_decide_eq_true hfree
  have hfirst : (Op.unlink rootId nameF).Tidy (fresh image) := ⟨⟨attached_root, rfl⟩, by decide⟩
  have hroot : (t.nodes rootId).kind = .directory :=
    (step_coherent image_fits coherent_fresh hfirst ht).root_kind
  have hclear : Throughout (step image) (fun t op => op.Tidy t ∧ op.Clear image t)
      [.unlink rootId nameF, .create rootId nameG .directory {}] (fresh image) := by
    refine ⟨⟨hfirst, trivial⟩, fun t' ht' => ?_⟩
    cases ht.symm.trans ht'
    refine ⟨⟨⟨⟨attached_root, hroot⟩, by decide⟩, fun h => h.1 hup, fun _ j hj => ?_⟩,
      fun _ _ => trivial⟩
    rw [hlo] at hj
    cases hj
  have hrun : runs (step image) [.unlink rootId nameF, .create rootId nameG .directory {}]
      (fresh image) = some s := by
    rw [runs, ht]
    exact hs
  exact ⟨s, hrun, cache_transparent image_fits hrun hclear (by decide)⟩

/-- A directory made where a directory of the image was moved away is empty, and is
not empty in a new overlay over the same layers. -/
theorem mkdir_unmerged : ∃ s, runs (step image)
      [.rename 2 rootId nameD rootId nameG, .create rootId nameD .directory {}] (State.fresh image) =
      some s ∧
    shows image s [nameD] = some (.directory, []) ∧ shows image s [nameD, nameF] = none ∧
    shows image (mount image s.upper) [nameD, nameF] = some (.regular, [3]) := by
  have h : (runs (step image) [.rename 2 rootId nameD rootId nameG, .create rootId nameD .directory {}]
      (fresh image)).map (fun s => decide (shows image s [nameD] = some (.directory, []) ∧
        shows image s [nameD, nameF] = none ∧
        shows image (mount image s.upper) [nameD, nameF] = some (.regular, [3]))) = some true := by
    decide +kernel
  obtain ⟨s, hs, h⟩ := Option.map_eq_some_iff.mp h
  exact ⟨s, hs, of_decide_eq_true h⟩

end Fastros.Overlay
