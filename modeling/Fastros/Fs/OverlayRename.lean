import Fastros.Fs.OverlayCache

/-!
# Renaming in an overlay

A rename copies the source up, moves its upper entry and drops both names from the
cache. It acts like a rename in one tree when the lower layer has nothing that
comes back at the old name, nothing that merges into the new one, and nothing that
the upper layer would have to refuse.
-/

namespace Fastros.Overlay

open Fs Tmpfs Tmpfs.TmpFs Lib.Stateful Lib.Walk Lib.Run List State
open Option (bind_eq_some_iff bind_some ne_none_iff_exists')

variable {ι : Type} {L : LowerTree ι} {s s' s₁ : State ι} {x y : Pos ι} {c d d' : NodeId}
  {a b n : Name} {u u' v w : Ino} {fs fs' : TmpFs} {p p' q : List Name}

/-- No path of the overlay is longer than what the two layers allow. -/
theorem Coherent.bounded (hC : Coherent L s) : ∃ k, ∀ q, find L s q ≠ none → q.length ≤ k := by
  have hfin : ∀ i, ∃ l : List ι, ∀ n j, (L.entries i).lookup n = some j → j ∈ l := by
    intro i
    refine ⟨(L.entries i).entries.map Sigma.snd, fun n j hj => ?_⟩
    exact mem_map.mpr ⟨⟨n, j⟩, AList.mem_lookup_iff.mp hj, rfl⟩
  obtain ⟨k, hk⟩ := walk_bounded L.grounded hfin L.root
  refine ⟨max s.upper.nextIno k, fun q hq => ?_⟩
  obtain ⟨x, hx⟩ := ne_none_iff_exists'.mp hq
  cases hu : s.upperAt x with
  | some v =>
    rw [hC.upper_find hx] at hu
    have hlen := hC.sound.forest.length_le (fun a ha => Finset.mem_range.mpr (hC.sound.made ha)) hu
    rw [Finset.card_range] at hlen
    exact le_trans hlen (le_max_left _ _)
  | none =>
    obtain ⟨-, -, -, hsome⟩ := hC.kind_find hx
    obtain ⟨j, hj⟩ := ne_none_iff_exists'.mp (hsome hu)
    exact le_trans (hk q j (hC.lower_find hx hj)) (le_max_right _ _)

theorem Coherent.shallow (hC : Coherent L s) (q : List Name) :
    ∃ k, ∀ depth, k ≤ depth → Shallow L s q depth := by
  obtain ⟨k, hk⟩ := hC.bounded
  refine ⟨k + 1, fun depth hdepth w _ hw => ?_⟩
  have hlen := hk _ hw
  rw [length_append] at hlen
  omega

theorem plain_append {q' : List Name} (h : PlainPath q) (h' : PlainPath q') : PlainPath (q ++ q') :=
  fun m hm => (mem_append.mp hm).elim (h m) (h' m)

theorem plain_cons (hn : Plain n) (h : PlainPath q) : PlainPath (n :: q) := by
  intro m hm
  rcases mem_cons.mp hm with rfl | hm
  · exact hn
  · exact h m hm

theorem plain_concat (h : PlainPath q) (hn : Plain n) : PlainPath (q ++ [n]) :=
  plain_append h (plain_cons hn nofun)

section

variable (hC : Coherent L s)
include hC

theorem Coherent.plain_path (hq : s.nodeAt q = some c) : PlainPath q := by
  induction q using reverseRecOn generalizing c with
  | nil => nofun
  | append_singleton q n ih =>
    obtain ⟨e, he, hc⟩ := walk_snoc.mp hq
    exact plain_concat (ih he) (hC.linked hc).2.2.2.2

theorem Grew.entry_kept (hg : Grew L s s') (h : s.upper.entry w n = some v) :
    s'.upper.entry w n = some v := by
  refine hg.keeps (P := fun t => t.upper.entry w n = some v) (fun t t' ht hp he => ?_) hC h
  cases he with
  | cache => exact hp
  | copy hp' hk hbare hj hw htw =>
    refine (htw.changes.entry w n ?_).trans hp
    rintro ⟨rfl, rfl⟩
    rw [htw.free] at hp
    cases hp

theorem Grew.kind_kept (hg : Grew L s s') (h : v < s.upper.nextIno) :
    s'.upper.kind v = s.upper.kind v := by
  refine (hg.keeps (P := fun t => v < t.upper.nextIno ∧ t.upper.kind v = s.upper.kind v)
    (fun t t' ht hp he => ?_) hC ⟨h, rfl⟩).2
  cases he with
  | cache => exact hp
  | copy hp' hk hbare hj hw htw =>
    exact ⟨lt_of_lt_of_le hp.1 htw.changes.next, (htw.changes.kind hp.1).trans hp.2⟩

/-- What a directory of the tree holds stays there. -/
theorem Grew.upperEntry_kept (hd : s.Attached d) (hg : Grew L s s')
    (h : upperEntry s.upper (s.nodes d).upper n = some v) :
    upperEntry s'.upper (s'.nodes d).upper n = some v := by
  obtain ⟨w, hw, he⟩ := bind_eq_some_iff.mp h
  rw [(hg.grows hC).upper (hC.lt_next hd) hw]
  exact hg.entry_kept hC he

end

/-- No inode has both names, unless they are the same one. -/
def Apart (s : State ι) (d : NodeId) (a : Name) (d' : NodeId) (b : Name) : Prop :=
  ∀ v, upperEntry s.upper (s.nodes d).upper a = some v →
    upperEntry s.upper (s.nodes d').upper b = some v → d = d' ∧ a = b

/-- An entry after a copy: an old one, or that of the copy. -/
theorem copy_entry_cases {t : State ι} {e k : NodeId} {m : Name} {i : Ino} {j : ι}
    (ht : Coherent L t) (he : t.Attached e) (hk : t.kid e m = some k) (hw : (t.nodes e).upper = some i)
    (htw : Twin L t.upper fs' i m j) (hd : t.Attached d)
    (hv : upperEntry fs' ((t.copied fs' k).nodes d).upper n = some v) :
    (upperEntry t.upper (t.nodes d).upper n = some v ∧ v ≠ t.upper.nextIno) ∨
      (d = e ∧ n = m ∧ v = t.upper.nextIno) := by
  by_cases hdk : d = k
  · subst hdk
    rw [setUpper_self] at hv
    cases (htw.bare n).symm.trans hv
  rw [setUpper_ne hdk] at hv
  obtain ⟨w, hdw, hv⟩ := bind_eq_some_iff.mp hv
  by_cases hwi : w = i ∧ n = m
  · obtain ⟨rfl, rfl⟩ := hwi
    right
    rw [htw.entry] at hv
    exact ⟨ht.node_unique hd he hdw hw htw.dir, rfl, (Option.some.inj hv).symm⟩
  · rw [htw.changes.entry w n hwi] at hv
    left
    rw [hdw]
    exact ⟨hv, ne_of_lt (ht.sound.held hv)⟩

theorem Grew.apart (hC : Coherent L s) (hd : s.Attached d) (hd' : s.Attached d') (hg : Grew L s s')
    (h : Apart s d a d' b) : Apart s' d a d' b := by
  refine (hg.keeps (P := fun t => t.Attached d ∧ t.Attached d' ∧ Apart t d a d' b)
    (fun t t' ht hp he => ⟨(he.grows ht).attached hp.1, (he.grows ht).attached hp.2.1, ?_⟩)
    hC ⟨hd, hd', h⟩).2.2
  obtain ⟨hdt, hdt', hapart⟩ := hp
  intro v hv hv'
  cases he with
  | cache =>
    rw [addNode_upper (ne_of_lt (ht.lt_next hdt))] at hv
    rw [addNode_upper (ne_of_lt (ht.lt_next hdt'))] at hv'
    exact hapart v hv hv'
  | copy he' hk hbare hj hw htw =>
    rcases copy_entry_cases ht he' hk hw htw hdt hv with ⟨hv, hne⟩ | ⟨rfl, rfl, hnew⟩
    · rcases copy_entry_cases ht he' hk hw htw hdt' hv' with ⟨hv', -⟩ | ⟨-, -, hnew⟩
      · exact hapart v hv hv'
      · exact absurd hnew hne
    · rcases copy_entry_cases ht he' hk hw htw hdt' hv' with ⟨-, hne⟩ | ⟨rfl, rfl, -⟩
      · exact absurd hnew hne
      · exact ⟨rfl, rfl⟩

/-- What a rename leaves: another upper layer, and neither name cached. -/
def State.renamed (s₁ : State ι) (fs : TmpFs) (d : NodeId) (a : Name) (d' : NodeId) (b : Name) : State ι :=
  (State.forget { s₁ with upper := fs } d a).forget d' b

theorem renamed_lowerAt (x : Pos ι) : (s₁.renamed fs d a d' b).lowerAt x = s₁.lowerAt x := by
  cases x with
  | layers lo up => rfl
  | node c => exact (forget_kept c).lower.trans (forget_kept c).lower

theorem renamed_upperAt (x : Pos ι) : (s₁.renamed fs d a d' b).upperAt x = s₁.upperAt x := by
  cases x with
  | layers lo up => rfl
  | node c => exact (forget_upper c).trans (forget_upper c)

theorem renamed_kidAt (hd : ¬ (x = .node d ∧ n = a)) (hd' : ¬ (x = .node d' ∧ n = b)) :
    (s₁.renamed fs d a d' b).kidAt x n = s₁.kidAt x n := by
  cases x with
  | layers lo up => rfl
  | node c =>
    have hc : ¬ (c = d ∧ n = a) := fun h => hd ⟨congrArg _ h.1, h.2⟩
    have hc' : ¬ (c = d' ∧ n = b) := fun h => hd' ⟨congrArg _ h.1, h.2⟩
    exact (forget_kid_ne hc').trans (forget_kid_ne hc)

theorem renamed_kid_target : (s₁.renamed fs d a d' b).kidAt (.node d') b = none := forget_kid_self

theorem renamed_kid_source : (s₁.renamed fs d a d' b).kidAt (.node d) a = none := by
  cases h : (s₁.renamed fs d a d' b).kidAt (.node d) a with
  | none => rfl
  | some c =>
    have hc : (forget { s₁ with upper := fs } d a).kid d a = some c := kid_of_forget h
    rw [forget_kid_self] at hc
    cases hc

/-- An upper layer in which only two names may have changed. -/
structure Differs (fs fs' : TmpFs) (u : Ino) (a : Name) (u' : Ino) (b : Name) : Prop where
  entry : ∀ w k, ¬ (w = u ∧ (k = a ∨ k = whiteoutName a)) → ¬ (w = u' ∧ (k = b ∨ k = whiteoutName b)) →
    fs'.entry w k = fs.entry w k
  shown : ∀ v, v < fs.nextIno → fs'.shown v = fs.shown v

theorem Differs.kind (h : Differs fs fs' u a u' b) (hv : v < fs.nextIno) : fs'.kind v = fs.kind v :=
  congrArg Prod.fst (h.shown v hv)

/-- Two plain names, and what the layer holds under a third. -/
theorem Differs.other (h : Differs fs fs' u a u' b) (ha : Plain a) (hb : Plain b) (hn : Plain n)
    (hu : ¬ (w = u ∧ n = a)) (hu' : ¬ (w = u' ∧ n = b)) :
    fs'.entry w n = fs.entry w n ∧ fs'.entry w (whiteoutName n) = fs.entry w (whiteoutName n) := by
  constructor
  · refine h.entry w n ?_ ?_
    · rintro ⟨hw, hk⟩
      exact hk.elim (fun hk => hu ⟨hw, hk⟩) (hn.ne_whiteout a)
    · rintro ⟨hw, hk⟩
      exact hk.elim (fun hk => hu' ⟨hw, hk⟩) (hn.ne_whiteout b)
  · refine h.entry w _ ?_ ?_
    · rintro ⟨hw, hk⟩
      exact hk.elim (fun hk => ha.ne_whiteout n hk.symm) fun hk => hu ⟨hw, whiteoutName_inj hk⟩
    · rintro ⟨hw, hk⟩
      exact hk.elim (fun hk => hb.ne_whiteout n hk.symm) fun hk => hu' ⟨hw, whiteoutName_inj hk⟩

theorem differs_of_touches {fs1 fs2 fs3 fs4 : TmpFs} (h1 : Touches fs fs1 u' b) (h2 : Touches fs1 fs2 u a)
    (h3 : Touches fs2 fs3 u' b) (h4 : Touches fs3 fs4 u a) : Differs fs fs4 u a u' b := by
  refine ⟨fun w k hu hu' => ?_, fun v hv => ?_⟩
  · rw [h4.entry w k hu, h3.entry w k hu', h2.entry w k hu, h1.entry w k hu']
  have hv1 := lt_of_lt_of_le hv h1.next
  have hv2 := lt_of_lt_of_le hv1 h2.next
  have hv3 := lt_of_lt_of_le hv2 h3.next
  rw [h4.shown v hv3, h3.shown v hv2, h2.shown v hv1, h1.shown v hv]

variable {lo : Option ι} {up : Option Ino}

/-- Where the lower directory has no such name, the upper one decides. -/
theorem merge_upper (h : lowerEntry L lo n = none) :
    merge L fs lo up n = (upperEntry fs up n).map fun v => (fs.kind v, none, some v) := by
  unfold merge
  rw [h]
  cases upperEntry fs up n <;> simp only [ite_self, Option.map_some, Option.map_none]

/-- An upper entry whose lower counterpart has nothing to add. -/
theorem merge_lands (hv : upperEntry fs up n = some v)
    (hlo : ∀ j, upperEntry fs up (whiteoutName n) = none → lowerEntry L lo n = some j →
      fs.kind v = .directory → L.kind j = .directory → ∀ m, (L.entries j).lookup m = none) :
    ∃ k lo', merge L fs lo up n = some (k, lo', some v) ∧ ∀ m, lowerEntry L lo' m = none := by
  cases hm : merge L fs lo up n with
  | none => exact absurd hm (merge_ne_none.mpr (.inl (by rw [hv]; nofun)))
  | some r =>
    obtain ⟨k, lo', up'⟩ := r
    obtain ⟨hmir, hup, hlow⟩ := merge_some hm
    obtain rfl : up' = some v := hmir.upper.trans hv
    refine ⟨k, lo', rfl, fun m => ?_⟩
    cases lo' with
    | none => rfl
    | some j =>
      have hj : lowerEntry L lo n = some j := hmir.lower j rfl
      have hwh : upperEntry fs up (whiteoutName n) = none := by
        by_contra hne
        have hsome := Option.isSome_iff_ne_none.mpr hne
        simp only [merge, hv, hsome, if_true] at hm
        cases hm
      have hdir : fs.kind v = .directory ∧ L.kind j = .directory := by
        by_contra hne
        simp only [merge, hv, hwh, hj, Option.isSome_none, Bool.false_eq_true, if_false, if_neg hne] at hm
        cases hm
      exact hlo j hwh hj hdir.1 hdir.2 m

/-- A position of the old tree with the upper inode that a position of the new tree
has, which has nothing else. -/
def Alone (L : LowerTree ι) (s₁ : State ι) (x y : Pos ι) : Prop :=
  ∃ lo up, y = .layers lo (some up) ∧ s₁.upperAt x = some up ∧ ∀ n, lowerEntry L lo n = none

section

variable (hsource : Ready L s₁ d u) (htarget : Ready L s₁ d' u') (ha : Plain a) (hb : Plain b)
  (hp : s₁.nodeAt p = some d) (hp' : s₁.nodeAt p' = some d')
  (hdiff : Differs s₁.upper fs u a u' b)

include hsource htarget ha hb hp hp' hdiff

/-- Lookups of other names find what they found. -/
theorem look_renamed (hx : find L s₁ q = some x) (hn : Plain n) (hq : ¬ p ++ [a] <+: q ++ [n])
    (hq' : ¬ p' ++ [b] <+: q ++ [n]) : look L (s₁.renamed fs d a d' b) x n = look L s₁ x n := by
  have hC := hsource.coherent
  have hu : ¬ (s₁.upperAt x = some u ∧ n = a) := by
    rintro ⟨hxu, rfl⟩
    obtain rfl := hC.find_unique hx (find_nodeAt hp) hxu hsource.upper hsource.dir
    exact hq (prefix_refl _)
  have hu' : ¬ (s₁.upperAt x = some u' ∧ n = b) := by
    rintro ⟨hxu, rfl⟩
    obtain rfl := hC.find_unique hx (find_nodeAt hp') hxu htarget.upper htarget.dir
    exact hq' (prefix_refl _)
  have hkid : (s₁.renamed fs d a d' b).kidAt x n = s₁.kidAt x n := by
    apply renamed_kidAt
    · rintro ⟨rfl, rfl⟩
      exact hu ⟨hsource.upper, rfl⟩
    · rintro ⟨rfl, rfl⟩
      exact hu' ⟨htarget.upper, rfl⟩
  cases hk : s₁.kidAt x n with
  | some e => rw [look_cached hk, look_cached (hkid.trans hk)]
  | none =>
    rw [look_uncached hk, look_uncached (hkid.trans hk), mergeAt, mergeAt, renamed_lowerAt, renamed_upperAt]
    refine congrArg _ ?_
    cases hw : s₁.upperAt x with
    | none => exact merge_congr rfl rfl fun _ h => by cases h
    | some w =>
      obtain ⟨he, hwh⟩ := hdiff.other ha hb hn (fun h => hu ⟨hw.trans (congrArg some h.1), h.2⟩)
        fun h => hu' ⟨hw.trans (congrArg some h.1), h.2⟩
      exact merge_congr he hwh fun v hv => hdiff.kind (hC.sound.held hv)

/-- Paths through neither name lead where they led. -/
theorem find_renamed (hplain : PlainPath q) (hq : ¬ p ++ [a] <+: q) (hq' : ¬ p' ++ [b] <+: q) :
    find L (s₁.renamed fs d a d' b) q = find L s₁ q := by
  refine find_congr (T := fun w => PlainPath w ∧ ¬ p ++ [a] <+: w ∧ ¬ p' ++ [b] <+: w) ?_ ?_
    ⟨hplain, hq, hq'⟩
  · rintro w n ⟨h, h1, h2⟩
    refine ⟨fun m hm => h m (mem_append_left _ hm), fun hw => h1 ?_, fun hw => h2 ?_⟩
    · exact hw.trans (prefix_append w [n])
    · exact hw.trans (prefix_append w [n])
  · rintro w x n hx ⟨h, h1, h2⟩
    have hn : Plain n := h n (mem_append_right _ mem_cons_self)
    exact look_renamed hsource htarget ha hb hp hp' hdiff hx hn h1 h2

theorem view_renamed (hplain : PlainPath q) (hq : ¬ p ++ [a] <+: q) (hq' : ¬ p' ++ [b] <+: q) :
    view L (s₁.renamed fs d a d' b) q = view L s₁ q := by
  rw [view, view, find_renamed hsource htarget ha hb hp hp' hdiff hplain hq hq']
  cases hx : find L s₁ q with
  | none => rfl
  | some x =>
    obtain ⟨k, hup, -⟩ := hsource.coherent.kind_find hx
    simp only [bind_some, shownAt, renamed_lowerAt, renamed_upperAt]
    cases hv : s₁.upperAt x with
    | none => cases s₁.lowerAt x <;> rfl
    | some v => exact congrArg some (hdiff.shown v (hup v hv).1)

/-- One name further below the source and below the target. -/
theorem Alone.look (hfull : Full L s₁ (p ++ [a])) (hbelow : ¬ p ++ [a] <+: p') (hplain : PlainPath q)
    (hx : find L s₁ (p ++ [a] ++ q) = some x) (hn : Plain n) (h : Alone L s₁ x y) :
    Option.Rel (Alone L s₁) (look L s₁ x n) (Overlay.look L (s₁.renamed fs d a d' b) y n) := by
  have hC := hsource.coherent
  obtain ⟨lo, up, rfl, hup, hlo⟩ := h
  have hu : up ≠ u := by
    rintro rfl
    have hpath := hC.find_unique hx (find_nodeAt hp) hup hsource.upper hsource.dir
    have hlen := congrArg length hpath
    simp only [length_append, length_singleton] at hlen
    omega
  have hu' : up ≠ u' := by
    rintro rfl
    have hpath := hC.find_unique hx (find_nodeAt hp') hup htarget.upper htarget.dir
    rw [← hpath] at hbelow
    exact hbelow (prefix_append _ _)
  have hentry : fs.entry up n = s₁.upper.entry up n :=
    (hdiff.other ha hb hn (fun h => hu h.1) fun h => hu' h.1).1
  have hnew : Overlay.look L (s₁.renamed fs d a d' b) (.layers lo (some up)) n =
      (s₁.upper.entry up n).map fun v => .layers none (some v) := by
    rw [look_uncached rfl, mergeAt]
    show (merge L fs lo (some up) n).map _ = _
    rw [merge_upper (hlo n), upperEntry, bind_some, hentry, Option.map_map]
    rfl
  rw [hnew]
  cases hl : Overlay.look L s₁ x n with
  | none =>
    cases he : s₁.upper.entry up n with
    | none => exact .none
    | some v =>
      refine absurd hl ((look_ne_none hC hx).mpr (.inl ?_))
      rw [hup, upperEntry, bind_some, he]
      exact Option.some_ne_none _
  | some z =>
    have hz : find L s₁ (p ++ [a] ++ (q ++ [n])) = some z := by
      rw [← append_assoc, find_concat hx, hl]
    have hplain' : PlainPath (q ++ [n]) := plain_concat hplain hn
    have hmir := (hC.mirror_look hx hl).upper
    rw [hup, upperEntry, bind_some] at hmir
    obtain ⟨v, hv⟩ := ne_none_iff_exists'.mp (hfull _ z hplain' hz)
    rw [← hmir, hv]
    exact .some ⟨none, v, rfl, hv, fun _ => rfl⟩

theorem view_target (hfull : Full L s₁ (p ++ [a])) (hbelow : ¬ p ++ [a] <+: p')
    (hc : s₁.kid d a = some c) (hcv : (s₁.nodes c).upper = some v)
    (hland : ∃ k lo, merge L fs (s₁.nodes d').lower (some u') b = some (k, lo, some v) ∧
      ∀ m, lowerEntry L lo m = none) (hplain : PlainPath q) :
    view L (s₁.renamed fs d a d' b) (p' ++ b :: q) = view L s₁ (p ++ a :: q) := by
  have hC := hsource.coherent
  obtain ⟨k, lo, hmerge, hlo⟩ := hland
  have hself : ¬ p' ++ [b] <+: p' := by
    intro h
    have hlen := h.length_le
    simp only [length_append, length_singleton] at hlen
    omega
  have htop : find L (s₁.renamed fs d a d' b) (p' ++ [b]) = some (.layers lo (some v)) := by
    have hdir : find L (s₁.renamed fs d a d' b) p' = some (.node d') := by
      rw [find_renamed hsource htarget ha hb hp hp' hdiff (hC.plain_path hp') hbelow hself]
      exact find_nodeAt hp'
    rw [find_concat hdir, look_uncached renamed_kid_target, mergeAt, renamed_lowerAt, renamed_upperAt]
    show (merge L fs (s₁.nodes d').lower (s₁.nodes d').upper b).map _ = _
    rw [htarget.upper, hmerge]
    rfl
  have hold : find L s₁ (p ++ [a]) = some (.node c) := by
    rw [find_concat (find_nodeAt hp)]
    exact look_cached hc
  have hstart : Alone L s₁ (.node c) (.layers lo (some v)) := ⟨lo, v, rfl, hcv, hlo⟩
  have hrel : Option.Rel (Alone L s₁) (walk (look L s₁) (.node c) q)
      (walk (look L (s₁.renamed fs d a d' b)) (.layers lo (some v)) q) := by
    refine walk_rel (R := fun _ => Alone L s₁)
      (fun w n h m hm => h m (mem_append_left _ hm)) hstart ?_ q hplain
    intro w x y n hx hy hxy hw
    have hfind : find L s₁ (p ++ [a] ++ w) = some x := by
      rw [find, walk_append, show walk (look L s₁) (.node rootId) (p ++ [a]) = _ from hold]
      exact hx
    exact hxy.look hsource htarget ha hb hp hp' hdiff hfull hbelow
      (fun m hm => hw m (mem_append_left _ hm)) hfind
      (hw n (mem_append_right _ mem_cons_self))
  have hnew : find L (s₁.renamed fs d a d' b) (p' ++ b :: q) =
      walk (look L (s₁.renamed fs d a d' b)) (.layers lo (some v)) q := by
    rw [append_cons, find, walk_append,
      show walk (look L (s₁.renamed fs d a d' b)) (.node rootId) (p' ++ [b]) = _ from htop]
    rfl
  have hsrc : find L s₁ (p ++ a :: q) = walk (look L s₁) (.node c) q := by
    rw [append_cons, find, walk_append,
      show walk (look L s₁) (.node rootId) (p ++ [a]) = _ from hold]
    rfl
  rw [view, view, hnew]
  refine (rel_bind (hsrc ▸ hrel) fun x y hx hxy => ?_).symm
  obtain ⟨lo', up, rfl, hup, -⟩ := hxy
  obtain ⟨k', hkind, -⟩ := hC.kind_find hx
  rw [shownAt, hup]
  exact congrArg some (hdiff.shown up (hkind up hup).1).symm

/-- The source is gone, unless the lower layer still shows through. -/
theorem view_source (hover : ¬ p' ++ [b] <+: p) (hgone : fs.entry u a = none)
    (hcover : lowerEntry L (s₁.nodes d).lower a = none ∨ fs.entry u (whiteoutName a) ≠ none) :
    view L (s₁.renamed fs d a d' b) (p ++ [a]) = none := by
  have hself : ¬ p ++ [a] <+: p := by
    intro h
    have hlen := h.length_le
    simp only [length_append, length_singleton] at hlen
    omega
  have hdir : find L (s₁.renamed fs d a d' b) p = some (.node d) := by
    rw [find_renamed hsource htarget ha hb hp hp' hdiff (hsource.coherent.plain_path hp) hself hover]
    exact find_nodeAt hp
  have hnone : merge L fs (s₁.nodes d).lower (some u) a = none := by
    by_contra hne
    rcases merge_ne_none.mp hne with h | ⟨hw, hl⟩
    · exact h hgone
    · exact hcover.elim hl fun h => h hw
  rw [view, find_concat hdir, look_uncached renamed_kid_source, mergeAt, renamed_lowerAt, renamed_upperAt]
  show Option.bind ((merge L fs (s₁.nodes d).lower (s₁.nodes d).upper a).map _) _ = none
  rw [hsource.upper, hnone]
  rfl

end

theorem listing_ok {l : List Name} (h : listing L fs lo up = .ok l) :
    (∀ v, up = some v → fs.kind v = .directory) ∧ ∀ j, lo = some j → L.kind j = .directory := by
  constructor
  · rintro v rfl
    by_contra hk
    rw [listing_file hk] at h
    cases h
  rintro j rfl
  by_contra hk
  have hlos : lowerNames L j = .error .enotdir := if_neg hk
  cases up <;>
  · obtain ⟨_, -, h⟩ := bind_eq_ok_iff.mp h
    obtain ⟨los, hok, -⟩ := bind_eq_ok_iff.mp h
    cases hlos.symm.trans hok

/-- The kind that a position shows is that of both layers. -/
theorem Coherent.shown_kind (hC : Coherent L s) (hx : find L s q = some x) {r : FileType × List UInt8}
    (hr : shownAt L s x = some r) :
    (∀ v, s.upperAt x = some v → s.upper.kind v = r.1) ∧ ∀ j, s.lowerAt x = some j → L.kind j = r.1 := by
  obtain ⟨k, hup, hlo, hsome⟩ := hC.kind_find hx
  have hk : k = r.1 := by
    unfold shownAt at hr
    cases hu : s.upperAt x with
    | some v =>
      rw [hu] at hr
      cases hr
      exact (hup v hu).2.symm
    | none =>
      obtain ⟨j, hj⟩ := ne_none_iff_exists'.mp (hsome hu)
      rw [hu, hj] at hr
      cases hr
      exact (hlo j hj).symm
  rw [← hk]
  exact ⟨fun v hv => (hup v hv).2, hlo⟩

/-- The target is a directory with something in it, or one of source and target is a
directory and the other is not. -/
def Barred (L : LowerTree ι) (s : State ι) (q q' : List Name) : Prop :=
  (∃ l, lists L s q' = some (.ok l) ∧ l ≠ []) ∨
    ∃ r r', shows L s q = some r ∧ shows L s q' = some r' ∧ ¬ (r.1 = .directory ↔ r'.1 = .directory)

/-- What the lower layer has under the new name does not matter to an inode of kind
`k`: a directory is not merged with the names of a lower one, and one that the
upper layer cannot see does not have to be refused. -/
structure Beneath (L : LowerTree ι) (s : State ι) (d' : NodeId) (b : Name) (k : FileType) (j : ι) :
    Prop where
  merged : k = .directory → L.kind j = .directory → (∀ n, (L.entries j).lookup n = none) ∨
    ∃ w, upperEntry s.upper (s.nodes d').upper b = some w ∧
      (s.upper.kind w = .directory → ∃ n, s.upper.entry w n ≠ none)
  refused : ¬ (k = .directory ↔ L.kind j = .directory) →
    upperEntry s.upper (s.nodes d').upper b ≠ none ∨
      upperEntry s.upper (s.nodes d').upper (whiteoutName b) ≠ none

structure Movable (L : LowerTree ι) (s : State ι) (d : NodeId) (a : Name) (d' : NodeId) (b : Name) :
    Prop where
  clash : ¬ Clash s d' b
  apart : Apart s d a d' b
  /-- The target is not below the source. -/
  below : ∀ p p', s.nodeAt p = some d → s.nodeAt p' = some d' → ¬ p ++ [a] <+: p'
  source : ∀ k lo up, found L s d a = some (k, lo, up) → Covers L s d a lo
  target : ¬ (d = d' ∧ a = b) → ∀ k lo up j, found L s d a = some (k, lo, up) →
    lowerEntry L (s.nodes d').lower b = some j → Beneath L s d' b k j

section

variable (hm : Moving L s s₁ d a d' c u u') (hC : Coherent L s) (hd : s.Dir d) (hd' : s.Dir d')
  (ha : Plain a) (hb : Plain b) (hM : Movable L s d a d' b)
  (hok : (unmark u' b s₁.upper).rename u a u' b = .ok ((), fs'))

section

variable (hm : Moving L s s₁ d a d' c u u')
include hm

/-- The layer in which the upper rename runs differs by a whiteout. -/
theorem Moving.unmarked : Changes s₁.upper (unmark u' b s₁.upper) u' (whiteoutName b) :=
  unmark_changes hm.target.coherent.sound

theorem Moving.unmarked_entry (hn : Plain n) (w : Ino) :
    (unmark u' b s₁.upper).entry w n = s₁.upper.entry w n :=
  hm.unmarked.entry w n fun h => hn.ne_whiteout b h.2

theorem Moving.accepted
    (hok : (unmark u' b s₁.upper).rename u a u' b = .ok ((), fs')) :
    fs'.Sound ∧ fs'.kind u = .directory := by
  obtain ⟨fs2, h2, h3, -⟩ := hm.edits hok
  have hdir : (unmark u' b s₁.upper).kind u = .directory :=
    (Touches.mark hm.unmarked).dir hm.source.coherent.sound hm.source.dir
  exact ⟨h3.sound, h3.dir h2.sound (h2.dir hm.unmarked.sound hdir)⟩

theorem Moving.differs
    (hok : (unmark u' b s₁.upper).rename u a u' b = .ok ((), fs')) :
    Differs s₁.upper (sourced u a (s₁.nodes c).lower fs') u a u' b := by
  obtain ⟨fs2, h2, h3, h4⟩ := hm.edits hok
  exact differs_of_touches (.mark hm.unmarked) h2 h3 h4

end

theorem sourced_marked {lower : Option ι} (h : fs.Sound) (hu : fs.kind u = .directory)
    (hlow : lower ≠ none) : (sourced u n lower fs).entry u (whiteoutName n) ≠ none := by
  rw [sourced, if_pos (Option.isSome_iff_ne_none.mpr hlow)]
  exact (mark_changes h hu).2

/-- What gave way was of the same sort, and empty, already before the copying. -/
theorem Moving.replaces (hm : Moving L s s₁ d a d' c u u') (hC : Coherent L s) (hd' : s.Dir d')
    (hb : Plain b) (hv : (s₁.nodes c).upper = some v)
    (hmoves : Moves (unmark u' b s₁.upper) fs' u a u' b v)
    (hw : upperEntry s.upper (s.nodes d').upper b = some w) :
    ((s₁.nodes c).kind = .directory ↔ s.upper.kind w = .directory) ∧
      (s.upper.kind w = .directory → ∀ n, s.upper.entry w n = none) := by
  have hC1 := hm.target.coherent
  have hw1 : s₁.upper.entry u' b = some w := by
    have hkept := hm.grew.upperEntry_kept hC hd'.1 hw
    rwa [hm.target.upper] at hkept
  obtain ⟨-, hrep⟩ := hmoves.replaced w ((hm.unmarked_entry hb u').trans hw1)
  have hkv : (unmark u' b s₁.upper).kind v = (s₁.nodes c).kind :=
    (hm.unmarked.kind (hC1.upper_kind hv).1).trans (hC1.upper_kind hv).2
  have hkw : (unmark u' b s₁.upper).kind w = s.upper.kind w := by
    obtain ⟨i, -, hi⟩ := bind_eq_some_iff.mp hw
    exact (hm.unmarked.kind (hC1.sound.held hw1)).trans (hm.grew.kind_kept hC (hC.sound.held hi))
  rw [← hkv, ← hkw]
  refine ⟨hrep.kind, fun hdir n => ?_⟩
  by_contra hne
  obtain ⟨z, hz⟩ := ne_none_iff_exists'.mp hne
  have hself : w ≠ u' := by
    rintro rfl
    obtain ⟨q, hq⟩ := hm.target.attached
    exact hC1.sound.forest.ne_self ((hC1.upper_at hq).symm.trans hm.target.upper) hw1
  have hempty := hrep.empty hdir n
  rw [hm.unmarked.entry w n fun h => hself h.1, hm.grew.entry_kept hC hz] at hempty
  cases hempty

include hm hC hd hd' ha hb hM hok

/-- The two names are one, or the upper entry moved. -/
theorem Moving.ends : ∃ v, (s₁.nodes c).upper = some v ∧
    ((d = d' ∧ a = b ∧ fs'.entry u' b = some v ∧ fs' = unmark u' b s₁.upper) ∨
      (¬ (d = d' ∧ a = b) ∧ Moves (unmark u' b s₁.upper) fs' u a u' b v)) := by
  obtain ⟨v, hv, hent⟩ := hm.source_entry hC hd.1
  refine ⟨v, hv, ?_⟩
  obtain ⟨v', hv', hends⟩ := TmpFs.rename_cases hm.unmarked.sound hok
  rw [hm.unmarked_entry ha, hent] at hv'
  cases hv'
  rcases hends with ⟨hsame, rfl⟩ | hmoves
  · have hsame' := hsame
    rw [hm.unmarked_entry hb] at hsame'
    have hapart := hm.grew.apart hC hd.1 hd'.1 hM.apart v
    rw [hm.source.upper, hm.target.upper] at hapart
    obtain ⟨hdd, hab⟩ := hapart hent hsame'
    exact .inl ⟨hdd, hab, hsame, rfl⟩
  · refine .inr ⟨?_, hmoves⟩
    rintro ⟨rfl, rfl⟩
    obtain rfl : u = u' := Option.mem_unique hm.source.upper hm.target.upper
    exact (hmoves.replaced v hmoves.source).1 rfl

theorem Moving.lands : ∃ v, (s₁.nodes c).upper = some v ∧
    ∃ k lo, merge L (sourced u a (s₁.nodes c).lower fs') (s₁.nodes d').lower (some u') b =
      some (k, lo, some v) ∧ ∀ m, lowerEntry L lo m = none := by
  obtain ⟨v, hv, hends⟩ := hm.ends hC hd hd' ha hb hM hok
  obtain ⟨hsound, hdir⟩ := hm.accepted hok
  have hentry : fs'.entry u' b = some v := by
    rcases hends with ⟨-, -, h, -⟩ | ⟨-, hmoves⟩
    · exact h
    · obtain ⟨-, -, -, -, h⟩ := hmoves.edits
      exact h
  refine ⟨v, hv, merge_lands ?_ fun j hwh hj hkv hkj m => ?_⟩
  · show (sourced u a (s₁.nodes c).lower fs').entry u' b = some v
    rw [(sourced_changes hsound hdir).entry u' b fun h => hb.ne_whiteout a h.2, hentry]
  rw [((hm.grew.grows hC).kept (hC.lt_next hd'.1)).lower] at hj
  obtain ⟨up, hfound⟩ := hm.found
  rcases hends with ⟨rfl, rfl, -, rfl⟩ | ⟨hne, hmoves⟩
  · -- one name: what the lower layer has there is hidden
    exfalso
    obtain rfl : u = u' := Option.mem_unique hm.source.upper hm.target.upper
    by_cases hlow : (s₁.nodes c).lower = none
    · rcases hM.source _ _ _ hfound hlow with hnone | hwhite
      · rw [hnone] at hj
        cases hj
      obtain ⟨w, hw⟩ := ne_none_iff_exists'.mp hwhite
      apply hm.grew.clash hC hd.1 hM.clash
      constructor
      · rw [← (hm.source.coherent.mirror hm.source.attached hm.kid).upper, hv]
        nofun
      · rw [hm.grew.upperEntry_kept hC hd.1 hw]
        nofun
    · exact sourced_marked hsound hdir hlow hwh
  · have hk : (s₁.nodes c).kind = .directory := by
      have hup := hm.source.coherent.upper_kind hv
      rw [← hup.2, ← (hm.differs hok).kind hup.1, hkv]
    rcases (hM.target hne _ _ _ j hfound hj).merged hk hkj with hempty | ⟨w, hw, hfull⟩
    · exact hempty m
    · obtain ⟨hiff, hempty⟩ := hm.replaces hC hd' hb hv hmoves hw
      obtain ⟨n, hn⟩ := hfull (hiff.mp hk)
      exact absurd (hempty (hiff.mp hk) n) hn

/-- The old name is free, and nothing of the lower layer comes back under it. -/
theorem Moving.leaves (hne : ¬ (d = d' ∧ a = b)) :
    (sourced u a (s₁.nodes c).lower fs').entry u a = none ∧
      (lowerEntry L (s₁.nodes d).lower a = none ∨
        (sourced u a (s₁.nodes c).lower fs').entry u (whiteoutName a) ≠ none) := by
  obtain ⟨v, hv, ⟨hdd, hab, -⟩ | ⟨-, hmoves⟩⟩ := hm.ends hC hd hd' ha hb hM hok
  · exact absurd ⟨hdd, hab⟩ hne
  obtain ⟨hsound, hdir⟩ := hm.accepted hok
  obtain ⟨fs2, h2, hgone, h3, -⟩ := hmoves.edits
  have huu : ¬ (u = u' ∧ a = b) := by
    rintro ⟨rfl, hab⟩
    exact hne ⟨hm.target.unique hm.source.attached hm.source.upper, hab⟩
  constructor
  · rw [(sourced_changes hsound hdir).entry u a fun h => ha.ne_whiteout a h.2, h3.entry u a huu, hgone]
  by_cases hlow : (s₁.nodes c).lower = none
  · obtain ⟨up, hfound⟩ := hm.found
    rw [((hm.grew.grows hC).kept (hC.lt_next hd.1)).lower]
    refine (hM.source _ _ _ hfound hlow).imp_right fun hwhite => ?_
    obtain ⟨w, hw⟩ := ne_none_iff_exists'.mp hwhite
    have hkept := hm.grew.upperEntry_kept hC hd.1 hw
    rw [hm.source.upper] at hkept
    change s₁.upper.entry u (whiteoutName a) = some w at hkept
    have hstill : fs'.entry u (whiteoutName a) = some w := by
      rw [h3.entry u _ fun h => hb.ne_whiteout a h.2.symm, h2.entry u _ fun h => ha.ne_whiteout a h.2.symm,
        hm.unmarked.entry u _ fun h => huu ⟨h.1, whiteoutName_inj h.2⟩, hkept]
    rw [hlow, show sourced u a (none : Option ι) fs' = fs' from rfl, hstill]
    nofun
  · exact .inr (sourced_marked hsound hdir hlow)

/-- A directory on the way to the source does not give way to it. -/
theorem Moving.not_over (hne : ¬ (d = d' ∧ a = b)) (hp : s₁.nodeAt p = some d)
    (hp' : s₁.nodeAt p' = some d') : ¬ p' ++ [b] <+: p := by
  obtain ⟨v, hv, ⟨hdd, hab, -⟩ | ⟨-, hmoves⟩⟩ := hm.ends hC hd hd' ha hb hM hok
  · exact absurd ⟨hdd, hab⟩ hne
  rintro ⟨r, rfl⟩
  have hC1 := hm.source.coherent
  have hsrc : walk s₁.upper.entry rootIno (p' ++ [b] ++ r ++ [a]) = some v := by
    have hent : s₁.upper.entry u a = some v := (hm.unmarked_entry ha u).symm.trans hmoves.source
    exact walk_snoc.mpr ⟨u, (hC1.upper_at hp).symm.trans hm.source.upper, hent⟩
  have htgt : walk s₁.upper.entry rootIno p' = some u' :=
    (hC1.upper_at hp').symm.trans hm.target.upper
  have hplain : PlainPath (p' ++ [b] ++ r ++ [a]) := plain_concat (hC1.plain_path hp) ha
  rw [append_assoc, walk_append] at hsrc
  obtain ⟨ex, hex, hrest⟩ := bind_eq_some_iff.mp hsrc
  obtain ⟨i, hi, hib⟩ := walk_snoc.mp hex
  obtain rfl : i = u' := Option.mem_unique hi htgt
  obtain ⟨-, hrep⟩ := hmoves.replaced ex ((hm.unmarked_entry hb i).trans hib)
  -- the way goes on below the entry, so that is a directory that is not empty
  cases hr : r ++ [a] with
  | nil => simp at hr
  | cons m r' =>
    rw [hr] at hrest
    obtain ⟨z, hz, -⟩ := bind_eq_some_iff.mp hrest
    have hm' : Plain m := by
      apply hplain
      rw [append_assoc, hr]
      simp
    have hkind : (unmark i b s₁.upper).kind ex = .directory :=
      (hm.unmarked.kind (hC1.sound.held hib)).trans (hC1.sound.forest.inner hz)
    have hempty := hrep.empty hkind m
    rw [hm.unmarked_entry hm', hz] at hempty
    cases hempty

/-- What the overlay shows after a rename that returned. -/
theorem Moving.moved (hp : s.nodeAt p = some d) (hp' : s.nodeAt p' = some d') :
    (∀ q, PlainPath q →
      view L (s₁.renamed (sourced u a (s₁.nodes c).lower fs') d a d' b) (p' ++ b :: q) =
        view L s (p ++ a :: q)) ∧
    (¬ (d = d' ∧ a = b) →
      view L (s₁.renamed (sourced u a (s₁.nodes c).lower fs') d a d' b) (p ++ [a]) = none) ∧
    ∀ q, PlainPath q → ¬ p ++ [a] <+: q → ¬ p' ++ [b] <+: q →
      view L (s₁.renamed (sourced u a (s₁.nodes c).lower fs') d a d' b) q = view L s q := by
  have hdiff := hm.differs hok
  have hp1 := (hm.grew.grows hC).nodeAt hp
  have hp1' := (hm.grew.grows hC).nodeAt hp'
  refine ⟨fun q hq => ?_, fun hne => ?_, fun q hq hoff hoff' => ?_⟩
  · obtain ⟨v, hv, hland⟩ := hm.lands hC hd hd' ha hb hM hok
    rw [← hm.grew.view_eq hC]
    exact view_target hm.source hm.target ha hb hp1 hp1' hdiff (hm.full p hp) (hM.below p p' hp hp')
      hm.kid hv hland hq
  · obtain ⟨hgone, hcover⟩ := hm.leaves hC hd hd' ha hb hM hok hne
    exact view_source hm.source hm.target ha hb hp1 hp1' hdiff
      (hm.not_over hC hd hd' ha hb hM hok hne hp1 hp1') hgone hcover
  · rw [← hm.grew.view_eq hC]
    exact view_renamed hm.source hm.target ha hb hp1 hp1' hdiff hq hoff hoff'

/-- What was under the new name was of the same sort as the source, and empty. -/
theorem Moving.gives_way (hne : ¬ (d = d' ∧ a = b)) (hp' : s.nodeAt p' = some d')
    (hx : find L s (p' ++ [b]) = some x) {k : FileType}
    (hup : ∀ w, s.upperAt x = some w → s.upper.kind w = k) (hlo : ∀ j, s.lowerAt x = some j → L.kind j = k) :
    ((s₁.nodes c).kind = .directory ↔ k = .directory) ∧
      ∀ n, ¬ Visible L s.upper (s.lowerAt x) (s.upperAt x) n := by
  obtain ⟨v, hv, ⟨hdd, hab, -⟩ | ⟨-, hmoves⟩⟩ := hm.ends hC hd hd' ha hb hM hok
  · exact absurd ⟨hdd, hab⟩ hne
  obtain ⟨up, hfound⟩ := hm.found
  have hlook : look L s (.node d') b = some x := by rw [← find_concat (find_nodeAt hp'), hx]
  have hmir : Mirrors L s.upper (s.nodes d').lower (s.nodes d').upper b (s.lowerAt x) (s.upperAt x) :=
    hC.mirror_look (find_nodeAt hp') hlook
  have hbeneath : ∀ j, s.lowerAt x = some j → Beneath L s d' b (s₁.nodes c).kind j := fun j hj =>
    hM.target hne _ _ _ j hfound (hmir.lower j hj)
  -- the names of a lower directory, which the upper rename does not see
  have hlower : ((s₁.nodes c).kind = .directory ↔ k = .directory) →
      (∀ w, s.upperAt x = some w → s.upper.kind w = .directory → ∀ n, s.upper.entry w n = none) →
      ∀ n, lowerEntry L (s.lowerAt x) n = none := by
    intro hiff hempty n
    by_contra hn
    obtain ⟨i, hi⟩ := ne_none_iff_exists'.mp hn
    obtain ⟨j, hj, hji⟩ := bind_eq_some_iff.mp hi
    have hdir : L.kind j = .directory := L.only_dirs j n (by rw [hji]; nofun)
    have hk : (s₁.nodes c).kind = .directory := hiff.mpr ((hlo j hj).symm.trans hdir)
    rcases (hbeneath j hj).merged hk hdir with hnone | ⟨w, hw, hfull⟩
    · rw [hnone n] at hji
      cases hji
    have hxw : s.upperAt x = some w := hmir.upper.trans hw
    have hwdir : s.upper.kind w = .directory := (hup w hxw).trans ((hlo j hj).symm.trans hdir)
    obtain ⟨m, hmw⟩ := hfull hwdir
    exact hmw (hempty w hxw hwdir m)
  cases ho : s.upperAt x with
  | some w =>
    obtain ⟨hiff, hempty⟩ := hm.replaces hC hd' hb hv hmoves (hmir.upper.symm.trans ho)
    rw [hup w ho] at hiff
    refine ⟨hiff, ?_⟩
    rintro n (hn | ⟨-, hn⟩)
    · obtain ⟨z, hz⟩ := ne_none_iff_exists'.mp hn
      exact hn (hempty (hC.sound.forest.inner hz) n)
    refine hn (hlower hiff (fun w' hw' hdir => ?_) n)
    rw [ho] at hw'
    cases hw'
    exact hempty hdir
  | none =>
    obtain ⟨hwh, hsome⟩ := hmir.bare ho
    obtain ⟨j, hj⟩ := ne_none_iff_exists'.mp hsome
    have hiff : (s₁.nodes c).kind = .directory ↔ k = .directory := by
      rw [← hlo j hj]
      by_contra hcon
      rcases (hbeneath j hj).refused hcon with h | h
      · exact h (hmir.upper.symm.trans ho)
      · exact h hwh
    refine ⟨hiff, ?_⟩
    rintro n (hn | ⟨-, hn⟩)
    · exact hn rfl
    · refine hn (hlower hiff (fun w' hw' => ?_) n)
      rw [ho] at hw'
      cases hw'

theorem Moving.not_barred (hL : L.Fits) (hne : ¬ (d = d' ∧ a = b)) (hp : s.nodeAt p = some d)
    (hp' : s.nodeAt p' = some d') : ¬ Barred L s (p ++ [a]) (p' ++ [b]) := by
  have hplain : PlainPath (p ++ [a]) := plain_concat (hC.plain_path hp) ha
  have hplain' : PlainPath (p' ++ [b]) := plain_concat (hC.plain_path hp') hb
  rintro (⟨l, hl, hsome⟩ | ⟨r, r', hr, hr', hmixed⟩)
  · rw [lists_eq hC hplain'] at hl
    obtain ⟨x, hx, hlist⟩ := Option.map_eq_some_iff.mp hl
    obtain ⟨hup, hlo⟩ := listing_ok hlist
    obtain ⟨l', hl', hmem⟩ := listing_spec hL hup hlo
    rw [hlist] at hl'
    cases hl'
    obtain ⟨n, hn⟩ := exists_mem_of_ne_nil l hsome
    exact (hm.gives_way hC hd hd' ha hb hM hok hne hp' hx hup hlo).2 n ((hmem n).mp hn).2
  rw [shows_eq_view hC hplain] at hr
  rw [shows_eq_view hC hplain'] at hr'
  obtain ⟨x', hx', hshown'⟩ := bind_eq_some_iff.mp hr'
  obtain ⟨hup, hlo⟩ := hC.shown_kind hx' hshown'
  have hiff := (hm.gives_way hC hd hd' ha hb hM hok hne hp' hx' hup hlo).1
  -- the source has the kind of the node that was copied up
  have hC1 := hm.source.coherent
  have hc : s₁.nodeAt (p ++ [a]) = some c :=
    walk_snoc.mpr ⟨d, (hm.grew.grows hC).nodeAt hp, hm.kid⟩
  have hview : view L s₁ (p ++ [a]) = some r := (hm.grew.view_eq hC _).trans hr
  rw [view, find_nodeAt hc] at hview
  obtain ⟨v, hv, -⟩ := hm.source_entry hC hd.1
  have hkind := (hC1.shown_kind (find_nodeAt hc) hview).1 v hv
  rw [(hC1.upper_kind hv).2] at hkind
  rw [hkind] at hiff
  exact hmixed hiff

end

section

variable (hL : L.Fits) (hC : Coherent L s) (hd : s.Dir d) (hd' : s.Dir d') (ha : Plain a) (hb : Plain b)
  (hM : Movable L s d a d' b)

include hL hC hd hd' ha hb hM

/-- A rename that returns has moved the subtree and nothing else. -/
theorem rename_ok_shows (depth : Nat) (hp : s.nodeAt p = some d) (hp' : s.nodeAt p' = some d')
    (hrun : rename L depth d a d' b s = .ok () s') :
    (∀ q, PlainPath q → shows L s' (p' ++ b :: q) = shows L s (p ++ a :: q)) ∧
    (¬ (d = d' ∧ a = b) → shows L s' (p ++ [a]) = none) ∧
    ∀ q, PlainPath q → ¬ p ++ [a] <+: q → ¬ p' ++ [b] <+: q → shows L s' q = shows L s q := by
  have hC' : Coherent L s' := by
    have h := rename_coherent hL depth hC hd hd' ha hb
    rw [hrun] at h
    exact h
  have hplain := hC.plain_path hp
  have hplain' := hC.plain_path hp'
  rcases rename_cases hL depth hC hd hd' ha with ⟨-, hr⟩ | ⟨s₁, -, hr, -⟩ |
    ⟨c, u, u', s₁, hm, ⟨fs', hok, hr⟩ | ⟨e, -, hr⟩⟩
  · rw [hr] at hrun
    cases hrun
  · rw [hr] at hrun
    cases hrun
  · rw [hr] at hrun
    cases hrun
    obtain ⟨htarget, hsource, hother⟩ := hm.moved hC hd hd' ha hb hM hok hp hp'
    refine ⟨fun q hq => ?_, fun hne => ?_, fun q hq hoff hoff' => ?_⟩
    · rw [shows_eq_view hC' (plain_append hplain' (plain_cons hb hq)),
        shows_eq_view hC (plain_append hplain (plain_cons ha hq))]
      exact htarget q hq
    · rw [shows_eq_view hC' (plain_concat hplain ha)]
      exact hsource hne
    · rw [shows_eq_view hC' hq, shows_eq_view hC hq]
      exact hother q hq hoff hoff'
  · rw [hr] at hrun
    cases hrun

/-- A rename that fails has changed nothing that is shown. -/
theorem rename_error_shows (depth : Nat) {e : Stop} (hrun : rename L depth d a d' b s = .error e s')
    (hq : PlainPath q) : shows L s' q = shows L s q := by
  have hC' : Coherent L s' := by
    have h := rename_coherent hL depth hC hd hd' ha hb
    rw [hrun] at h
    exact h
  rw [shows_eq_view hC' hq, shows_eq_view hC hq]
  rcases rename_cases hL depth hC hd hd' ha with ⟨-, hr⟩ | ⟨s₁, hg, hr, -⟩ |
    ⟨c, u, u', s₁, hm, ⟨fs', hok, hr⟩ | ⟨e', herr, hr⟩⟩
  · rw [hr] at hrun
    cases hrun
    rfl
  · rw [hr] at hrun
    cases hrun
    exact hg.view_eq hC q
  · rw [hr] at hrun
    cases hrun
  · rw [hr] at hrun
    cases hrun
    -- an entry that was in the way, so there was no whiteout to take away
    obtain ⟨v, -, hent⟩ := hm.source_entry hC hd.1
    have hdir : (unmark u' b s₁.upper).kind u' = .directory :=
      (Touches.mark hm.unmarked).dir hm.target.coherent.sound hm.target.dir
    obtain ⟨ex, hex, -⟩ := rename_error ((hm.unmarked_entry ha u).trans hent) hdir herr
    rw [hm.unmarked_entry hb] at hex
    have hfree : s₁.upper.entry u' (whiteoutName b) = none := by
      by_contra hne
      apply hm.grew.clash hC hd'.1 hM.clash
      rw [Clash, hm.target.upper]
      refine ⟨?_, hne⟩
      rw [upperEntry, bind_some, hex]
      exact Option.some_ne_none _
    rw [unmark_free hfree]
    exact hm.grew.view_eq hC q

/-- A rename onto what may not be replaced fails. -/
theorem rename_barred (hp : s.nodeAt p = some d) (hp' : s.nodeAt p' = some d')
    (hne : ¬ (d = d' ∧ a = b)) (hbar : Barred L s (p ++ [a]) (p' ++ [b])) :
    (∀ depth s', rename L depth d a d' b s ≠ .ok () s') ∧
      ∃ k, ∀ depth, k ≤ depth → ∃ e s', rename L depth d a d' b s = .error (.errno e) s' := by
  have hcases : ∀ depth, (∃ e s', rename L depth d a d' b s = .error (.errno e) s') ∨
      ((∃ s', rename L depth d a d' b s = .error .endless s') ∧ ¬ Shallow L s (p ++ [a]) depth) := by
    intro depth
    rcases rename_cases hL depth hC hd hd' ha with ⟨-, hr⟩ | ⟨s₁, -, hr, hdeep⟩ |
      ⟨c, u, u', s₁, hm, ⟨fs', hok, -⟩ | ⟨e, -, hr⟩⟩
    · exact .inl ⟨_, _, hr⟩
    · exact .inr ⟨⟨s₁, hr⟩, hdeep p hp⟩
    · exact absurd hbar (hm.not_barred hC hd hd' ha hb hM hok hL hne hp hp')
    · exact .inl ⟨e, _, hr⟩
  constructor
  · intro depth s' hrun
    rcases hcases depth with ⟨e, s₁, hr⟩ | ⟨⟨s₁, hr⟩, -⟩
    · rw [hr] at hrun
      cases hrun
    · rw [hr] at hrun
      cases hrun
  · obtain ⟨k, hk⟩ := hC.shallow (p ++ [a])
    exact ⟨k, fun depth hdepth => (hcases depth).resolve_right fun h => h.2 (hk depth hdepth)⟩

end

/-- In every state that a run reaches, a rename between names that the layers keep
apart acts like one in a single tree. -/
theorem rename_like_tree (hL : L.Fits) {ops : List Op} {s : State ι}
    (hrun : runs (step L) ops (State.fresh L) = some s)
    (htidy : Throughout (step L) (fun t op => op.Tidy t) ops (State.fresh L)) {d d' : NodeId} {a b : Name}
    (hd : s.Dir d) (hd' : s.Dir d') (ha : Plain a) (hb : Plain b) (hM : Movable L s d a d' b)
    {p p' : List Name} (hp : s.nodeAt p = some d) (hp' : s.nodeAt p' = some d') :
    (∀ depth s', rename L depth d a d' b s = .ok () s' →
      (∀ q, PlainPath q → shows L s' (p' ++ b :: q) = shows L s (p ++ a :: q)) ∧
      (¬ (d = d' ∧ a = b) → shows L s' (p ++ [a]) = none) ∧
      ∀ q, PlainPath q → ¬ p ++ [a] <+: q → ¬ p' ++ [b] <+: q → shows L s' q = shows L s q) ∧
    (∀ depth e s', rename L depth d a d' b s = .error e s' →
      ∀ q, PlainPath q → shows L s' q = shows L s q) ∧
    (¬ (d = d' ∧ a = b) → Barred L s (p ++ [a]) (p' ++ [b]) →
      (∀ depth s', rename L depth d a d' b s ≠ .ok () s') ∧
        ∃ k, ∀ depth, k ≤ depth → ∃ e s', rename L depth d a d' b s = .error (.errno e) s') := by
  have hC : Coherent L s := throughout_last
    (fun _ _ _ h ht hs => step_coherent hL h ht hs) coherent_fresh htidy hrun
  exact ⟨fun depth _ => rename_ok_shows hL hC hd hd' ha hb hM depth hp hp',
    fun depth _ _ h _ => rename_error_shows hL hC hd hd' ha hb hM depth h,
    fun hne => rename_barred hL hC hd hd' ha hb hM hp hp' hne⟩

/-- A file of the image gets a new name. -/
theorem rename_like_tree_image : ∃ s', rename image 2 rootId nameF rootId nameG (State.fresh image) =
      .ok () s' ∧ shows image s' [nameG] = shows image (State.fresh image) [nameF] ∧
    shows image s' [nameF] = none ∧
    shows image s' [nameD, nameF] = shows image (State.fresh image) [nameD, nameF] := by
  have hok : (Op.rename 2 rootId nameF rootId nameG).succeeds image (fresh image) = true := by
    decide +kernel
  have hdir : (fresh image).Dir rootId := ⟨attached_root, rfl⟩
  have hroot : (fresh image).nodeAt [] = some rootId := rfl
  have : found image (fresh image) rootId nameF = some (.regular, some 1, none) := rfl
  have hmovable : Movable image (fresh image) rootId nameF rootId nameG := by
    refine ⟨fun h => h.1 (by decide), (fun v hv => by cases hv), fun p p' hp hp' hbelow => ?_, ?_, ?_⟩
    · have hC : Coherent image (fresh image) := coherent_fresh
      obtain rfl := hC.nodeAt_unique hp hroot
      obtain rfl := hC.nodeAt_unique hp' hroot
      exact absurd hbelow (by decide)
    · intro k lo up h
      cases h
      intro h
      cases h
    · intro _ k lo up j _ hj
      have hnone : lowerEntry image (some 0) nameG = none := by decide
      cases hnone.symm.trans hj
  cases hrun : rename image 2 rootId nameF rootId nameG (fresh image) with
  | error e s' =>
    simp only [Op.succeeds, Op.run, hrun, Bool.false_eq_true] at hok
  | ok _ s' =>
    have hnil : runs (step image) [] (fresh image) = some (fresh image) := rfl
    obtain ⟨hmoved, -⟩ := rename_like_tree image_fits hnil trivial hdir hdir (by decide) (by decide)
      hmovable hroot hroot
    have hplain : ∀ n ∈ [nameD, nameF], Plain n := by decide
    obtain ⟨htarget, hsource, hother⟩ := hmoved 2 s' hrun
    exact ⟨s', rfl, htarget [] (forall_mem_nil _), hsource (by decide), hother [nameD, nameF] hplain (by decide)
      (by decide)⟩

/-- An empty directory takes the place of one of the image that is not empty, and
shows its file. -/
theorem rename_merges : ∃ s s', runs (step image) [.create rootId nameG .directory {}] (State.fresh image) =
      some s ∧ shows image s [nameG, nameF] = none ∧ shows image s [nameE, nameF] = some (.regular, [5]) ∧
    (Op.rename 2 rootId nameG rootId nameE).succeeds image s = true ∧
    step image (.rename 2 rootId nameG rootId nameE) s = some s' ∧
    shows image s' [nameE, nameF] = some (.regular, [5]) := by
  have h : ((runs (step image) [.create rootId nameG .directory {}] (fresh image)).bind fun s =>
      (step image (.rename 2 rootId nameG rootId nameE) s).map fun s' =>
        decide (shows image s [nameG, nameF] = none ∧ shows image s [nameE, nameF] = some (.regular, [5]) ∧
          (Op.rename 2 rootId nameG rootId nameE).succeeds image s = true ∧
          shows image s' [nameE, nameF] = some (.regular, [5]))) = some true := by
    decide +kernel
  obtain ⟨s, hs, h⟩ := bind_eq_some_iff.mp h
  obtain ⟨s', hs', h⟩ := Option.map_eq_some_iff.mp h
  obtain ⟨hnew, hold, hok, hmerged⟩ := of_decide_eq_true h
  exact ⟨s, s', hs, hnew, hold, hok, hs', hmerged⟩

end Fastros.Overlay
