import Fastros.Fs.OverlayCalls

/-!
# Removal from an overlay

A removed name is hidden: its directory has no upper entry and no cached child
for it, and a whiteout covers what the lower layer has. The calls keep it hidden
until one of them makes the name again.
-/

namespace Fastros.Overlay

open Fs Tmpfs Tmpfs.TmpFs Lib.Stateful Lib.Walk Lib.Run State

variable {ι : Type} {L : LowerTree ι} {s s' s1 : State ι} {p c d e : NodeId} {n m : Name} {u w : Ino}
  {fs' : TmpFs}
variable {kind : FileType}

/-- Neither layer shows the name, nor does the cache. -/
structure Hidden (L : LowerTree ι) (s : State ι) (d : NodeId) (n : Name) (u : Ino) : Prop where
  upper : (s.nodes d).upper = some u
  kid : s.kid d n = none
  entry : s.upper.entry u n = none
  covered : s.upper.entry u (whiteoutName n) ≠ none ∨ lowerEntry L (s.nodes d).lower n = none

section

variable (h : Hidden L s d n u)
include h

theorem Hidden.invisible : ¬ Visible L s.upper (s.nodes d).lower (s.nodes d).upper n := by
  rw [h.upper]
  rintro (hu | ⟨hw, hl⟩)
  · exact hu h.entry
  · exact h.covered.elim (fun h => h hw) hl

theorem Hidden.merge : merge L s.upper (s.nodes d).lower (s.nodes d).upper n = none :=
  not_ne_iff.mp (mt merge_ne_none.mp h.invisible)

theorem Hidden.found : found L s d n = none := by
  rw [Overlay.found, h.kid, h.merge]

/-- A hidden name is not found and not listed. -/
theorem Hidden.absent (hL : L.Fits) (hC : Coherent L s) (hd : s.Dir d) (hn : Plain n) :
    child L d n s = .error (.errno .enoent) s ∧ ∃ l, names L s d = .ok l ∧ n ∉ l := by
  constructor
  · rcases child_cases hn.1 with ⟨k, hk, -⟩ | ⟨-, -, hr⟩ | ⟨kind, lower, upper, -, hm, -⟩
    · rw [h.kid] at hk
      cases hk
    · exact hr
    · rw [h.merge] at hm
      cases hm
  · obtain ⟨l, hl, hmem⟩ := listing_spec hL (fun v hv => ((hC.upper_kind hv).2).trans hd.2)
      (fun j hj => (hC.lower_kind hj).trans hd.2)
    exact ⟨l, hl, fun hin => h.invisible ((hmem n).mp hin).2⟩

theorem Hidden.congr (hup : (s'.nodes d).upper = (s.nodes d).upper)
    (hlo : (s'.nodes d).lower = (s.nodes d).lower) (hkid : s'.kid d n = none)
    (he : s'.upper.entry u n = s.upper.entry u n)
    (hw : s'.upper.entry u (whiteoutName n) = s.upper.entry u (whiteoutName n)) :
    Hidden L s' d n u :=
  ⟨hup.trans h.upper, hkid, he.trans h.entry, by rw [hw, hlo]; exact h.covered⟩

theorem Hidden.edit (hC : Coherent L s) (hd : s.Attached d)
    (he : Edit L s s') : Hidden L s' d n u := by
  have hdn : d ≠ s.next := ne_of_lt (hC.lt_next hd)
  cases he with
  | @cache p m kind lower upper hp hm hfree hmerge =>
    have hne : ¬ (d = p ∧ n = m) := by
      rintro ⟨rfl, rfl⟩
      rw [h.merge] at hmerge
      cases hmerge
    refine h.congr (addNode_upper hdn) (addNode_kept hdn).lower ?_ rfl rfl
    rw [addNode_kid_ne hdn hne, h.kid]
  | @copy p m c w j fs' hp hc hbare hj hw ht =>
    have hdc : d ≠ c := by
      rintro rfl
      rw [h.upper] at hbare
      cases hbare
    refine h.congr (setUpper_ne hdc) (setUpper_kept d).lower ?_ (ht.changes.entry u n ?_)
      (ht.changes.entry u _ ?_)
    · rw [setUpper_kid]
      exact h.kid
    · rintro ⟨rfl, rfl⟩
      obtain rfl := hC.node_unique hp hd hw h.upper ht.dir
      rw [h.kid] at hc
      cases hc
    · rintro ⟨-, hk⟩
      exact (hC.linked hc).2.2.2.2.ne_whiteout n hk.symm

theorem Hidden.grew (hC : Coherent L s) (hd : s.Attached d)
    (hg : Grew L s s') : Hidden L s' d n u :=
  (hg.keeps (P := fun t => t.Attached d ∧ Hidden L t d n u)
    (fun _ _ ht hp he => ⟨(he.grows ht).attached hp.1, hp.2.edit ht hp.1 he⟩) hC ⟨hd, h⟩).2

/-- An edit of another name, with or without its cached child. -/
theorem Hidden.touch (hr : Ready L s e w) (hd : s.Attached d) (hn : Plain n)
    (hm : Plain m) (hne : ¬ (e = d ∧ m = n)) (ht : Touches s.upper fs' w m) :
    Hidden L { s with upper := fs' } d n u := by
  obtain ⟨he, hw⟩ := hr.other_entries hd h.upper hn hm hne ht
  exact h.congr rfl rfl h.kid he hw

theorem Hidden.forget : Hidden L (s.forget e m) d n u := by
  refine h.congr (forget_upper d) (forget_kept d).lower ?_ rfl rfl
  cases hk : (s.forget e m).kid d n with
  | none => rfl
  | some c =>
    rw [← kid_of_forget hk, h.kid]

theorem Hidden.addNode {lower : Option ι} {upper : Option Ino}
    (hd : d ≠ s.next) (hne : ¬ (e = d ∧ m = n)) : Hidden L (s.addNode e m lower upper kind) d n u := by
  refine h.congr (addNode_upper hd) (addNode_kept hd).lower ?_ rfl rfl
  rw [addNode_kid_ne hd fun hk => hne ⟨hk.1.symm, hk.2.symm⟩, h.kid]

end

/-- As long as the directory is in the tree, the name is hidden in it. -/
def Gone (L : LowerTree ι) (d : NodeId) (n : Name) (s : State ι) : Prop :=
  d < s.next ∧ (s.nodes d).kind = .directory ∧ (s.Attached d → ∃ u, Hidden L s d n u)

/-- Growing brings no old node back into the tree. -/
theorem Grew.attached_back (hC : Coherent L s) (hd : d < s.next) (hg : Grew L s s')
    (h : s'.Attached d) : s.Attached d := by
  refine (hg.keeps (P := fun t => s.next ≤ t.next ∧ (t.Attached d → s.Attached d))
    (fun t t' ht hp he => ?_) hC ⟨le_rfl, id⟩).2 h
  refine ⟨le_trans hp.1 (he.grows ht).next, fun hd' => hp.2 ?_⟩
  cases he with
  | cache hp' hm hfree hmerge =>
    exact (attached_of_addNode hp' hd').resolve_right (ne_of_lt (lt_of_lt_of_le hd hp.1))
  | copy =>
    obtain ⟨q, hq⟩ := hd'
    rw [nodeAt, setUpper_kid] at hq
    exact ⟨q, hq⟩

theorem Gone.grew (hC : Coherent L s) (h : Gone L d n s) (hg : Grew L s s') : Gone L d n s' := by
  refine ⟨lt_of_lt_of_le h.1 (hg.grows hC).next, ((hg.grows hC).kept h.1).kind.trans h.2.1,
    fun hd' => ?_⟩
  have hd : s.Attached d := hg.attached_back hC h.1 hd'
  obtain ⟨u, hu⟩ := h.2.2 hd
  exact ⟨u, hu.grew hC hd hg⟩

theorem Gone.touch (h : Gone L d n s) (hr : Ready L s e w) (hn : Plain n) (hm : Plain m)
    (hne : ¬ (e = d ∧ m = n)) (ht : Touches s.upper fs' w m) : Gone L d n { s with upper := fs' } := by
  refine ⟨h.1, h.2.1, fun hd => ?_⟩
  obtain ⟨u, hu⟩ := h.2.2 hd
  exact ⟨u, hu.touch hr hd hn hm hne ht⟩

theorem Gone.forget (h : Gone L d n s) (e : NodeId) (m : Name) : Gone L d n (s.forget e m) := by
  refine ⟨h.1, (forget_kept d).kind.trans h.2.1, fun hd => ?_⟩
  obtain ⟨u, hu⟩ := h.2.2 (attached_of_forget hd)
  exact ⟨u, hu.forget⟩

theorem Gone.addNode (h : Gone L d n s) {lower : Option ι} {upper : Option Ino}
    (he : e < s.next) (hne : ¬ (e = d ∧ m = n)) : Gone L d n (s.addNode e m lower upper kind) := by
  have hd : d ≠ s.next := ne_of_lt h.1
  refine ⟨Nat.lt_succ_of_lt h.1, (addNode_kept hd).kind.trans h.2.1, fun hd' => ?_⟩
  obtain ⟨u, hu⟩ := h.2.2 ((attached_of_addNode he hd').resolve_right hd)
  exact ⟨u, hu.addNode hd hne⟩

theorem Gone.rewrite {v : Ino} (h : Gone L d n s) (hr : Rewrites s.upper fs' v) :
    Gone L d n { s with upper := fs' } := by
  refine ⟨h.1, h.2.1, fun hd => ?_⟩
  obtain ⟨u, hu⟩ := h.2.2 hd
  exact ⟨u, hu.congr rfl rfl hu.kid (hr.entry u n) (hr.entry u _)⟩

/-- In a directory that is ready, a name that is gone is free. -/
theorem Gone.free (h : Gone L d n s) (hr : Ready L s d w) : s.upper.entry w n = none := by
  obtain ⟨u, hu⟩ := h.2.2 hr.attached
  obtain rfl := Option.mem_unique hr.upper hu.upper
  exact hu.entry

/-- `f` fails only on a name that is taken. -/
def Taken (f : TmpFs → Ino → Except Errno (Ino × TmpFs)) (n : Name) : Prop :=
  ∀ {fs u e}, fs.Sound → fs.kind u = .directory → f fs u = .error e → fs.entry u n ≠ none

theorem unmark_entry (h : s.upper.Sound) (hm : Plain m) (w : Ino) :
    (unmark w n s.upper).entry w m = s.upper.entry w m :=
  (unmark_changes h).entry w m fun hk => hm.ne_whiteout n hk.2

/-- A call that fails on a taken name has only taken its mark away. -/
theorem Gone.unmark (h : Gone L d n s) (hr : Ready L s e w) (hn : Plain n) (hm : Plain m)
    (htaken : (unmark w m s.upper).entry w m ≠ none) :
    Gone L d n { s with upper := unmark w m s.upper } := by
  by_cases hsame : e = d ∧ m = n
  · -- the hidden name is free
    obtain ⟨rfl, rfl⟩ := hsame
    have hfree := h.free hr
    rw [← unmark_entry (n := m) hr.coherent.sound hm w] at hfree
    exact absurd hfree htaken
  · exact h.touch hr hn hm hsame (.mark (unmark_changes hr.coherent.sound))

theorem make_gone {f : TmpFs → Ino → Except Errno (Ino × TmpFs)}
    (hf : Creates f m kind) (htaken : Taken f m) (hC : Coherent L s) (he : s.Dir e) (hm : Plain m)
    (hn : Plain n) (h : Gone L d n s) (hno : e = d ∧ m = n → ∀ k t, make L f e m kind s ≠ .ok k t) :
    Gone L d n (stateOf (make L f e m kind s)) := by
  obtain ⟨u, s1, hg, hready, -, hend⟩ := make_cases f m kind hC he
  have h1 := h.grew hC hg
  have hch := unmark_changes (u := u) (n := m) hready.coherent.sound
  have hdir : (unmark u m s1.upper).kind u = .directory :=
    (Touches.mark hch).dir hready.coherent.sound hready.dir
  rcases hend with ⟨v, fs', hok, hrun⟩ | ⟨err, hbad, hrun⟩
  · by_cases hsame : e = d ∧ m = n
    · exact absurd hrun (hno hsame _ _)
    rw [hrun]
    obtain ⟨-, x, -, ha⟩ := hf hch.sound (hch.sound.made hdir) hok
    have ht := (Touches.mark hch).trans (.name ha.changes)
    exact (h1.touch hready hn hm hsame ht).addNode (hready.coherent.lt_next hready.attached) hsame
  · rw [hrun]
    exact h1.unmark hready hn hm (htaken hch.sound hdir hbad)

theorem link_gone (hL : L.Fits) (hC : Coherent L s) (he : s.Dir e) (hm : Plain m) (hn : Plain n)
    {t : NodeId} (ht : s.Live t) (hlt : t < s.next) (hkind : (s.nodes t).kind ≠ .directory)
    (h : Gone L d n s) (hno : e = d ∧ m = n → ∀ k s2, link L e m t s ≠ .ok k s2) :
    Gone L d n (stateOf (link L e m t s)) := by
  obtain ⟨u, v, s1, hg, hready, hv, hend⟩ := link_cases hL m hC he ht hlt
  have h1 := h.grew hC hg
  have hch := unmark_changes (u := u) (n := m) hready.coherent.sound
  have hvlt := (hready.coherent.upper_kind hv).1
  rcases hend with ⟨fs', hok, hrun⟩ | ⟨err, hbad, hrun⟩
  · by_cases hsame : e = d ∧ m = n
    · exact absurd hrun (hno hsame _ _)
    · rw [hrun]
      obtain ⟨hl, -⟩ := link_changes hch.sound (lt_of_lt_of_le hvlt hch.next) hok
      exact (h1.touch hready hn hm hsame ((Touches.mark hch).trans (.name hl))).forget e m
  · rw [hrun]
    refine h1.unmark hready hn hm (link_taken ?_ ?_ hbad)
    · exact (Touches.mark hch).dir hready.coherent.sound hready.dir
    · rw [hch.kind hvlt, (hready.coherent.upper_kind hv).2, ((hg.grows hC).kept hlt).kind]
      exact hkind

variable {drop : TmpFs → Ino → Name → Except Errno (Unit × TmpFs)}

/-- A removal of another name; the hidden one is not found. -/
theorem Removing.gone (hdrop : Drops drop)
    (hC : Coherent L s) (hr : Removing L s s1 e m c w) (he : s.Dir e) (hm : Plain m) (hn : Plain n)
    (h : Gone L d n s) : Gone L d n (s1.without drop e m c w) := by
  have hne : ¬ (e = d ∧ m = n) := by
    rintro ⟨rfl, rfl⟩
    obtain ⟨u, hu⟩ := h.2.2 he.1
    exact absurd hr.found (by rw [hu.found]; nofun)
  have ht : Touches s1.upper (removed drop w m (s1.nodes c).lower (s1.nodes c).upper s1.upper) w m :=
    removed_touches hdrop hr.ready.coherent.sound hr.ready.dir
  exact ((h.grew hC hr.grew).touch hr.ready hn hm hne ht).forget e m

theorem rename_gone (hL : L.Fits) (depth : Nat) {d1 d2 : NodeId} {a b : Name} (hC : Coherent L s)
    (hd1 : s.Dir d1) (hd2 : s.Dir d2) (ha : Plain a) (hb : Plain b) (hn : Plain n) (h : Gone L d n s)
    (hno : d2 = d ∧ b = n → ∀ k t, rename L depth d1 a d2 b s ≠ .ok k t) :
    Gone L d n (stateOf (rename L depth d1 a d2 b s)) := by
  rcases rename_cases hL depth hC hd1 hd2 ha with ⟨-, hrun⟩ | ⟨s1, hg, hrun, -⟩ |
    ⟨c, u, u', s1, hm, hend⟩
  · rw [hrun]
    exact h
  · rw [hrun]
    exact h.grew hC hg
  have h1 := h.grew hC hm.grew
  have hch := unmark_changes (u := u') (n := b) hm.target.coherent.sound
  have hne : ¬ (d1 = d ∧ a = n) := by
    rintro ⟨rfl, rfl⟩
    obtain ⟨v, hv⟩ := h.2.2 hd1.1
    obtain ⟨up, hfound⟩ := hm.found
    rw [hv.found] at hfound
    cases hfound
  rcases hend with ⟨fs', hok, hrun⟩ | ⟨err, hbad, hrun⟩
  · by_cases hsame : d2 = d ∧ b = n
    · exact absurd hrun (hno hsame _ _)
    rw [hrun]
    obtain ⟨fs2, h2, h3, h4⟩ := hm.edits hok
    have hedited : Gone L d n { s1 with upper := sourced u a (s1.nodes c).lower fs' } := by
      refine ⟨h1.1, h1.2.1, fun hd => ?_⟩
      obtain ⟨v, hv⟩ := h1.2.2 hd
      obtain ⟨he1, hw1⟩ := hm.target.other_entries hd hv.upper hn hb hsame (.mark hch)
      obtain ⟨he2, hw2⟩ := hm.source.other_entries hd hv.upper hn ha hne h2
      obtain ⟨he3, hw3⟩ := hm.target.other_entries hd hv.upper hn hb hsame h3
      obtain ⟨he4, hw4⟩ := hm.source.other_entries hd hv.upper hn ha hne h4
      exact ⟨v, hv.congr rfl rfl hv.kid (((he4.trans he3).trans he2).trans he1)
        (((hw4.trans hw3).trans hw2).trans hw1)⟩
    exact (hedited.forget d1 a).forget d2 b
  · rw [hrun]
    refine h1.unmark hm.target hn hb ?_
    obtain ⟨v, -, hv⟩ := hm.source_entry hC hd1.1
    rw [← hch.entry u a fun hk => ha.ne_whiteout b hk.2] at hv
    have hdir := (Touches.mark hch).dir hm.target.coherent.sound hm.target.dir
    obtain ⟨ex, hex, -⟩ := rename_error hv hdir hbad
    rw [hex]
    nofun

/-- Names that do not stand for themselves are not copied up. -/
theorem Grew.marks (hC : Coherent L s) (hg : Grew L s s') (hm : ¬ Plain m) (v : Ino) :
    s'.upper.entry v m = s.upper.entry v m := by
  refine hg.keeps (P := fun t => t.upper.entry v m = s.upper.entry v m) (fun t t' ht hp he => ?_) hC rfl
  rw [← hp]
  cases he with
  | cache => rfl
  | copy hp' hk hbare hj hw ht' =>
    refine ht'.changes.entry v m fun hvm => hm ?_
    rw [hvm.2]
    exact (ht.linked hk).2.2.2.2

/-- The removal covers what the lower layer has: it knows the lower inode, or there
is none that is not hidden already. -/
def Covers (L : LowerTree ι) (s : State ι) (d : NodeId) (n : Name) (lower : Option ι) : Prop :=
  lower = none → lowerEntry L (s.nodes d).lower n = none ∨
    upperEntry s.upper (s.nodes d).upper (whiteoutName n) ≠ none

/-- When the upper entry goes, the name is hidden. -/
theorem Removing.hides (hdrop : Drops drop)
    (hC : Coherent L s) (hr : Removing L s s1 d n c u) (hd : s.Dir d) (hn : Plain n)
    (hcov : Covers L s d n (s1.nodes c).lower)
    (hgoes : ∀ v, (s1.nodes c).upper = some v → s1.upper.entry u n = some v →
      ∀ e, drop s1.upper u n ≠ .error e) : Gone L d n (s1.without drop d n c u) := by
  have hC1 := hr.ready.coherent
  have hsound := hC1.sound
  have hmir := hC1.mirror hr.ready.attached hr.kid
  rw [hr.ready.upper] at hmir
  have ht : Touches s1.upper (dropped drop u n (s1.nodes c).upper s1.upper) u n :=
    dropped_touches hdrop hsound
  have hgone : (dropped drop u n (s1.nodes c).upper s1.upper).entry u n = none := by
    cases hv : (s1.nodes c).upper with
    | none =>
      rw [hv] at hmir
      exact hmir.upper.symm
    | some v =>
      rw [hv] at hmir
      rcases attempt_cases (drop · u n) s1.upper with ⟨x, hok⟩ | ⟨e, hbad, -⟩
      · exact (hdrop.changes hsound hok).2
      · exact absurd hbad (hgoes v hv hmir.upper.symm e)
  have hkeep : (dropped drop u n (s1.nodes c).upper s1.upper).entry u (whiteoutName n) =
      s1.upper.entry u (whiteoutName n) := by
    unfold dropped
    split
    · exact (hdrop.attempt hsound).entry u _ fun hk => hn.ne_whiteout n hk.2.symm
    · rfl
  refine ⟨hC1.lt_next hr.ready.attached, ?_,
    fun _ => ⟨u, (forget_upper d).trans hr.ready.upper, forget_kid_self, ?_, ?_⟩⟩
  · rw [without, (forget_kept d).kind, ← (hC1.upper_kind hr.ready.upper).2, hr.ready.dir]
  · show (removed drop u n _ _ _).entry u n = none
    unfold removed
    split
    · obtain ⟨hch, -⟩ := mark_changes ht.sound (ht.dir hsound hr.ready.dir)
      rw [hch.entry u n fun hk => hn.ne_whiteout n hk.2, hgone]
    · exact hgone
  show (removed drop u n _ _ _).entry u (whiteoutName n) ≠ none ∨ _
  rw [without, (forget_kept d).lower]
  cases hlo : (s1.nodes c).lower with
  | some j => exact .inl (mark_changes ht.sound (ht.dir hsound hr.ready.dir)).2
  | none =>
    rcases hcov hlo with hl | hw
    · right
      rw [← ((hr.grew.grows hC).kept (hC.lt_next hd.1)).lower] at hl
      exact hl
    left
    obtain ⟨v, hv⟩ := Option.ne_none_iff_exists'.mp hw
    obtain ⟨w, hw', he⟩ := Option.bind_eq_some_iff.mp hv
    have hup := (hr.grew.grows hC).upper (hC.lt_next hd.1) hw'
    rw [hr.ready.upper] at hup
    cases hup
    show (dropped drop u n _ _).entry u (whiteoutName n) ≠ none
    rw [hkeep, hr.grew.marks hC (fun h => h.ne_whiteout n rfl), he]
    exact Option.some_ne_none _

/-- A removal hides the name, and nothing is half made: the lower inode is covered,
`unlink` is not for directories that were copied up, `rmdir` not for those that
hold whiteouts, and `create` and `link` are asked for what the upper layer can do. -/
def Op.Sure (L : LowerTree ι) (s : State ι) : Op → Prop
  | .unlink d n => ∀ kind lo up, found L s d n = some (kind, lo, up) →
      Covers L s d n lo ∧ (up ≠ none → kind ≠ .directory)
  | .rmdir d n => ∀ kind lo up, found L s d n = some (kind, lo, up) →
      Covers L s d n lo ∧ ∀ v m, up = some v → ¬ Plain m → s.upper.entry v m = none
  | .create _ _ kind _ => kind ≠ .symlink
  | .link _ _ t => (s.nodes t).kind ≠ .directory
  | _ => True

/-- The call removes `n` from `d`. -/
def Op.Removes (d : NodeId) (n : Name) : Op → Prop
  | .unlink p m => p = d ∧ m = n
  | .rmdir p m => p = d ∧ m = n
  | _ => False

/-- The call makes `n` in `d`. -/
def Op.Makes (d : NodeId) (n : Name) : Op → Prop
  | .create p m _ _ => p = d ∧ m = n
  | .symlink p m _ _ _ => p = d ∧ m = n
  | .link p m _ => p = d ∧ m = n
  | .rename _ _ _ p m => p = d ∧ m = n
  | _ => False

theorem unlink_hides (hC : Coherent L s) (hd : s.Dir d) (hn : Plain n)
    (hsure : (Op.unlink d n).Sure L s) (hok : unlink L d n s = .ok () s') : Gone L d n s' := by
  rcases unlink_cases hC hd hn with hr | ⟨c, u, s1, hrem, hr⟩
  · rw [hr] at hok
    cases hok
  rw [hr] at hok
  cases hok
  obtain ⟨hcov, hkind⟩ := hsure _ _ _ hrem.found
  have hC1 := hrem.ready.coherent
  refine hrem.hides unlink_drops hC hd hn hcov ?_
  intro v hv hent e hbad
  have hdir := unlink_kept hrem.ready.dir hbad v hent
  rw [(hC1.upper_kind hv).2] at hdir
  exact hkind (by rw [hv]; nofun) hdir

theorem rmdir_hides (hL : L.Fits) (hC : Coherent L s) (hd : s.Dir d) (hn : Plain n)
    (hsure : (Op.rmdir d n).Sure L s) (hok : rmdir L d n s = .ok () s') : Gone L d n s' := by
  rcases rmdir_cases hL hC hd hn with ⟨e, s0, -, hr⟩ | ⟨c, u, s1, hrem, hdir, hbare, hr⟩
  · rw [hr] at hok
    cases hok
  rw [hr] at hok
  cases hok
  obtain ⟨hcov, hmarks⟩ := hsure _ _ _ hrem.found
  have hC1 := hrem.ready.coherent
  refine hrem.hides rmdir_drops hC hd hn hcov ?_
  intro v hv hent e hbad
  have hvdir : s1.upper.kind v = .directory := (hC1.upper_kind hv).2.trans hdir
  have hempty : s1.upper.isEmptyDir v = true := by
    rw [isEmptyDir_iff hvdir]
    intro m
    by_cases hm : Plain m
    · have h := hbare m hm
      rw [hv] at h
      exact h
    · rw [hrem.grew.marks hC hm]
      exact hmarks v m hv hm
  rcases rmdir_kept hrem.ready.dir hbad v hent with h | h
  · exact h hvdir
  · rw [hempty] at h
    cases h

/-- A call that removes the name hides it. -/
theorem step_hides (hL : L.Fits) (hC : Coherent L s) {op : Op} (ht : op.Tidy s) (hsure : op.Sure L s)
    (hop : op.Removes d n) (hok : op.succeeds L s = true) (hs : step L op s = some s') :
    Gone L d n s' ∧ Plain n := by
  have hrun := succeeds_run hok hs
  cases op with
  | unlink p m =>
    obtain ⟨rfl, rfl⟩ := hop
    exact ⟨unlink_hides hC ht.1 ht.2 hsure hrun, ht.2⟩
  | rmdir p m =>
    obtain ⟨rfl, rfl⟩ := hop
    exact ⟨rmdir_hides hL hC ht.1 ht.2 hsure hrun, ht.2⟩
  | _ => exact hop.elim

/-- A call that does not make the name keeps it hidden. -/
theorem step_gone (hL : L.Fits) (hC : Coherent L s) {op : Op} (ht : op.Tidy s) (hsure : op.Sure L s)
    (hno : op.Makes d n → op.succeeds L s = false) (hmount : op ≠ .remount) (hn : Plain n)
    (h : Gone L d n s) (hs : step L op s = some s') : Gone L d n s' := by
  rw [step_state hs]
  cases op with
  | lookup p m => exact h.grew hC (lookup_grew ht)
  | readdir p =>
    rw [readdir_state]
    exact h
  | create p m kind attr =>
    rw [Op.run, stateOf_effect]
    refine make_gone (creates_create m kind attr) ?_ hC ht.1 ht.2 hn h ?_
    · exact fun hs' hu hbad => create_taken hs' hu hsure hbad
    · intro hsame k t hrun
      exact fails_run (hno hsame) t (by simp only [Op.run, Overlay.create, effect, run_bind, hrun]; rfl)
  | symlink p m target uid gid =>
    rw [Op.run, stateOf_effect]
    refine make_gone (creates_symlink m target uid gid) ?_ hC ht.1 ht.2 hn h ?_
    · exact fun hs' hu hbad => symlink_taken hs' hu hbad
    · intro hsame k t hrun
      exact fails_run (hno hsame) t (by simp only [Op.run, Overlay.symlink, effect, run_bind, hrun]; rfl)
  | link p m t =>
    exact link_gone hL hC ht.1 ht.2.1 hn ht.2.2.2 ht.2.2.1 hsure h fun hsame _ => fails_run (hno hsame)
  | writeAt c off buf => exact writeAt_keeps hL hC ht off buf (h.grew hC) Gone.rewrite
  | setAttr c a => exact setAttr_keeps hL hC ht a (h.grew hC) Gone.rewrite
  | unlink p m =>
    rcases unlink_cases hC ht.1 ht.2 with hr | ⟨c, u, s1, hrem, hr⟩
    · rw [Op.run, hr]
      exact h
    · rw [Op.run, hr]
      exact hrem.gone unlink_drops hC ht.1 ht.2 hn h
  | rmdir p m =>
    rcases rmdir_cases hL hC ht.1 ht.2 with ⟨e, s0, hg, hr⟩ | ⟨c, u, s1, hrem, -, -, hr⟩
    · rw [Op.run, hr]
      exact h.grew hC hg
    · rw [Op.run, hr]
      exact hrem.gone rmdir_drops hC ht.1 ht.2 hn h
  | rename depth p old p' new =>
    exact rename_gone hL depth hC ht.1 ht.2.2.1 ht.2.1 ht.2.2.2 hn h fun hsame _ => fails_run (hno hsame)
  | remount => exact absurd rfl hmount

/-- The calls of a run that removal can rely on. -/
def Op.Safe (L : LowerTree ι) (s : State ι) (op : Op) : Prop := op.Tidy s ∧ op.Sure L s

/-- Once a removal has succeeded, the name is neither found nor listed in its
directory, until a call makes it again or the directory itself leaves the tree. -/
theorem removal_permanent (hL : L.Fits) {before after : List Op} {op : Op} {d : NodeId} {n : Name}
    {s s' s'' : State ι} (hbefore : runs (step L) before (State.fresh L) = some s)
    (hop : op.Removes d n) (hok : op.succeeds L s = true) (hs' : step L op s = some s')
    (hafter : runs (step L) after s' = some s'')
    (hsafe : Throughout (step L) (Op.Safe L) (before ++ op :: after) (State.fresh L))
    (hquiet : Throughout (step L) (fun t o => (o.Makes d n → o.succeeds L t = false) ∧ o ≠ .remount)
      after s') (hd : s''.Attached d) :
    child L d n s'' = .error (.errno .enoent) s'' ∧ ∃ l, names L s'' d = .ok l ∧ n ∉ l := by
  have hC : Coherent L s := throughout_last
    (fun _ _ _ hC ht => step_coherent hL hC ht.1) coherent_fresh (throughout_left hsafe) hbefore
  obtain ⟨hfirst, hrest⟩ := throughout_drop hsafe hbefore
  obtain ⟨hgone, hn⟩ := step_hides hL hC hfirst.1 hfirst.2 hop hok hs'
  have hkeep : Coherent L s'' ∧ Gone L d n s'' :=
    throughout_last (P := fun t => Coherent L t ∧ Gone L d n t)
      (fun _ _ _ h ht hs => ⟨step_coherent hL h.1 ht.1.1 hs,
        step_gone hL h.1 ht.1.1 ht.1.2 ht.2.1 ht.2.2 hn h.2 hs⟩)
      ⟨step_coherent hL hC hfirst.1 hs', hgone⟩ (throughout_and (hrest s' hs') hquiet) hafter
  obtain ⟨hC'', -, hkind, hhidden⟩ := hkeep
  obtain ⟨u, hu⟩ := hhidden hd
  exact hu.absent hL hC'' ⟨hd, hkind⟩ hn

section

def nameD : Name := [100]
def nameE : Name := [101]
def nameF : Name := [102]
def nameG : Name := [103]

def imageEntries : Nat → AList fun _ : Name => Nat
  | 0 => ((AList.insert nameE 4 ∅).insert nameD 2).insert nameF 1
  | 2 => AList.insert nameF 3 ∅
  | 4 => AList.insert nameF 5 ∅
  | _ => ∅

theorem imageEntries_some {i j : Nat} (h : (imageEntries i).lookup n = some j) :
    (i = 0 ∧ n = nameF ∧ j = 1) ∨ (i = 0 ∧ n = nameD ∧ j = 2) ∨ (i = 0 ∧ n = nameE ∧ j = 4) ∨
      (i = 2 ∧ n = nameF ∧ j = 3) ∨ (i = 4 ∧ n = nameF ∧ j = 5) := by
  have hmem := AList.mem_lookup_iff.mp (Option.mem_def.mpr h)
  match i with
  | 0 =>
    have he : (imageEntries 0).entries = [⟨nameF, 1⟩, ⟨nameD, 2⟩, ⟨nameE, 4⟩] := by decide
    rw [he] at hmem
    simpa using hmem
  | 2 =>
    have he : (imageEntries 2).entries = [⟨nameF, 3⟩] := by decide
    rw [he] at hmem
    simpa using hmem
  | 4 =>
    have he : (imageEntries 4).entries = [⟨nameF, 5⟩] := by decide
    rw [he] at hmem
    simpa using hmem
  | 1 | 3 | (i + 5) => cases (AList.lookup_empty n).symm.trans h

def imageHeight (i : Nat) : Nat := if i = 0 then 2 else if i = 2 ∨ i = 4 then 1 else 0

/-- A file `f` and two directories `d` and `e` that hold a file `f` each. -/
def image : LowerTree Nat where
  root := 0
  kind := fun i => if i = 0 ∨ i = 2 ∨ i = 4 then .directory else .regular
  attr := fun _ => {}
  data := fun i => [i.toUInt8]
  entries := imageEntries
  root_dir := rfl
  only_dirs := by
    intro i n h
    obtain ⟨j, hj⟩ := Option.ne_none_iff_exists'.mp h
    have hi := imageEntries_some hj
    exact if_pos (by omega)
  grounded := by
    refine Subrelation.wf (fun {j i} h => ?_) (InvImage.wf imageHeight Nat.lt_wfRel.wf)
    obtain ⟨n, h⟩ := h
    show imageHeight j < imageHeight i
    rcases imageEntries_some h with ⟨rfl, -, rfl⟩ | ⟨rfl, -, rfl⟩ | ⟨rfl, -, rfl⟩ | ⟨rfl, -, rfl⟩ |
      ⟨rfl, -, rfl⟩ <;> decide

theorem image_fits : image.Fits := by
  refine ⟨fun i n h => ?_, fun i _ => ?_⟩
  · obtain ⟨j, hj⟩ := Option.ne_none_iff_exists'.mp h
    rcases imageEntries_some hj with ⟨-, rfl, -⟩ | ⟨-, rfl, -⟩ | ⟨-, rfl, -⟩ | ⟨-, rfl, -⟩ |
      ⟨-, rfl, -⟩ <;> decide
  · show 1 ≤ 2 ^ 40
    decide

end

theorem removal_permanent_image : ∃ s' s'',
    step image (.unlink rootId nameF) (State.fresh image) = some s' ∧
    runs (step image) [.create rootId nameG .regular {}] s' = some s'' ∧
    child image rootId nameF s'' = .error (.errno .enoent) s'' ∧
      ∃ l, names image s'' rootId = .ok l ∧ nameF ∉ l := by
  have hruns : ((step image (.unlink rootId nameF) (fresh image)).bind
      (runs (step image) [.create rootId nameG .regular {}])).isSome = true := by decide +kernel
  obtain ⟨s'', hruns⟩ := Option.isSome_iff_exists.mp hruns
  obtain ⟨s', hs', hs''⟩ := Option.bind_eq_some_iff.mp hruns
  have hfirst : (Op.unlink rootId nameF).Safe image (fresh image) := by
    have : found image (fresh image) rootId nameF = some (.regular, some 1, none) := rfl
    refine ⟨⟨⟨attached_root, rfl⟩, by decide⟩, fun kind lo up h => ?_⟩
    cases h
    exact ⟨nofun, fun h => absurd rfl h⟩
  have hroot : (s'.nodes rootId).kind = .directory :=
    (step_coherent image_fits coherent_fresh hfirst.1 hs').root_kind
  have hsafe : Throughout (step image) (Op.Safe image)
      ([] ++ .unlink rootId nameF :: [.create rootId nameG .regular {}]) (fresh image) := by
    refine ⟨hfirst, fun t ht => ⟨⟨⟨⟨attached_root, ?_⟩, by decide⟩, nofun⟩, fun _ _ => trivial⟩⟩
    cases hs'.symm.trans ht
    exact hroot
  have hquiet : Throughout (step image) (fun t o => (o.Makes rootId nameF → o.succeeds image t = false) ∧
      o ≠ .remount) [.create rootId nameG .regular {}] s' :=
    ⟨⟨fun h => absurd h.2 (by decide), nofun⟩, fun _ _ => trivial⟩
  have hop : (Op.unlink rootId nameF).Removes rootId nameF := ⟨rfl, rfl⟩
  exact ⟨s', s'', hs', hs'',
    removal_permanent image_fits rfl hop (by decide +kernel) hs' hs'' hsafe hquiet attached_root⟩

/-- A file of the image that was deleted, made again and deleted again is back: the
second `unlink` took the new file for one without a lower layer. -/
theorem unlink_reappears : ∃ s s',
    runs (step image) [.unlink rootId nameF, .create rootId nameF .regular {}] (State.fresh image) =
      some s ∧
    (Op.unlink rootId nameF).succeeds image s = true ∧ step image (.unlink rootId nameF) s = some s' ∧
    (Op.lookup rootId nameF).succeeds image s' = true ∧
    (names image s' rootId).toOption = some [nameF, nameD, nameE] := by
  have h : ((runs (step image) [.unlink rootId nameF, .create rootId nameF .regular {}]
      (fresh image)).bind fun s => (step image (.unlink rootId nameF) s).map fun s' =>
        decide ((Op.unlink rootId nameF).succeeds image s = true ∧
          (Op.lookup rootId nameF).succeeds image s' = true ∧
          (names image s' rootId).toOption = some [nameF, nameD, nameE])) = some true := by
    decide +kernel
  obtain ⟨s, hs, h⟩ := Option.bind_eq_some_iff.mp h
  obtain ⟨s', hs', h⟩ := Option.map_eq_some_iff.mp h
  obtain ⟨hok, hfound, hlist⟩ := of_decide_eq_true h
  exact ⟨s, s', hs, hok, hs', hfound, hlist⟩

theorem reached_coherent (hL : L.Fits) {ops : List Op} (hrun : runs (step L) ops (fresh L) = some s)
    (htidy : Throughout (step L) (fun t op => op.Tidy t) ops (fresh L)) : Coherent L s :=
  throughout_last (P := Coherent L) (fun _ _ _ h ht hs => step_coherent hL h ht hs) coherent_fresh
    htidy hrun

/-- **In every state of a run, a directory lists the plain names that looking up
finds there; looking up any other one fails with `ENOENT`.** -/
theorem run_lists_found (hL : L.Fits) {ops : List Op} (hrun : runs (step L) ops (fresh L) = some s)
    (htidy : Throughout (step L) (fun t op => op.Tidy t) ops (fresh L)) {q : List Name}
    (hq : s.nodeAt q = some c) (hdir : (s.nodes c).kind = .directory) :
    ∃ l, readdir L c s = .ok l s ∧ ∀ n, Plain n →
      (n ∈ l → ∃ k s', child L c n s = .ok k s') ∧
      (n ∉ l → child L c n s = .error (.errno .enoent) s) := by
  obtain ⟨l, -, hread, hmem⟩ := readdir_spec hL (reached_coherent hL hrun htidy) hq hdir
  refine ⟨l, hread, fun n hn => ?_⟩
  rw [hmem, find_concat (find_nodeAt hq)]
  rcases child_cases (L := L) hn.1 with ⟨k, hk, hr⟩ | ⟨hk, hm, hr⟩ | ⟨kind, lo, up, hk, hm, hr⟩
  · have hl : look L s (.node c) n = some (.node k) := look_cached hk
    simp [hr, hl, hn]
  · simp [hr, look_node hk, hm]
  · simp [hr, look_node hk, hm, hn]

/-- After a file is deleted from the root. -/
theorem run_lists_found_image : ∃ s l, runs (step image) [.unlink rootId nameF] (fresh image) = some s ∧
    readdir image rootId s = .ok l s ∧ nameF ∉ l ∧
    child image rootId nameF s = .error (.errno .enoent) s := by
  have hobs : (runs (step image) [.unlink rootId nameF] (fresh image)).map (fun s =>
      match readdir image rootId s with
      | .ok l _ => decide (nameF ∉ l)
      | .error _ _ => false) = some true := by
    decide +kernel
  obtain ⟨s, hs, hout⟩ := Option.map_eq_some_iff.mp hobs
  have htidy : Throughout (step image) (fun t op => op.Tidy t) [.unlink rootId nameF] (fresh image) :=
    ⟨⟨⟨attached_root, rfl⟩, by decide⟩, fun _ _ => trivial⟩
  have hroot := (reached_coherent image_fits hs htidy).root_kind
  obtain ⟨l, hl, hmem⟩ := run_lists_found image_fits hs htidy (q := []) rfl hroot
  rw [hl] at hout
  have hnot : nameF ∉ l := of_decide_eq_true hout
  exact ⟨s, l, hs, hl, hnot, (hmem nameF (by decide)).2 hnot⟩

end Fastros.Overlay
