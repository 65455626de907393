import Fastros.Fs.OverlaySubtree

/-!
# The calls of an overlay

Each call first lets the state grow, until the directories it works on have an
upper inode, and then edits the entries of one name there: the name itself and
its whiteout. On handles of the tree every call leaves a coherent state behind,
also when it fails.
-/

namespace Fastros.Overlay

open Fs Tmpfs Tmpfs.TmpFs Lib.Stateful Lib.Walk

variable {ι : Type} {L : LowerTree ι} {s s' : State ι} {p c d : NodeId} {n : Name} {u : Ino}
  {fs fs' fs'' : TmpFs}

/-- The upper layer after an operation whose error is ignored. -/
def attempt {α : Type} (f : TmpFs → Except Errno (α × TmpFs)) (fs : TmpFs) : TmpFs :=
  match f fs with
  | .ok (_, fs') => fs'
  | .error _ => fs

theorem tryUpper_run {α : Type} (f : TmpFs → Except Errno (α × TmpFs)) (s : State ι) :
    tryUpper f s = .ok () { s with upper := attempt f s.upper } := by
  unfold tryUpper attempt
  cases f s.upper <;> rfl

theorem attempt_cases {α : Type} (f : TmpFs → Except Errno (α × TmpFs)) (fs : TmpFs) :
    (∃ a, f fs = .ok (a, attempt f fs)) ∨ (∃ e, f fs = .error e ∧ attempt f fs = fs) := by
  unfold attempt
  cases f fs with
  | ok x => exact .inl ⟨x.1, rfl⟩
  | error e => exact .inr ⟨e, rfl, rfl⟩

/-- The name `n` of the directory `u`, or its whiteout, may have changed. -/
structure Touches (fs fs' : TmpFs) (u : Ino) (n : Name) : Prop where
  sound : fs'.Sound
  entry : ∀ a k, ¬ (a = u ∧ (k = n ∨ k = whiteoutName n)) → fs'.entry a k = fs.entry a k
  shown : ∀ v, v < fs.nextIno → fs'.shown v = fs.shown v
  next : fs.nextIno ≤ fs'.nextIno

theorem Touches.trans (h : Touches fs fs' u n) (h' : Touches fs' fs'' u n) : Touches fs fs'' u n :=
  ⟨h'.sound, fun a k hk => (h'.entry a k hk).trans (h.entry a k hk),
    fun v hv => (h'.shown v (lt_of_lt_of_le hv h.next)).trans (h.shown v hv),
    le_trans h.next h'.next⟩

variable {v : Ino} {e : NodeId} {m : Name} {op : Op}

theorem Touches.kind (h : Touches fs fs' u n) (hv : v < fs.nextIno) : fs'.kind v = fs.kind v :=
  congrArg Prod.fst (h.shown v hv)

/-- A directory stays one. -/
theorem Touches.dir (h : Touches fs fs' u n) (hs : fs.Sound) (hv : fs.kind v = .directory) :
    fs'.kind v = .directory :=
  (h.kind (hs.made hv)).trans hv

theorem Touches.refl (h : fs.Sound) : Touches fs fs u n :=
  ⟨h, fun _ _ _ => rfl, fun _ _ => rfl, le_rfl⟩

protected theorem Touches.name (h : Changes fs fs' u n) : Touches fs fs' u n :=
  ⟨h.sound, fun a k hk => h.entry a k fun hak => hk ⟨hak.1, .inl hak.2⟩, h.shown, h.next⟩

protected theorem Touches.mark (h : Changes fs fs' u (whiteoutName n)) : Touches fs fs' u n :=
  ⟨h.sound, fun a k hk => h.entry a k fun hak => hk ⟨hak.1, .inr hak.2⟩, h.shown, h.next⟩

/-- The layer without the whiteout of `n`. -/
def unmark (u : Ino) (n : Name) : TmpFs → TmpFs := attempt (·.unlink u (whiteoutName n))

/-- The layer with a whiteout of `n`. -/
def mark (u : Ino) (n : Name) : TmpFs → TmpFs := attempt (·.create u (whiteoutName n) .regular {})

theorem unmark_free (h : fs.entry u (whiteoutName n) = none) : unmark u n fs = fs := by
  obtain ⟨e, he⟩ := unlink_free h
  simp only [unmark, attempt, he]

theorem unmark_changes (h : fs.Sound) : Changes fs (unmark u n fs) u (whiteoutName n) := by
  rcases attempt_cases (·.unlink u (whiteoutName n)) fs with ⟨x, hu⟩ | ⟨e, -, hsame⟩
  · exact (unlink_changes h hu).1
  · rw [unmark, hsame]
    exact .refl h

theorem mark_changes (h : fs.Sound) (hu : fs.kind u = .directory) :
    Changes fs (mark u n fs) u (whiteoutName n) ∧ (mark u n fs).entry u (whiteoutName n) ≠ none := by
  rcases attempt_cases (·.create u (whiteoutName n) .regular {}) fs with ⟨x, hc⟩ | ⟨e, hc, hsame⟩
  · obtain ⟨-, y, -, -, ha⟩ := create_adds h (h.made hu) hc
    refine ⟨ha.changes, ?_⟩
    rw [mark, ha.entry]
    nofun
  · rw [mark, hsame]
    exact ⟨.refl h, create_taken h hu (by decide) hc⟩

/-- `unlink` or `rmdir` of the upper layer. -/
structure Drops (drop : TmpFs → Ino → Name → Except Errno (Unit × TmpFs)) : Prop where
  changes : ∀ {fs u n fs'}, fs.Sound → drop fs u n = .ok ((), fs') →
    Changes fs fs' u n ∧ fs'.entry u n = none

theorem unlink_drops : Drops TmpFs.unlink := ⟨unlink_changes⟩

theorem rmdir_drops : Drops TmpFs.rmdir := ⟨rmdir_changes⟩

theorem Drops.attempt {drop : TmpFs → Ino → Name → Except Errno (Unit × TmpFs)} (h : Drops drop)
    (hs : fs.Sound) : Changes fs (attempt (drop · u n) fs) u n := by
  rcases attempt_cases (drop · u n) fs with ⟨x, hd⟩ | ⟨e, -, hsame⟩
  · exact (h.changes hs hd).1
  · rw [hsame]
    exact .refl hs

section

variable (hC : Coherent L s)
include hC

theorem coherent_forget : Coherent L (s.forget d n) := by
  refine ⟨hC.sound, hC.started, ?_, ?_, ?_, ?_, ?_, ?_, ?_⟩
  · rw [forget_upper, hC.root_upper]
  · rw [(forget_kept _).lower, hC.root_lower]
  · rw [(forget_kept _).kind, hC.root_kind]
  · intro a m c hc
    rw [(forget_kept _).parent, (forget_kept _).name]
    exact hC.linked (kid_of_forget hc)
  · intro c v hv
    rw [forget_upper] at hv
    rw [(forget_kept _).kind]
    exact hC.upper_kind hv
  · intro c j hj
    rw [(forget_kept _).lower] at hj
    rw [(forget_kept _).kind]
    exact hC.lower_kind hj
  · intro a m c ha hc
    rw [(forget_kept _).lower, (forget_kept _).lower, forget_upper, forget_upper]
    exact hC.mirror (attached_of_forget ha) (kid_of_forget hc)

/-- Another upper layer, under which every cached child still mirrors its entry. -/
theorem coherent_upper (hs : fs'.Sound) (hnext : s.upper.nextIno ≤ fs'.nextIno)
    (hkind : ∀ v, v < s.upper.nextIno → fs'.kind v = s.upper.kind v)
    (he : ∀ {a m c}, s.Attached a → s.kid a m = some c →
      upperEntry fs' (s.nodes a).upper m = upperEntry s.upper (s.nodes a).upper m)
    (hw : ∀ {a m c}, s.Attached a → s.kid a m = some c → (s.nodes c).upper = none →
      upperEntry fs' (s.nodes a).upper (whiteoutName m) =
        upperEntry s.upper (s.nodes a).upper (whiteoutName m)) :
    Coherent L { s with upper := fs' } := by
  refine ⟨hs, hC.started, hC.root_upper, hC.root_lower, hC.root_kind, hC.linked, fun hv => ?_,
    hC.lower_kind, fun ha hc => ?_⟩
  · obtain ⟨hlt, hk⟩ := hC.upper_kind hv
    exact ⟨lt_of_lt_of_le hlt hnext, (hkind _ hlt).trans hk⟩
  · exact (hC.mirror ha hc).congr (he ha hc) (hw ha hc)

/-- Editing a name that no node of the tree has cached. -/
theorem coherent_touch (hn : Plain n) (h : Touches s.upper fs' u n)
    (hoff : ∀ {a m c}, s.Attached a → (s.nodes a).upper = some u → s.kid a m = some c → m ≠ n) :
    Coherent L { s with upper := fs' } := by
  have hentry : ∀ {a m c}, s.Attached a → s.kid a m = some c → ∀ k, k = m ∨ k = whiteoutName m →
      upperEntry fs' (s.nodes a).upper k = upperEntry s.upper (s.nodes a).upper k := by
    intro a m c ha hc k hk
    cases hw : (s.nodes a).upper with
    | none => rfl
    | some w =>
      refine h.entry w k ?_
      rintro ⟨rfl, hkn⟩
      have hne : m ≠ n := hoff ha hw hc
      have hm : Plain m := (hC.linked hc).2.2.2.2
      rcases hk with rfl | rfl
      · exact hkn.elim hne (hm.ne_whiteout n)
      · exact hkn.elim (fun h => hn.ne_whiteout m h.symm) (fun h => hne (whiteoutName_inj h))
  exact coherent_upper hC h.sound h.next (fun v hv => h.kind hv)
    (fun ha hc => hentry ha hc _ (.inl rfl)) (fun ha hc _ => hentry ha hc _ (.inr rfl))

theorem coherent_rewrite (h : Rewrites s.upper fs' v) : Coherent L { s with upper := fs' } := by
  have hentry : ∀ (a : NodeId) k, upperEntry fs' (s.nodes a).upper k =
      upperEntry s.upper (s.nodes a).upper k := by
    intro a k
    cases hw : (s.nodes a).upper with
    | none => rfl
    | some w => exact h.entry w k
  exact coherent_upper hC (h.sound hC.sound) (le_of_eq h.next.symm) (fun v _ => h.kind v)
    (fun _ _ => hentry _ _) (fun _ _ _ => hentry _ _)

end

/-- `d` is a directory of the tree with the upper inode `u`. -/
structure Ready (L : LowerTree ι) (s : State ι) (d : NodeId) (u : Ino) : Prop where
  coherent : Coherent L s
  attached : s.Attached d
  upper : (s.nodes d).upper = some u
  dir : s.upper.kind u = .directory

/-- A handle on a directory that is in the tree. -/
def State.Dir (s : State ι) (d : NodeId) : Prop := s.Attached d ∧ (s.nodes d).kind = .directory

theorem State.Dir.grew (h : s.Dir d) (hC : Coherent L s) (hg : Grew L s s') : s'.Dir d :=
  ⟨(hg.grows hC).attached h.1, ((hg.grows hC).kept (hC.lt_next h.1)).kind.trans h.2⟩

theorem ensureUpperDir_ready (hC : Coherent L s) (hd : s.Dir d) :
    ∃ u s', ensureUpperDir L d s = .ok u s' ∧ Grew L s s' ∧ Ready L s' d u ∧
      ∀ a, d < a → (s'.nodes a).upper = (s.nodes a).upper := by
  obtain ⟨u, s', hrun, hg, hu, hdir, hlate⟩ := ensureUpperDir_spec hC hd.1 hd.2
  exact ⟨u, s', hrun, hg, ⟨hg.coherent hC, (hg.grows hC).attached hd.1, hu, hdir⟩, hlate⟩

variable {P : State ι → Prop} {a d' t : NodeId} {s0 s₁ : State ι}

theorem Ready.unique (h : Ready L s d u) (ha : s.Attached a)
    (hu : (s.nodes a).upper = some u) : a = d :=
  h.coherent.node_unique ha h.attached hu h.upper h.dir

theorem Ready.grew (h : Ready L s d u) (hg : Grew L s s') : Ready L s' d u := by
  have hC := h.coherent
  have hu := (hg.grows hC).upper (hC.lt_next h.attached) h.upper
  refine ⟨hg.coherent hC, (hg.grows hC).attached h.attached, hu, ?_⟩
  rw [((hg.coherent hC).upper_kind hu).2, ((hg.grows hC).kept (hC.lt_next h.attached)).kind,
    ← (hC.upper_kind h.upper).2, h.dir]

/-- Editing the name `n` of `d` and dropping it from the cache. -/
theorem Ready.touch (h : Ready L s d u) (hn : Plain n) (ht : Touches s.upper fs' u n) :
    Coherent L (({ s with upper := fs' } : State ι).forget d n) := by
  have hforget : Coherent L (s.forget d n) := coherent_forget h.coherent
  refine coherent_touch hforget hn ht fun {a m c} ha hu hc hm => ?_
  rw [forget_upper] at hu
  obtain rfl := h.unique (attached_of_forget ha) hu
  rw [hm, forget_kid_self] at hc
  cases hc

/-- Editing another name leaves both entries of this one alone. -/
theorem Ready.other_entries {w : Ino} (hr : Ready L s e w)
    (hd : s.Attached d) (hu : (s.nodes d).upper = some u) (hn : Plain n) (hm : Plain m)
    (hne : ¬ (e = d ∧ m = n)) (ht : Touches fs fs' w m) :
    fs'.entry u n = fs.entry u n ∧ fs'.entry u (whiteoutName n) = fs.entry u (whiteoutName n) := by
  constructor
  · refine ht.entry u n ?_
    rintro ⟨rfl, hk⟩
    have hmn : m ≠ n := fun hmn => hne ⟨(hr.unique hd hu).symm, hmn⟩
    exact hk.elim (fun h => hmn h.symm) (hn.ne_whiteout m)
  · refine ht.entry u _ ?_
    rintro ⟨rfl, hk⟩
    have hmn : m ≠ n := fun hmn => hne ⟨(hr.unique hd hu).symm, hmn⟩
    exact hk.elim (fun h => hm.ne_whiteout n h.symm) (fun h => hmn (whiteoutName_inj h).symm)

/-- A child of `d` that is cached under a hidden name has an upper inode. -/
theorem Ready.upper_of_marked (h : Ready L s d u) (hc : s.kid d n = some c)
    (hw : s.upper.entry u (whiteoutName n) ≠ none) : (s.nodes c).upper ≠ none := by
  intro hb
  have hm := h.coherent.mirror h.attached hc
  rw [h.upper] at hm
  exact hw (hm.bare hb).1

/-- Without the whiteout, the cached children still fit. -/
theorem Ready.unmark (h : Ready L s d u) (hn : Plain n) :
    Coherent L { s with upper := unmark u n s.upper } := by
  have hch := unmark_changes (u := u) (n := n) h.coherent.sound
  by_cases hw : s.upper.entry u (whiteoutName n) = none
  · -- there is none: nothing happens
    rw [unmark_free hw]
    exact h.coherent
  refine coherent_upper h.coherent hch.sound hch.next (fun _ hv => hch.kind hv) ?_ ?_
  · intro a m c ha hc
    cases hu : (s.nodes a).upper with
    | none => rfl
    | some w =>
      exact hch.entry w m fun hk => (h.coherent.linked hc).2.2.2.2.ne_whiteout n hk.2
  intro a m c ha hc hb
  cases hu : (s.nodes a).upper with
  | none => rfl
  | some w =>
    refine hch.entry w _ ?_
    rintro ⟨rfl, hk⟩
    obtain rfl := whiteoutName_inj hk
    obtain rfl := h.unique ha hu
    exact h.upper_of_marked hc hw hb

/-- `f` puts a new inode of the kind under the name. -/
def Creates (f : TmpFs → Ino → Except Errno (Ino × TmpFs)) (n : Name) (kind : FileType) : Prop :=
  ∀ {fs u v fs'}, fs.Sound → u < fs.nextIno → f fs u = .ok (v, fs') →
    v = fs.nextIno ∧ ∃ x : TmpNode, x.data.kind = kind ∧ Adds fs fs' u n x

theorem creates_create (n : Name) (kind : FileType) (attr : Attr) :
    Creates (fun fs u => fs.create u n kind attr) n kind := by
  intro fs u v fs' h hu hc
  obtain ⟨hv, x, hk, -, ha⟩ := create_adds h hu hc
  exact ⟨hv, x, hk, ha⟩

theorem creates_symlink (n : Name) (target : List UInt8) (uid gid : Nat) :
    Creates (fun fs u => fs.symlink u n target uid gid) n .symlink := by
  intro fs u v fs' h hu hc
  obtain ⟨hv, x, hx, ha⟩ := symlink_adds h hu hc
  exact ⟨hv, x, congrArg Data.kind hx, ha⟩

variable {f : TmpFs → Ino → Except Errno (Ino × TmpFs)} {kind : FileType}

theorem make_cases (f : TmpFs → Ino → Except Errno (Ino × TmpFs)) (n : Name) (kind : FileType)
    (hC : Coherent L s) (hd : s.Dir d) :
    ∃ u s₁, Grew L s s₁ ∧ Ready L s₁ d u ∧
      (∀ a, d < a → (s₁.nodes a).upper = (s.nodes a).upper) ∧
      ((∃ v fs', f (unmark u n s₁.upper) u = .ok (v, fs') ∧ make L f d n kind s =
          .ok s₁.next (({ s₁ with upper := fs' } : State ι).addNode d n none (some v) kind)) ∨
        (∃ e, f (unmark u n s₁.upper) u = .error e ∧ make L f d n kind s =
          .error (.errno e) { s₁ with upper := unmark u n s₁.upper })) := by
  obtain ⟨u, s₁, hrun, hg, hready, hlate⟩ := ensureUpperDir_ready hC hd
  refine ⟨u, s₁, hg, hready, hlate, ?_⟩
  cases hf : f (unmark u n s₁.upper) u with
  | ok x =>
    refine .inl ⟨x.1, x.2, rfl, ?_⟩
    simp only [unmark] at hf
    simp only [make, run_bind, hrun, tryUpper_run, onUpper, hf]
    rfl
  | error e =>
    refine .inr ⟨e, rfl, ?_⟩
    simp only [unmark] at hf
    simp only [make, run_bind, hrun, tryUpper_run, onUpper, hf]
    rfl

/-- The new node, on top of an edit of its name. -/
theorem Ready.add (h : Ready L s d u) (hn : Plain n) {x : TmpNode}
    (ht : Touches s.upper fs u n) (ha : Adds fs fs' u n x) (hv : v = fs.nextIno)
    (hk : x.data.kind = kind) :
    Coherent L (({ s with upper := fs' } : State ι).addNode d n none (some v) kind) := by
  have htouch : Coherent L (({ s with upper := fs' } : State ι).forget d n) :=
    h.touch hn (ht.trans (.name ha.changes))
  rw [← addNode_forget]
  have hlt : d < (({ s with upper := fs' } : State ι).forget d n).next := h.coherent.lt_next h.attached
  have hup : ((({ s with upper := fs' } : State ι).forget d n).nodes d).upper = some u :=
    (forget_upper d).trans h.upper
  refine coherent_addNode htouch hlt hn ⟨?_, nofun, nofun⟩ ?_ nofun
  · rw [hup, hv]
    exact ha.entry.symm
  intro w hw
  cases hw
  rw [hv, ← hk]
  exact congrArg Prod.fst ha.shown

theorem make_coherent (hf : Creates f n kind) (hC : Coherent L s) (hd : s.Dir d) (hn : Plain n) :
    Coherent L (stateOf (make L f d n kind s)) := by
  obtain ⟨u, s₁, -, hready, -, ⟨v, fs', hok, hrun⟩ | ⟨e, -, hrun⟩⟩ := make_cases f n kind hC hd
  · rw [hrun]
    have hch := unmark_changes (u := u) (n := n) hready.coherent.sound
    have hu : u < (unmark u n s₁.upper).nextIno :=
      lt_of_lt_of_le (hready.coherent.sound.made hready.dir) hch.next
    obtain ⟨hv, x, hk, ha⟩ := hf hch.sound hu hok
    exact hready.add hn (.mark hch) ha hv hk
  · rw [hrun]
    exact hready.unmark hn

/-- A handle that can be written without a name: it is in the tree, or copied up. -/
def State.Live (s : State ι) (c : NodeId) : Prop := s.Attached c ∨ (s.nodes c).upper ≠ none

theorem link_cases (hL : L.Fits) (n : Name) (hC : Coherent L s) (hd : s.Dir d)
    (ht : s.Live t) (hlt : t < s.next) :
    ∃ u v s₁, Grew L s s₁ ∧ Ready L s₁ d u ∧ (s₁.nodes t).upper = some v ∧
      ((∃ fs', (unmark u n s₁.upper).link u n v = .ok ((), fs') ∧
          link L d n t s = .ok () (({ s₁ with upper := fs' } : State ι).forget d n)) ∨
        (∃ e, (unmark u n s₁.upper).link u n v = .error e ∧
          link L d n t s = .error (.errno e) { s₁ with upper := unmark u n s₁.upper })) := by
  obtain ⟨v, s0, hcopy, hg0, hv⟩ := copyUp_spec hL hC ht
  have hC0 := hg0.coherent hC
  obtain ⟨u, s₁, hrun, hg, hready, -⟩ := ensureUpperDir_ready hC0 (hd.grew hC hg0)
  have hv1 := (hg.grows hC0).upper (lt_of_lt_of_le hlt (hg0.grows hC).next) hv
  refine ⟨u, v, s₁, hg0.trans hg, hready, hv1, ?_⟩
  cases hl : (unmark u n s₁.upper).link u n v with
  | ok x =>
    refine .inl ⟨x.2, rfl, ?_⟩
    simp only [unmark] at hl
    simp only [link, run_bind, hcopy, hrun, tryUpper_run, onUpper, hl]
    rfl
  | error e =>
    refine .inr ⟨e, rfl, ?_⟩
    simp only [unmark] at hl
    simp only [link, run_bind, hcopy, hrun, tryUpper_run, onUpper, hl]
    rfl

theorem link_coherent (hL : L.Fits) (hC : Coherent L s) (hd : s.Dir d) (hn : Plain n)
    (ht : s.Live t) (hlt : t < s.next) : Coherent L (stateOf (link L d n t s)) := by
  obtain ⟨u, v, s₁, -, hready, hv, ⟨fs', hok, hrun⟩ | ⟨e, -, hrun⟩⟩ := link_cases hL n hC hd ht hlt
  · rw [hrun]
    have hch := unmark_changes (u := u) (n := n) hready.coherent.sound
    have hlt := lt_of_lt_of_le (hready.coherent.upper_kind hv).1 hch.next
    obtain ⟨hl, -⟩ := link_changes hch.sound hlt hok
    exact hready.touch hn ((Touches.mark hch).trans (.name hl))
  · rw [hrun]
    exact hready.unmark hn

section

variable (drop : TmpFs → Ino → Name → Except Errno (Unit × TmpFs)) (u : Ino) (n : Name)
  (lower : Option ι) (upper : Option Ino) (fs : TmpFs)

/-- The upper layer without the entry, if the child has an upper inode. -/
def dropped : TmpFs := if upper.isSome then attempt (drop · u n) fs else fs

/-- The upper layer after `remove`. -/
def removed : TmpFs := if lower.isSome then mark u n (dropped drop u n upper fs) else dropped drop u n upper fs

end

variable {drop : TmpFs → Ino → Name → Except Errno (Unit × TmpFs)} {lower : Option ι}
  {upper : Option Ino}

theorem dropped_touches (hdrop : Drops drop) (h : fs.Sound) :
    Touches fs (dropped drop u n upper fs) u n := by
  unfold dropped
  split
  · exact .name (hdrop.attempt h)
  · exact .refl h

theorem removed_touches (hdrop : Drops drop) (h : fs.Sound) (hu : fs.kind u = .directory) :
    Touches fs (removed drop u n lower upper fs) u n := by
  have ht : Touches fs (dropped drop u n upper fs) u n := dropped_touches hdrop h
  unfold removed
  split
  · exact ht.trans (.mark (mark_changes ht.sound (ht.dir h hu)).1)
  · exact ht

theorem remove_run (drop : TmpFs → Ino → Name → Except Errno (Unit × TmpFs)) (hC : Coherent L s)
    (hd : s.Dir d) (hc : s.kid d n = some c) :
    ∃ u s₁, Grew L s s₁ ∧ Ready L s₁ d u ∧ (s₁.nodes c).upper = (s.nodes c).upper ∧
      remove L drop d n c s = .ok () (State.forget
        { s₁ with upper := removed drop u n (s.nodes c).lower (s.nodes c).upper s₁.upper } d n) := by
  obtain ⟨u, s₁, hrun, hg, hready, hlate⟩ := ensureUpperDir_ready hC hd
  have hup := hlate c (hC.linked hc).2.2.1
  refine ⟨u, s₁, hg, hready, hup, ?_⟩
  simp only [remove, removed, dropped, whiteout, run_bind, run_get, hrun, hup]
  cases (s.nodes c).upper <;> cases (s.nodes c).lower <;>
    simp only [Option.isSome_none, Option.isSome_some, if_true, if_false, Bool.false_eq_true, run_ite,
      run_bind, tryUpper_run] <;> rfl

/-- The kind and the layers a lookup of the name gets. -/
def found (L : LowerTree ι) (s : State ι) (p : NodeId) (n : Name) :
    Option (FileType × Option ι × Option Ino) :=
  match s.kid p n with
  | some c => some ((s.nodes c).kind, (s.nodes c).lower, (s.nodes c).upper)
  | none => merge L s.upper (s.nodes p).lower (s.nodes p).upper n

theorem child_found (hn : Plain n) (h : child L p n s = .ok c s') :
    found L s p n = some ((s'.nodes c).kind, (s'.nodes c).lower, (s'.nodes c).upper) := by
  rcases child_cases hn.1 with ⟨k, hk, hr⟩ | ⟨-, -, hr⟩ | ⟨kind, lower, upper, hk, hm, hr⟩
  · rw [hr] at h
    cases h
    rw [found, hk]
  · rw [hr] at h
    cases h
  · rw [hr] at h
    cases h
    rw [found, hk, hm, addNode_new]

/-- A removal that got as far as the upper directory. -/
structure Removing (L : LowerTree ι) (s s₁ : State ι) (d : NodeId) (n : Name) (c : NodeId) (u : Ino) :
    Prop where
  grew : Grew L s s₁
  ready : Ready L s₁ d u
  kid : s₁.kid d n = some c
  found : found L s d n = some ((s₁.nodes c).kind, (s₁.nodes c).lower, (s₁.nodes c).upper)

/-- What a removal leaves. -/
def State.without (s₁ : State ι) (drop : TmpFs → Ino → Name → Except Errno (Unit × TmpFs)) (d : NodeId)
    (n : Name) (c : NodeId) (u : Ino) : State ι :=
  State.forget { s₁ with upper := removed drop u n (s₁.nodes c).lower (s₁.nodes c).upper s₁.upper } d n

theorem removing_of_child (drop : TmpFs → Ino → Name → Except Errno (Unit × TmpFs))
    (hC : Coherent L s) (hd : s.Dir d) (hn : Plain n) (hchild : child L d n s = .ok c s0) :
    ∃ u s₁, Grew L s0 s₁ ∧ Removing L s s₁ d n c u ∧
      remove L drop d n c s0 = .ok () (s₁.without drop d n c u) := by
  obtain ⟨hg0, hkid, -⟩ := child_ok (hC.lt_next hd.1) hn hchild
  have hC0 := hg0.coherent hC
  obtain ⟨u, s₁, hg, hready, hup, hrun⟩ := remove_run drop hC0 (hd.grew hC hg0) hkid
  have hkept := (hg.grows hC0).kept (hC0.linked hkid).2.2.2.1
  refine ⟨u, s₁, hg, ⟨hg0.trans hg, hready, (hg.grows hC0).kid hkid, ?_⟩, ?_⟩
  · rw [child_found hn hchild, hup, hkept.kind, hkept.lower]
  · rw [hrun, State.without, hup, hkept.lower]

theorem unlink_cases (hC : Coherent L s) (hd : s.Dir d) (hn : Plain n) :
    (unlink L d n s = .error (.errno .enoent) s) ∨
    ∃ c u s₁, Removing L s s₁ d n c u ∧ unlink L d n s = .ok () (s₁.without TmpFs.unlink d n c u) := by
  cases hchild : child L d n s with
  | error e s0 =>
    obtain ⟨rfl, rfl⟩ := child_error hn hchild
    left
    simp only [unlink, run_bind, hchild]
  | ok c s0 =>
    obtain ⟨u, s₁, -, hrem, hrun⟩ := removing_of_child TmpFs.unlink hC hd hn hchild
    refine .inr ⟨c, u, s₁, hrem, ?_⟩
    simp only [unlink, run_bind, hchild, hrun]

/-- A directory that `rmdir` accepts has no plain name left in its upper inode. -/
theorem rmdir_cases (hL : L.Fits) (hC : Coherent L s) (hd : s.Dir d) (hn : Plain n) :
    (∃ e s0, Grew L s s0 ∧ rmdir L d n s = .error (.errno e) s0) ∨
    ∃ c u s₁, Removing L s s₁ d n c u ∧ (s₁.nodes c).kind = .directory ∧
      (∀ m, Plain m → upperEntry s₁.upper (s₁.nodes c).upper m = none) ∧
      rmdir L d n s = .ok () (s₁.without TmpFs.rmdir d n c u) := by
  cases hchild : child L d n s with
  | error e s0 =>
    obtain ⟨rfl, rfl⟩ := child_error hn hchild
    refine .inl ⟨.enoent, s0, .refl s0, ?_⟩
    simp only [rmdir, run_bind, hchild]
  | ok c s0 =>
    obtain ⟨hg0, hkid, -⟩ := child_ok (hC.lt_next hd.1) hn hchild
    have hC0 := hg0.coherent hC
    have hc0 : s0.Attached c := ((hg0.grows hC).attached hd.1).kid hkid
    by_cases hdir : (s0.nodes c).kind = .directory
    · obtain ⟨q, hq⟩ := hc0
      obtain ⟨l, -, hread, hmem⟩ := readdir_spec hL hC0 hq hdir
      by_cases hl : l = []
      · obtain ⟨u, s₁, hg, hrem, hrun⟩ := removing_of_child TmpFs.rmdir hC hd hn hchild
        refine .inr ⟨c, u, s₁, hrem, ?_, fun m hm => ?_, ?_⟩
        · rw [((hg.grows hC0).kept (hC0.linked hkid).2.2.2.1).kind, hdir]
        · -- what the upper inode holds under a plain name would have been listed
          by_contra hne
          have hx : find L s₁ q = some (.node c) := find_nodeAt ((hg.grows hC0).nodeAt hq)
          have hlook : look L s₁ (.node c) m ≠ none :=
            (look_ne_none hrem.ready.coherent hx).mpr (.inl hne)
          rw [← find_concat hx] at hlook
          have hlist := (hmem m).mpr ⟨hm, (hg.find_ne_none hC0).mp hlook⟩
          rw [hl] at hlist
          cases hlist
        · simp [rmdir, run_bind, hchild, kindOf_spec hC0 ⟨q, hq⟩, hdir, hread, hl, hrun]
      · refine .inl ⟨.enotempty, s0, hg0, ?_⟩
        simp [rmdir, run_bind, hchild, kindOf_spec hC0 ⟨q, hq⟩, hdir, hread, hl, run_throw]
    · refine .inl ⟨.enotdir, s0, hg0, ?_⟩
      simp [rmdir, run_bind, hchild, kindOf_spec hC0 hc0, hdir, run_throw]

theorem Removing.coherent (h : Removing L s s₁ d n c u) (hdrop : Drops drop)
    (hn : Plain n) : Coherent L (s₁.without drop d n c u) :=
  h.ready.touch hn (removed_touches hdrop h.ready.coherent.sound h.ready.dir)

/-- The upper layer after `rename`: a source that is also in the lower layer leaves
a whiteout. -/
def sourced (u : Ino) (n : Name) (lower : Option ι) (fs : TmpFs) : TmpFs :=
  if lower.isSome then mark u n fs else fs

/-- A rename that got as far as the two upper directories. -/
structure Moving (L : LowerTree ι) (s s₁ : State ι) (d : NodeId) (a : Name) (d' : NodeId) (c : NodeId)
    (u u' : Ino) : Prop where
  grew : Grew L s s₁
  source : Ready L s₁ d u
  target : Ready L s₁ d' u'
  kid : s₁.kid d a = some c
  found : ∃ up, found L s d a = some ((s₁.nodes c).kind, (s₁.nodes c).lower, up)
  full : ∀ q, s.nodeAt q = some d → Full L s₁ (q ++ [a])

/-- The ends of a rename: the source is not there, it is too deep to copy, or the
upper layer decides. -/
theorem rename_cases (hL : L.Fits) (depth : Nat) {a b : Name} (hC : Coherent L s)
    (hd : s.Dir d) (hd' : s.Dir d') (ha : Plain a) :
    (found L s d a = none ∧ rename L depth d a d' b s = .error (.errno .enoent) s) ∨
    (∃ s₁, Grew L s s₁ ∧ rename L depth d a d' b s = .error .endless s₁ ∧
      ∀ q, s.nodeAt q = some d → ¬ Shallow L s (q ++ [a]) depth) ∨
    ∃ c u u' s₁, Moving L s s₁ d a d' c u u' ∧
      ((∃ fs', (unmark u' b s₁.upper).rename u a u' b = .ok ((), fs') ∧ rename L depth d a d' b s =
          .ok () ((State.forget { s₁ with upper := sourced u a (s₁.nodes c).lower fs' } d a).forget d' b)) ∨
        (∃ e, (unmark u' b s₁.upper).rename u a u' b = .error e ∧ rename L depth d a d' b s =
          .error (.errno e) { s₁ with upper := unmark u' b s₁.upper })) := by
  cases hchild : child L d a s with
  | error e s0 =>
    obtain ⟨rfl, rfl⟩ := child_error ha hchild
    refine .inl ⟨?_, by simp only [rename, run_bind, hchild]⟩
    rcases child_cases ha.1 with ⟨k, -, hr⟩ | ⟨hk, hm, -⟩ | ⟨kind, lower, upper, -, -, hr⟩
    · rw [hr] at hchild
      cases hchild
    · rw [found, hk, hm]
    · rw [hr] at hchild
      cases hchild
  | ok c s0 =>
    right
    obtain ⟨hg0, hkid, -⟩ := child_ok (hC.lt_next hd.1) ha hchild
    have hC0 := hg0.coherent hC
    obtain ⟨q, hq⟩ := hd.1
    have hq0 : s0.nodeAt (q ++ [a]) = some c := walk_snoc.mpr ⟨d, (hg0.grows hC).nodeAt hq, hkid⟩
    have hkind := kindOf_spec hC0 ⟨_, hq0⟩
    obtain ⟨s₁, hg1, ⟨hcopy, hfull⟩ | ⟨hcopy, hdeep⟩⟩ := copyUpRecursive_spec hL depth c _ s0 hC0 hq0
    · right
      have hC1 := hg1.coherent hC0
      have hg : Grew L s s₁ := hg0.trans hg1
      obtain ⟨u, s2, hens, hg2, hready, -⟩ := ensureUpperDir_ready hC1 (hd.grew hC hg)
      have hC2 := hg2.coherent hC1
      have hd2 := (hd'.grew hC hg).grew hC1 hg2
      obtain ⟨u', s3, hens', hg3, hready', -⟩ := ensureUpperDir_ready hC2 hd2
      have hlate : Grew L s0 s3 := (hg1.trans hg2).trans hg3
      have hkept := (hlate.grows hC0).kept (hC0.linked hkid).2.2.2.1
      refine ⟨c, u, u', s3, ⟨hg0.trans hlate, hready.grew hg3, hready', (hlate.grows hC0).kid hkid,
        ⟨(s0.nodes c).upper, ?_⟩, fun q' hq' => ?_⟩, ?_⟩
      · rw [child_found ha hchild, hkept.kind, hkept.lower]
      · rw [hC.nodeAt_unique hq' hq]
        exact (hg2.trans hg3).full hC1 hfull
      cases hren : (unmark u' b s3.upper).rename u a u' b with
      | ok x =>
        refine .inl ⟨x.2, rfl, ?_⟩
        simp only [unmark] at hren
        simp only [rename, run_bind, hchild, hkind, hcopy, hens, hens', tryUpper_run, onUpper, hren,
          run_get, whiteout, sourced]
        cases (s3.nodes c).lower <;>
          simp only [Option.isSome_none, Option.isSome_some, if_true, if_false, Bool.false_eq_true, run_ite,
            run_bind, tryUpper_run] <;> rfl
      | error e =>
        refine .inr ⟨e, rfl, ?_⟩
        simp only [unmark] at hren
        simp only [rename, run_bind, hchild, hkind, hcopy, hens, hens', tryUpper_run, onUpper, hren]
        rfl
    · refine .inl ⟨s₁, hg0.trans hg1, ?_, fun q' hq' hs => ?_⟩
      · simp only [rename, run_bind, hchild, hkind, hcopy]
      · rw [hC.nodeAt_unique hq' hq] at hs
        exact hdeep (hg0.shallow hC hs)

section

variable {s₁ : State ι} {d' : NodeId} {a b : Name} {u' : Ino}

section

variable (h : Moving L s s₁ d a d' c u u')
include h

/-- Neither name is cached any more where the upper layer changes. -/
theorem Moving.off {x : NodeId} (hx : ((s₁.forget d a).forget d' b).Attached x)
    (he : ((s₁.forget d a).forget d' b).kid x m = some e) :
    (((s₁.forget d a).forget d' b).nodes x).upper = some u → m ≠ a := by
  intro hu hm
  rw [forget_upper, forget_upper] at hu
  obtain rfl := h.source.unique (attached_of_forget (attached_of_forget hx)) hu
  have hkid := kid_of_forget he
  rw [hm, forget_kid_self] at hkid
  cases hkid

theorem Moving.off' {x : NodeId} (hx : ((s₁.forget d a).forget d' b).Attached x)
    (he : ((s₁.forget d a).forget d' b).kid x m = some e) :
    (((s₁.forget d a).forget d' b).nodes x).upper = some u' → m ≠ b := by
  intro hu hm
  rw [forget_upper, forget_upper] at hu
  obtain rfl := h.target.unique (attached_of_forget (attached_of_forget hx)) hu
  rw [hm, forget_kid_self] at he
  cases he

/-- The state a rename returns in is coherent, whatever it did to the two names. -/
theorem Moving.coherent (ha : Plain a) (hb : Plain b)
    {fs1 fs2 fs3 fs4 : TmpFs} (h1 : Touches s₁.upper fs1 u' b) (h2 : Touches fs1 fs2 u a)
    (h3 : Touches fs2 fs3 u' b) (h4 : Touches fs3 fs4 u a) :
    Coherent L ((State.forget { s₁ with upper := fs4 } d a).forget d' b) := by
  have hC0 : Coherent L ((s₁.forget d a).forget d' b) := coherent_forget (coherent_forget h.source.coherent)
  have hC1 := coherent_touch hC0 hb h1 fun hx hu he => h.off' hx he hu
  have hC2 := coherent_touch hC1 ha h2 fun hx hu he => h.off hx he hu
  have hC3 := coherent_touch hC2 hb h3 fun hx hu he => h.off' hx he hu
  exact coherent_touch hC3 ha h4 fun hx hu he => h.off hx he hu

end

theorem sourced_changes (h : fs.Sound) (hu : fs.kind u = .directory) :
    Changes fs (sourced u n lower fs) u (whiteoutName n) := by
  unfold sourced
  split
  · exact (mark_changes h hu).1
  · exact .refl h

/-- The edits of a rename that the upper layer accepts. -/
theorem Moving.edits (h : Moving L s s₁ d a d' c u u')
    (hok : (unmark u' b s₁.upper).rename u a u' b = .ok ((), fs')) :
    ∃ fs2, Touches (unmark u' b s₁.upper) fs2 u a ∧ Touches fs2 fs' u' b ∧
      Touches fs' (sourced u a (s₁.nodes c).lower fs') u a := by
  have h1 : Touches s₁.upper (unmark u' b s₁.upper) u' b :=
    .mark (unmark_changes h.target.coherent.sound)
  have hmove : ∃ fs2, Touches (unmark u' b s₁.upper) fs2 u a ∧ Touches fs2 fs' u' b := by
    obtain ⟨v, -, ⟨-, rfl⟩ | hmoves⟩ := TmpFs.rename_cases h1.sound hok
    · exact ⟨_, .refl h1.sound, .refl h1.sound⟩
    · obtain ⟨fs2, h2, -, h3, -⟩ := hmoves.edits
      exact ⟨fs2, .name h2, .name h3⟩
  obtain ⟨fs2, h2, h3⟩ := hmove
  have hdir : fs'.kind u = .directory :=
    h3.dir h2.sound (h2.dir h1.sound (h1.dir h.source.coherent.sound h.source.dir))
  exact ⟨fs2, h2, h3, .mark (sourced_changes h3.sound hdir)⟩

theorem Moving.source_entry (h : Moving L s s₁ d a d' c u u') (hC : Coherent L s) (hd : s.Attached d) :
    ∃ v, (s₁.nodes c).upper = some v ∧ s₁.upper.entry u a = some v := by
  obtain ⟨q, hq⟩ := hd
  have hq1 : s₁.nodeAt (q ++ [a]) = some c := walk_snoc.mpr ⟨d, (h.grew.grows hC).nodeAt hq, h.kid⟩
  have hne : (s₁.nodes c).upper ≠ none := by
    refine h.full q hq [] (.node c) nofun ?_
    rw [List.append_nil]
    exact find_nodeAt hq1
  obtain ⟨v, hv⟩ := Option.ne_none_iff_exists'.mp hne
  have hm := h.source.coherent.mirror h.source.attached h.kid
  rw [h.source.upper, hv] at hm
  exact ⟨v, hv, hm.upper.symm⟩

theorem rename_coherent (hL : L.Fits) (depth : Nat) (hC : Coherent L s) (hd : s.Dir d) (hd' : s.Dir d')
    (ha : Plain a) (hb : Plain b) : Coherent L (stateOf (rename L depth d a d' b s)) := by
  rcases rename_cases hL depth hC hd hd' ha with ⟨-, hrun⟩ | ⟨s₁, hg, hrun, -⟩ |
    ⟨c, u, u', s₁, hm, ⟨fs', hok, hrun⟩ | ⟨e, -, hrun⟩⟩
  · rw [hrun]
    exact hC
  · rw [hrun]
    exact hg.coherent hC
  · rw [hrun]
    obtain ⟨fs2, h2, h3, h4⟩ := hm.edits hok
    exact hm.coherent ha hb (.mark (unmark_changes hm.target.coherent.sound)) h2 h3 h4
  · rw [hrun]
    exact hm.target.unmark hb

end

/-- What the copy up of a file and a rewritten file keep, a write keeps. -/
theorem writeAt_keeps (hL : L.Fits) (hC : Coherent L s) (hc : s.Live c) (off : Nat)
    (buf : List UInt8) (hg : ∀ {s₁}, Grew L s s₁ → P s₁)
    (hw : ∀ {s₁ fs' v}, P s₁ → Rewrites s₁.upper fs' v → P { s₁ with upper := fs' }) :
    P (stateOf ((Op.writeAt c off buf).run L s)) := by
  rw [Op.run, stateOf_effect]
  obtain ⟨v, s₁, hcopy, hgrew, -⟩ := copyUp_spec hL hC hc
  simp only [writeAt, run_bind, hcopy, onUpper]
  cases hr : s₁.upper.writeAt v off buf with
  | error e => exact hg hgrew
  | ok x => exact hw (hg hgrew) (writeAt_rewrites hr)

theorem setAttr_run (hL : L.Fits) (hC : Coherent L s) (hc : s.Live c) (a : TmpFs.SetAttr) :
    ∃ v s₁, Grew L s s₁ ∧ setAttr L c a s = onUpper (·.setAttr v a) s₁ := by
  by_cases hdir : (s.nodes c).kind = .directory
  · cases hu : (s.nodes c).upper with
    | some v =>
      refine ⟨v, s, .refl s, ?_⟩
      simp only [setAttr, ensureUpperDir, ensureUpperDirIn, run_bind, run_get, hdir, if_true, hu]
      rfl
    | none =>
      obtain ⟨v, s₁, hens, hg, -⟩ := ensureUpperDir_spec hC (hc.resolve_right fun h => h hu) hdir
      refine ⟨v, s₁, hg, ?_⟩
      simp only [setAttr, run_bind, run_get, hdir, if_true, hens]
  · obtain ⟨v, s₁, hcopy, hg, -⟩ := copyUp_spec hL hC hc
    refine ⟨v, s₁, hg, ?_⟩
    simp only [setAttr, run_bind, run_get, hdir, if_false, hcopy]

/-- So does a change of attributes. -/
theorem setAttr_keeps (hL : L.Fits) (hC : Coherent L s) (hc : s.Live c) (a : TmpFs.SetAttr) (hg : ∀ {s₁}, Grew L s s₁ → P s₁)
    (hw : ∀ {s₁ fs' v}, P s₁ → Rewrites s₁.upper fs' v → P { s₁ with upper := fs' }) :
    P (stateOf ((Op.setAttr c a).run L s)) := by
  obtain ⟨v, s₁, hgrew, hrun⟩ := setAttr_run hL hC hc a
  rw [Op.run, hrun, onUpper]
  cases hr : s₁.upper.setAttr v a with
  | error e => exact hg hgrew
  | ok x => exact hw (hg hgrew) (setAttr_rewrites hr)

/-- A call on handles that are not stale, under names that stand for themselves. -/
def Op.Tidy (s : State ι) : Op → Prop
  | .lookup p n => p < s.next ∧ Plain n
  | .readdir _ => True
  | .create p n _ _ => s.Dir p ∧ Plain n
  | .symlink p n _ _ _ => s.Dir p ∧ Plain n
  | .link p n t => s.Dir p ∧ Plain n ∧ t < s.next ∧ s.Live t
  | .writeAt c _ _ => s.Live c
  | .setAttr c _ => s.Live c
  | .unlink p n => s.Dir p ∧ Plain n
  | .rmdir p n => s.Dir p ∧ Plain n
  | .rename _ p old p' new => s.Dir p ∧ Plain old ∧ s.Dir p' ∧ Plain new
  | .remount => True

theorem lookup_grew (h : (Op.lookup p n).Tidy s) : Grew L s (stateOf ((Op.lookup p n).run L s)) := by
  rw [Op.run, stateOf_effect]
  cases hr : child L p n s with
  | ok c s₁ => exact (child_ok h.1 h.2 hr).1
  | error e s₁ =>
    obtain ⟨-, rfl⟩ := child_error h.2 hr
    exact .refl _

theorem readdir_state : stateOf ((Op.readdir p).run L s) = s := by
  rw [Op.run, stateOf_effect]
  simp only [readdir, run_bind, run_get]
  cases listing L s.upper (s.nodes p).lower (s.nodes p).upper <;> rfl

theorem run_coherent (hL : L.Fits) (hC : Coherent L s) (op : Op) (h : op.Tidy s) :
    Coherent L (stateOf (op.run L s)) := by
  cases op with
  | lookup p n => exact (lookup_grew h).coherent hC
  | readdir p =>
    rw [readdir_state]
    exact hC
  | create p n kind attr =>
    rw [Op.run, stateOf_effect]
    exact make_coherent (creates_create n kind attr) hC h.1 h.2
  | symlink p n target uid gid =>
    rw [Op.run, stateOf_effect]
    exact make_coherent (creates_symlink n target uid gid) hC h.1 h.2
  | link p n t => exact link_coherent hL hC h.1 h.2.1 h.2.2.2 h.2.2.1
  | writeAt c off buf => exact writeAt_keeps hL hC h off buf (·.coherent hC) coherent_rewrite
  | setAttr c a => exact setAttr_keeps hL hC h a (·.coherent hC) coherent_rewrite
  | unlink p n =>
    rcases unlink_cases hC h.1 h.2 with hr | ⟨c, u, s₁, hrem, hr⟩
    · rw [Op.run, hr]
      exact hC
    · rw [Op.run, hr]
      exact hrem.coherent unlink_drops h.2
  | rmdir p n =>
    rcases rmdir_cases hL hC h.1 h.2 with ⟨e, s0, hg, hr⟩ | ⟨c, u, s₁, hrem, -, -, hr⟩
    · rw [Op.run, hr]
      exact hg.coherent hC
    · rw [Op.run, hr]
      exact hrem.coherent rmdir_drops h.2
  | rename depth p old p' new => exact rename_coherent hL depth hC h.1 h.2.2.1 h.2.1 h.2.2.2
  | remount => exact coherent_mount hC.sound

theorem step_state (h : step L op s = some s') : s' = stateOf (op.run L s) := by
  unfold step at h
  cases hr : op.run L s with
  | ok a t =>
    rw [hr] at h
    exact (Option.some.inj h).symm
  | error e t =>
    rw [hr] at h
    cases e with
    | errno e => exact (Option.some.inj h).symm
    | endless => cases h

theorem succeeds_run (hok : op.succeeds L s = true) (h : step L op s = some s') :
    op.run L s = .ok () s' := by
  unfold Op.succeeds at hok
  unfold step at h
  cases hr : op.run L s with
  | ok a t =>
    rw [hr] at h
    cases h
    rfl
  | error e t =>
    rw [hr] at hok
    cases hok

theorem fails_run (h : op.succeeds L s = false) (t : State ι) : op.run L s ≠ .ok () t := by
  intro hr
  rw [Op.succeeds, hr] at h
  cases h

theorem step_coherent (hL : L.Fits) (hC : Coherent L s) (ht : op.Tidy s)
    (h : step L op s = some s') : Coherent L s' := by
  rw [step_state h]
  exact run_coherent hL hC op ht

theorem coherent_fresh : Coherent L (State.fresh L) := coherent_mount sound_new

end Fastros.Overlay
