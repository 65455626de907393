import Fastros.Fs.OverlayTree

/-!
# Looking up and copying up

On a node of the tree both always succeed: the upper layer has room, the name is
free there and no whiteout is in the way. They leave a state that has only grown.
-/

namespace Fastros.Overlay

open Fs Tmpfs Tmpfs.TmpFs Lib.Stateful Lib.Walk List

variable {ι : Type} {L : LowerTree ι} {s s' : State ι} {p c : NodeId} {n : Name} {u : Ino}

theorem child_cases (hn : n ≠ dot) :
    (∃ c, s.kid p n = some c ∧ child L p n s = .ok c s) ∨
    (s.kid p n = none ∧ merge L s.upper (s.nodes p).lower (s.nodes p).upper n = none ∧
      child L p n s = .error (.errno .enoent) s) ∨
    (∃ kind lower upper, s.kid p n = none ∧
      merge L s.upper (s.nodes p).lower (s.nodes p).upper n = some (kind, lower, upper) ∧
      child L p n s = .ok s.next (s.addNode p n lower upper kind)) := by
  simp only [child, if_neg hn]
  cases hk : s.kid p n with
  | some c =>
    refine .inl ⟨c, rfl, ?_⟩
    rw [State.kid] at hk
    simp only [run_bind, run_get, hk]
    rfl
  | none =>
    rw [State.kid] at hk
    cases hm : merge L s.upper (s.nodes p).lower (s.nodes p).upper n with
    | none =>
      refine .inr (.inl ⟨rfl, rfl, ?_⟩)
      simp only [run_bind, run_get, hk, hm]
      rfl
    | some x =>
      obtain ⟨kind, lower, upper⟩ := x
      refine .inr (.inr ⟨kind, lower, upper, rfl, rfl, ?_⟩)
      simp only [run_bind, run_get, hk, hm]
      rfl

theorem child_ok (hp : p < s.next) (hn : Plain n) (h : child L p n s = .ok c s') :
    Grew L s s' ∧ s'.kid p n = some c ∧ s'.upper = s.upper := by
  rcases child_cases hn.1 with ⟨d, hd, hr⟩ | ⟨-, -, hr⟩ | ⟨kind, lower, upper, hk, hm, hr⟩
  · rw [hr] at h
    cases h
    exact ⟨.refl s, hd, rfl⟩
  · rw [hr] at h
    cases h
  · rw [hr] at h
    cases h
    exact ⟨(Edit.cache hp hn hk hm).grew, addNode_kid_self (ne_of_lt hp), rfl⟩

theorem child_error {e : Stop} (hn : Plain n) (h : child L p n s = .error e s') :
    e = .errno .enoent ∧ s' = s := by
  rcases child_cases hn.1 with ⟨d, -, hr⟩ | ⟨-, -, hr⟩ | ⟨kind, lower, upper, -, -, hr⟩
  · rw [hr] at h
    cases h
  · rw [hr] at h
    cases h
    exact ⟨rfl, rfl⟩
  · rw [hr] at h
    cases h

/-- A new inode that shows what a lower one shows. -/
theorem twin_of_adds {fs fs' : TmpFs} {x : TmpNode} {j : ι} (h : Adds fs fs' u n x)
    (hx : (x.data.kind, x.data.bytes) = L.shown j) : Twin L fs fs' u n j :=
  ⟨h.changes, h.dir, h.free, h.entry, h.bare, h.shown.trans hx⟩

theorem copyBytes_spec {v : Ino} {bytes : List UInt8} (hle : bytes.length ≤ maxOffset) (turns : Nat) :
    ∀ off (s : State ι), (s.upper.inodes v).data = .file (bytes.take off) → off ≤ bytes.length →
      bytes.length - off < turns →
      ∃ fs', copyBytes v bytes turns off s = .ok () { s with upper := fs' } ∧
        Rewrites s.upper fs' v ∧ (fs'.inodes v).data = .file bytes := by
  induction turns with
  | zero => exact fun off s _ _ h => absurd h (Nat.not_lt_zero _)
  | succ turns ih =>
    intro off s hd hoff hturns
    by_cases hbuf : (bytes.drop off).take copyBuffer = []
    · have hall : bytes.length ≤ off := by
        rcases take_eq_nil_iff.mp hbuf with h | h
        · exact absurd h (by decide)
        · exact drop_eq_nil_iff.mp h
      rw [take_of_length_le hall] at hd
      refine ⟨s.upper, ?_, .refl, hd⟩
      simp only [copyBytes, hbuf, if_true]
      rfl
    have hlen : ((bytes.drop off).take copyBuffer).length =
        min copyBuffer (bytes.length - off) := by
      rw [length_take, length_drop]
    have : 0 < ((bytes.drop off).take copyBuffer).length := length_pos_iff.mpr hbuf
    have hw : s.upper.writeAt v off ((bytes.drop off).take copyBuffer) = .ok (_, _) :=
      writeAt_file hd (by omega)
    have hnext : ((s.upper.setData v (.file (overwrite (bytes.take off) off
        ((bytes.drop off).take copyBuffer)))).inodes v).data =
        .file (bytes.take (off + ((bytes.drop off).take copyBuffer).length)) := by
      rw [setData, setNode_self, overwrite_take bytes hoff, hlen]
      by_cases hc : copyBuffer ≤ bytes.length - off
      · rw [min_eq_left hc]
      · rw [take_of_length_le (by omega), take_of_length_le (by omega)]
    obtain ⟨fs', hrun, hrew, hdata⟩ := ih (off + ((bytes.drop off).take copyBuffer).length)
      { s with upper := s.upper.setData v (.file (overwrite (bytes.take off) off
        ((bytes.drop off).take copyBuffer))) } hnext (by omega) (by omega)
    refine ⟨fs', ?_, (writeAt_rewrites hw).trans hrew, hdata⟩
    simp only [copyBytes, if_neg hbuf, run_bind, onUpper, hw]
    exact hrun

/-- A lower inode is copied under a free name, whatever it is. -/
theorem copyInode_spec (hL : L.Fits) (hs : s.upper.Sound) (hu : s.upper.kind u = .directory)
    (hfree : s.upper.entry u n = none) (j : ι) :
    ∃ fs', copyInode L u n j s = .ok s.upper.nextIno { s with upper := fs' } ∧
      Twin L s.upper fs' u n j := by
  have hmade := hs.made hu
  by_cases hsym : L.kind j = .symlink
  · cases hc : s.upper.symlink u n (L.data j) (L.attr j).uid (L.attr j).gid with
    | error e => exact absurd hfree (symlink_taken hs hu hc)
    | ok x =>
      obtain ⟨v, fs'⟩ := x
      obtain ⟨rfl, x, hx, ha⟩ := symlink_adds hs hmade hc
      refine ⟨fs', ?_, twin_of_adds ha ?_⟩
      · simp only [copyInode, hsym, onUpper, hc]
      · rw [hx, LowerTree.shown, hsym]
        rfl
  by_cases hreg : L.kind j = .regular
  · obtain ⟨fs1, hc⟩ := create_free hs hu hfree (k := .regular) (by decide)
      { L.attr j with rdev := 0 }
    obtain ⟨-, x, hk, hb, ha⟩ := create_adds hs hmade hc
    have hd : (fs1.inodes s.upper.nextIno).data = .file ((L.data j).take 0) := by
      apply data_of_shown
      rw [ha.shown, hk, hb]
      rfl
    obtain ⟨fs', hrun, hrew, hdata⟩ := copyBytes_spec (hL.small j hreg) ((L.data j).length + 1) 0
      { s with upper := fs1 } hd (Nat.zero_le _) (by omega)
    refine ⟨fs', ?_, ha.changes.rewrite hrew le_rfl, ha.dir, ha.free, ?_, ?_, ?_⟩
    · simp only [copyInode, hreg, run_bind, onUpper, hc, hrun]
      rfl
    · rw [hrew.entry, ha.entry]
    · intro k
      rw [hrew.entry, ha.bare]
    · rw [TmpFs.shown, TmpFs.kind, hdata, LowerTree.shown, hreg]
      rfl
  · obtain ⟨fs', hc⟩ := create_free hs hu hfree hsym (L.attr j)
    obtain ⟨-, x, hk, hb, ha⟩ := create_adds hs hmade hc
    refine ⟨fs', ?_, twin_of_adds ha ?_⟩
    · cases hj : L.kind j <;> rw [hj] at hc hsym hreg
      case regular => exact absurd rfl hreg
      case symlink => exact absurd rfl hsym
      all_goals simp only [copyInode, hj, onUpper, hc]
    · rw [hk, hb, LowerTree.shown, if_neg (by simp [hreg, hsym])]

/-- The upper name of a node that is only in the lower layer is free, and not hidden. -/
theorem Coherent.free_of_bare (hC : Coherent L s) (hp : s.Attached p) (hc : s.kid p n = some c)
    (hbare : (s.nodes c).upper = none) (hu : (s.nodes p).upper = some u) :
    s.upper.entry u n = none ∧ s.upper.entry u (whiteoutName n) = none := by
  have hm := hC.mirror hp hc
  rw [hbare, hu] at hm
  exact ⟨hm.upper.symm, (hm.bare rfl).1⟩

/-- A directory of the tree gets an upper inode, and with it the directories above. -/
theorem ensureUpperDirIn_spec (turns : Nat) :
    ∀ c (s : State ι), c < turns → Coherent L s → s.Attached c → (s.nodes c).kind = .directory →
      ∃ u s', ensureUpperDirIn L turns c s = .ok u s' ∧ Grew L s s' ∧
        (s'.nodes c).upper = some u ∧ ∀ a, c < a → (s'.nodes a).upper = (s.nodes a).upper := by
  induction turns with
  | zero => exact fun c s hc => absurd hc (Nat.not_lt_zero c)
  | succ turns ih =>
    intro c s hlt hC hc hdir
    cases hup : (s.nodes c).upper with
    | some u =>
      refine ⟨u, s, ?_, .refl s, hup, fun _ _ => rfl⟩
      simp only [ensureUpperDirIn, run_bind, run_get, hup]
      rfl
    | none =>
      obtain ⟨p, hp, hpar, hkid⟩ := hC.parent_of hc (hC.ne_root_of_bare hup)
      have hpc : p < c := (hC.linked hkid).2.2.1
      obtain ⟨u, s1, hrun, hg, hu, hlate⟩ := ih p s (lt_of_lt_of_le hpc (Nat.le_of_lt_succ hlt)) hC
        hp (hC.kind_of_bare hp hkid hup)
      have hC1 := hg.coherent hC
      have hgrow := hg.grows hC
      have hp1 := hgrow.attached hp
      have hkid1 := hgrow.kid hkid
      have hkept := hgrow.kept (hC.lt_next hc)
      have hbare1 : (s1.nodes c).upper = none := (hlate c hpc).trans hup
      obtain ⟨hfree, hwh⟩ := hC1.free_of_bare hp1 hkid1 hbare1 hu
      have hukind : s1.upper.kind u = .directory := by
        rw [(hC1.upper_kind hu).2]
        exact hC1.kind_of_bare hp1 hkid1 hbare1
      obtain ⟨j, hj⟩ := Option.ne_none_iff_exists'.mp ((hC.mirror hp hkid).bare hup).2
      have hjdir : L.kind j = .directory := (hC.lower_kind hj).trans hdir
      obtain ⟨e, he⟩ := unlink_free hwh
      obtain ⟨e', he'⟩ := lookup_free hfree
      obtain ⟨fs', hcr⟩ := create_free hC1.sound hukind hfree (k := .directory) (by decide)
        { L.attr j with rdev := 0 }
      obtain ⟨-, x, hxk, hxb, ha⟩ := create_adds hC1.sound (hC1.sound.made hukind) hcr
      have ht : Twin L s1.upper fs' u (s.nodes c).name j := twin_of_adds ha (by
        rw [hxk, hxb, LowerTree.shown, hjdir]
        rfl)
      have hedit := Edit.copy hp1 hkid1 hbare1 (hkept.lower.trans hj) hu ht
      refine ⟨s1.upper.nextIno, _, ?_, hg.trans hedit.grew, setUpper_self, ?_⟩
      · simp only [ensureUpperDirIn, run_bind, run_get, hup, hpar, hrun, tryUpper, he, he', hj, onUpper,
          hcr]
        rfl
      · intro a ha
        rw [setUpper_ne (ne_of_gt ha)]
        exact hlate a (lt_trans hpc ha)

theorem ensureUpperDir_spec (hC : Coherent L s) (hc : s.Attached c)
    (hdir : (s.nodes c).kind = .directory) :
    ∃ u s', ensureUpperDir L c s = .ok u s' ∧ Grew L s s' ∧ (s'.nodes c).upper = some u ∧
      s'.upper.kind u = .directory ∧ ∀ a, c < a → (s'.nodes a).upper = (s.nodes a).upper := by
  obtain ⟨u, s', hrun, hg, hu, hlate⟩ :=
    ensureUpperDirIn_spec (c + 1) c s (Nat.lt_succ_self c) hC hc hdir
  refine ⟨u, s', hrun, hg, hu, ?_, hlate⟩
  rw [((hg.coherent hC).upper_kind hu).2, ((hg.grows hC).kept (hC.lt_next hc)).kind, hdir]

/-- A node of the tree gets an upper inode; one that has it keeps it. -/
theorem copyUp_spec (hL : L.Fits) (hC : Coherent L s)
    (hc : s.Attached c ∨ (s.nodes c).upper ≠ none) :
    ∃ u s', copyUp L c s = .ok u s' ∧ Grew L s s' ∧ (s'.nodes c).upper = some u := by
  cases hup : (s.nodes c).upper with
  | some u =>
    refine ⟨u, s, ?_, .refl s, hup⟩
    simp only [copyUp, run_bind, run_get, hup]
    rfl
  | none =>
    have hc : s.Attached c := hc.resolve_right fun h => h hup
    obtain ⟨p, hp, hpar, hkid⟩ := hC.parent_of hc (hC.ne_root_of_bare hup)
    have hpdir := hC.kind_of_bare hp hkid hup
    obtain ⟨u, s1, hrun, hg, hu, hukind, hlate⟩ := ensureUpperDir_spec hC hp hpdir
    have hC1 := hg.coherent hC
    have hgrow := hg.grows hC
    have hkid1 := hgrow.kid hkid
    have hbare1 : (s1.nodes c).upper = none := (hlate c (hC.linked hkid).2.2.1).trans hup
    obtain ⟨hfree, hwh⟩ := hC1.free_of_bare (hgrow.attached hp) hkid1 hbare1 hu
    obtain ⟨j, hj⟩ := Option.ne_none_iff_exists'.mp ((hC.mirror hp hkid).bare hup).2
    obtain ⟨e, he⟩ := unlink_free hwh
    obtain ⟨fs', hcopy, ht⟩ := copyInode_spec hL hC1.sound hukind hfree j
    have hj1 : (s1.nodes c).lower = some j := (hgrow.kept (hC.lt_next hc)).lower.trans hj
    have hedit := Edit.copy (hgrow.attached hp) hkid1 hbare1 hj1 hu ht
    refine ⟨s1.upper.nextIno, _, ?_, hg.trans hedit.grew, setUpper_self⟩
    simp only [copyUp, run_bind, run_get, hup, hj, hpar, hrun, tryUpper, he, hcopy]
    rfl

end Fastros.Overlay
