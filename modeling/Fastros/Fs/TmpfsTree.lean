import Fastros.Fs.Tmpfs
import Fastros.Lib.Walk

/-!
# The directory tree of a tmpfs

Directories form a tree below the root: a directory is held by one entry. Each
operation on a directory changes one of its entries and nothing else that was
there.
-/

namespace Fastros.Tmpfs

open Fs Lib.Walk List

/-- The contents of a regular file, the target of a symbolic link. -/
def Data.bytes : Data → List UInt8
  | .file bytes => bytes
  | .symlink target => target
  | _ => []

section

variable {α β : Type} {x : Except Errno α} {f : α → Except Errno β} {b : β} {e : Errno}

theorem bind_eq_ok_iff : x >>= f = .ok b ↔ ∃ a, x = .ok a ∧ f a = .ok b := by
  cases x <;> simp [bind, Except.bind]

theorem error_of_bind (h : x >>= f = .error e) (hf : ∀ a, ∃ b, f a = .ok b) : x = .error e := by
  cases x with
  | error e' =>
    cases h
    rfl
  | ok a =>
    obtain ⟨b, hb⟩ := hf a
    cases hb.symm.trans h

end

namespace TmpFs

variable {fs fs' : TmpFs} {u v : Ino} {n : Name}
variable {u' : Ino} {a b : Name} {off : Nat}

/-- What an inode shows: its kind and its bytes. -/
def shown (fs : TmpFs) (v : Ino) : FileType × List UInt8 := (fs.kind v, (fs.inodes v).data.bytes)

structure Sound (fs : TmpFs) : Prop where
  forest : Forest fs.entry rootIno fun v => fs.kind v = .directory
  root : fs.kind rootIno = .directory
  made : ∀ {u}, fs.kind u = .directory → u < fs.nextIno
  held : ∀ {u n v}, fs.entry u n = some v → v < fs.nextIno

/-- One entry of one directory may have changed, and inodes may have been added. -/
structure Changes (fs fs' : TmpFs) (u : Ino) (n : Name) : Prop where
  sound : fs'.Sound
  entry : ∀ a k, ¬ (a = u ∧ k = n) → fs'.entry a k = fs.entry a k
  shown : ∀ v, v < fs.nextIno → fs'.shown v = fs.shown v
  next : fs.nextIno ≤ fs'.nextIno

theorem Changes.refl (h : fs.Sound) : Changes fs fs u n :=
  ⟨h, fun _ _ _ => rfl, fun _ _ => rfl, le_rfl⟩

theorem Changes.kind (h : Changes fs fs' u n) (hv : v < fs.nextIno) : fs'.kind v = fs.kind v :=
  congrArg Prod.fst (h.shown v hv)

theorem kind_directory : fs.kind u = .directory ↔ ∃ es, (fs.inodes u).data = .dir es := by
  unfold kind
  cases (fs.inodes u).data <;> simp [Data.kind]

theorem entry_dir {es : Directory} (h : (fs.inodes u).data = .dir es) (n : Name) :
    fs.entry u n = es.lookup n := by
  rw [entry, h]

theorem setNode_self (x : TmpNode) : (fs.setNode v x).inodes v = x := Function.update_self ..

theorem setNode_ne (x : TmpNode) (h : u ≠ v) : (fs.setNode v x).inodes u = fs.inodes u :=
  Function.update_of_ne h ..

section

variable {es es' : Directory}

theorem setDir_data : ((fs.setData u (.dir es')).inodes u).data = .dir es' := by
  rw [setData, setNode_self]

theorem setDir_entry_self (n : Name) : (fs.setData u (.dir es')).entry u n = es'.lookup n :=
  entry_dir setDir_data n

theorem setDir_entry_ne {a : Ino} (h : a ≠ u) (n : Name) :
    (fs.setData u (.dir es')).entry a n = fs.entry a n := by
  rw [entry, setData, setNode_ne _ h]
  rfl

theorem setDir_shown (hd : (fs.inodes u).data = .dir es) (v : Ino) :
    (fs.setData u (.dir es')).shown v = fs.shown v := by
  by_cases h : v = u
  · subst h
    simp only [shown, kind, setDir_data, hd]
    rfl
  · simp only [shown, kind, setData, setNode_ne _ h]

theorem setDir_kind (hd : (fs.inodes u).data = .dir es) (v : Ino) :
    (fs.setData u (.dir es')).kind v = fs.kind v :=
  congrArg Prod.fst (setDir_shown hd v)

/-- Changing the entry of one name; a directory put there may not be held elsewhere. -/
theorem changes_setDir (h : fs.Sound) (hd : (fs.inodes u).data = .dir es) {n : Name}
    (hoff : ∀ k, k ≠ n → es'.lookup k = es.lookup k)
    (hn : ∀ v, es'.lookup n = some v → v < fs.nextIno ∧ v ≠ rootIno ∧
      (fs.kind v = .directory → ∀ a k, fs.entry a k ≠ some v)) :
    Changes fs (fs.setData u (.dir es')) u n := by
  have hentry : ∀ a k, ¬ (a = u ∧ k = n) → (fs.setData u (.dir es')).entry a k = fs.entry a k := by
    intro a k hak
    by_cases ha : a = u
    · subst ha
      rw [setDir_entry_self, hoff k fun hk => hak ⟨rfl, hk⟩, entry_dir hd]
    · exact setDir_entry_ne ha k
  have hcases : ∀ {a k x}, (fs.setData u (.dir es')).entry a k = some x →
      (a = u ∧ k = n ∧ es'.lookup n = some x) ∨ fs.entry a k = some x := by
    intro a k x hx
    by_cases hak : a = u ∧ k = n
    · obtain ⟨rfl, rfl⟩ := hak
      rw [setDir_entry_self] at hx
      exact .inl ⟨rfl, rfl, hx⟩
    · rw [hentry a k hak] at hx
      exact .inr hx
  refine ⟨⟨⟨?_, ?_, ?_⟩, ?_, ?_, ?_⟩, hentry, fun v _ => setDir_shown hd v, le_rfl⟩
  · intro a k x hx
    rw [setDir_kind hd]
    rcases hcases hx with ⟨rfl, -, -⟩ | hx
    · exact kind_directory.mpr ⟨es, hd⟩
    · exact h.forest.inner hx
  · intro a k a' k' x hdir hx hx'
    rw [setDir_kind hd] at hdir
    rcases hcases hx with ⟨ha, hk, hx⟩ | hx
    · rcases hcases hx' with ⟨ha', hk', -⟩ | hx'
      · exact ⟨ha.trans ha'.symm, hk.trans hk'.symm⟩
      · exact absurd hx' ((hn x hx).2.2 hdir _ _)
    · rcases hcases hx' with ⟨-, -, hx'⟩ | hx'
      · exact absurd hx ((hn x hx').2.2 hdir _ _)
      · exact h.forest.single hdir hx hx'
  · intro a k hx
    rcases hcases hx with ⟨-, -, hx⟩ | hx
    · exact (hn _ hx).2.1 rfl
    · exact h.forest.root hx
  · rw [setDir_kind hd]
    exact h.root
  · intro a ha
    rw [setDir_kind hd] at ha
    exact h.made ha
  · intro a k x hx
    rcases hcases hx with ⟨-, -, hx⟩ | hx
    · exact (hn x hx).1
    · exact h.held hx

theorem changes_erase (h : fs.Sound) (hd : (fs.inodes u).data = .dir es) (n : Name) :
    Changes fs (fs.setData u (.dir (es.erase n))) u n ∧
      (fs.setData u (.dir (es.erase n))).entry u n = none := by
  refine ⟨changes_setDir h hd (fun k hk => AList.lookup_erase_ne hk) ?_, ?_⟩
  · rw [AList.lookup_erase]
    exact nofun
  · rw [setDir_entry_self, AList.lookup_erase]

/-- Putting an inode under a name; a directory may not be held elsewhere. -/
theorem changes_insert (h : fs.Sound) (hd : (fs.inodes u).data = .dir es) (n : Name)
    (hv : v < fs.nextIno) (hroot : v ≠ rootIno)
    (hfree : fs.kind v = .directory → ∀ a k, fs.entry a k ≠ some v) :
    Changes fs (fs.setData u (.dir (es.insert n v))) u n ∧
      (fs.setData u (.dir (es.insert n v))).entry u n = some v := by
  refine ⟨changes_setDir h hd (fun k hk => AList.lookup_insert_ne hk) ?_, ?_⟩
  · rw [AList.lookup_insert]
    rintro _ ⟨⟩
    exact ⟨hv, hroot, hfree⟩
  · rw [setDir_entry_self, AList.lookup_insert]

end

theorem sound_new : new.Sound := by
  have hdata : ∀ u, u ≠ rootIno → (new.inodes u).data = .fifo := by
    intro u hu
    simp only [new, Function.update_of_ne hu]
  have hroot : (new.inodes rootIno).data = .dir ∅ := rfl
  have hentry : ∀ {u n v}, ¬ new.entry u n = some v := by
    intro u n v hv
    by_cases hu : u = rootIno
    · rw [hu, entry_dir hroot, AList.lookup_empty] at hv
      cases hv
    · rw [entry, hdata u hu] at hv
      cases hv
  refine ⟨⟨fun hv => absurd hv hentry, fun _ hv => absurd hv hentry, hentry⟩, rfl, ?_,
    fun hv => absurd hv hentry⟩
  intro u hu
  by_cases h : u = rootIno
  · rw [h]
    exact Nat.lt_succ_self 1
  · rw [kind, hdata u h] at hu
    cases hu

theorem Sound.unmade (h : fs.Sound) (hu : fs.nextIno ≤ u) {k : Name} : fs.entry u k = none := by
  cases he : fs.entry u k with
  | none => rfl
  | some w => exact absurd (h.made (h.forest.inner he)) (not_lt.mpr hu)

theorem alloc_self (x : TmpNode) : (fs.alloc x).inodes fs.nextIno = x := Function.update_self ..

theorem alloc_ne (x : TmpNode) (h : v ≠ fs.nextIno) : (fs.alloc x).inodes v = fs.inodes v :=
  Function.update_of_ne h ..

theorem alloc_kind_ne (x : TmpNode) (h : v ≠ fs.nextIno) : (fs.alloc x).kind v = fs.kind v := by
  rw [kind, alloc_ne x h]
  rfl

variable {x : TmpNode} {k : FileType} {e : Errno}

/-- A fresh inode holds nothing, so no entry changes. -/
theorem alloc_entry (h : fs.Sound) (hx : ∀ es, x.data = .dir es → es = ∅) (a : Ino)
    (k : Name) : (fs.alloc x).entry a k = fs.entry a k := by
  by_cases ha : a = fs.nextIno
  · subst ha
    rw [h.unmade le_rfl, entry, alloc_self]
    cases hd : x.data with
    | dir es =>
      rw [hx es hd]
      exact AList.lookup_empty k
    | _ => rfl
  · rw [entry, alloc_ne x ha]
    rfl

theorem alloc_shown (x : TmpNode) (h : v < fs.nextIno) : (fs.alloc x).shown v = fs.shown v := by
  have hne : v ≠ fs.nextIno := ne_of_lt h
  simp only [shown, kind, alloc_ne x hne]

/-- A new inode without entries keeps the filesystem sound. -/
theorem sound_alloc (h : fs.Sound) (hx : ∀ es, x.data = .dir es → es = ∅) : (fs.alloc x).Sound := by
  have hkind : ∀ {a}, a < fs.nextIno → (fs.alloc x).kind a = fs.kind a := fun ha =>
    alloc_kind_ne x (ne_of_lt ha)
  refine ⟨⟨?_, ?_, ?_⟩, ?_, ?_, ?_⟩
  · intro a k v hv
    rw [alloc_entry h hx] at hv
    rw [hkind (h.made (h.forest.inner hv))]
    exact h.forest.inner hv
  · intro a k a' k' v hdir hv hv'
    rw [alloc_entry h hx] at hv hv'
    rw [hkind (h.held hv)] at hdir
    exact h.forest.single hdir hv hv'
  · intro a k hv
    rw [alloc_entry h hx] at hv
    exact h.forest.root hv
  · rw [hkind (h.made h.root)]
    exact h.root
  · intro a ha
    by_cases hn : a = fs.nextIno
    · rw [hn]
      exact Nat.lt_succ_self _
    · rw [alloc_kind_ne x hn] at ha
      exact Nat.lt_succ_of_lt (h.made ha)
  · intro a k v hv
    rw [alloc_entry h hx] at hv
    exact Nat.lt_succ_of_lt (h.held hv)

/-- A new inode under a free name. -/
structure Adds (fs fs' : TmpFs) (u : Ino) (n : Name) (x : TmpNode) : Prop where
  changes : Changes fs fs' u n
  entry : fs'.entry u n = some fs.nextIno
  free : fs.entry u n = none
  dir : fs.kind u = .directory
  bare : ∀ k, fs'.entry fs.nextIno k = none
  shown : fs'.shown fs.nextIno = (x.data.kind, x.data.bytes)

/-- A name is added to a directory that does not have it. -/
theorem addChild_eq_ok : fs.addChild u n v = .ok fs' ↔
    ∃ es, (fs.inodes u).data = .dir es ∧ es.lookup n = none ∧
      fs' = fs.setData u (.dir (es.insert n v)) := by
  unfold addChild
  cases hd : (fs.inodes u).data with
  | dir es => cases hl : es.lookup n <;> simp [hl, eq_comm]
  | _ => simp

theorem adds_of_addChild (h : fs.Sound) (hx : ∀ es, x.data = .dir es → es = ∅)
    (hu : u < fs.nextIno) (ha : (fs.alloc x).addChild u n fs.nextIno = .ok fs') :
    Adds fs fs' u n x := by
  obtain ⟨es, hd, hl, rfl⟩ := addChild_eq_ok.mp ha
  have hsound := sound_alloc h hx
  have hentry := alloc_entry h hx
  have hne : u ≠ fs.nextIno := ne_of_lt hu
  have hfresh : ∀ a k, (fs.alloc x).entry a k ≠ some fs.nextIno := by
    intro a k hk
    rw [hentry] at hk
    exact absurd (h.held hk) (lt_irrefl _)
  have hroot : fs.nextIno ≠ rootIno := ne_of_gt (h.made h.root)
  obtain ⟨hch, hself⟩ := changes_insert hsound hd n (Nat.lt_succ_self fs.nextIno) hroot
    fun _ => hfresh
  refine ⟨⟨hch.sound, ?_, ?_, ?_⟩, hself, ?_, ?_, ?_, ?_⟩
  · intro a k hak
    rw [hch.entry a k hak, hentry]
  · intro w hw
    rw [hch.shown w (Nat.lt_succ_of_lt hw), alloc_shown x hw]
  · exact Nat.le_succ _
  · rw [← hentry, entry_dir hd, hl]
  · rw [← alloc_kind_ne x hne]
    exact kind_directory.mpr ⟨es, hd⟩
  · intro k
    rw [hch.entry _ k fun hk => hne hk.1.symm, hentry, h.unmade le_rfl]
  · rw [hch.shown _ (Nat.lt_succ_self fs.nextIno), shown, kind, alloc_self]

theorem make_bare {d : Data} (h : Data.make k = .ok d) :
    d.kind = k ∧ d.bytes = [] ∧ ∀ es, d = .dir es → es = ∅ := by
  cases k <;> simp only [Data.make] at h <;> cases h <;> simp [Data.kind, Data.bytes]

/-- `create` adds one entry, with a new inode. -/
theorem create_adds (h : fs.Sound) {attr : Attr} (hu : u < fs.nextIno)
    (hc : fs.create u n k attr = .ok (v, fs')) :
    v = fs.nextIno ∧ ∃ x : TmpNode, x.data.kind = k ∧ x.data.bytes = [] ∧ Adds fs fs' u n x := by
  obtain ⟨d, hm, hc⟩ := bind_eq_ok_iff.mp hc
  obtain ⟨fs'', ha, hc⟩ := bind_eq_ok_iff.mp hc
  cases hc
  obtain ⟨hk, hb, hbare⟩ := make_bare hm
  exact ⟨rfl, _, hk, hb, adds_of_addChild h hbare hu ha⟩

theorem addChild_taken (hu : fs.kind u = .directory) (h : fs.addChild u n v = .error e) :
    fs.entry u n ≠ none := by
  obtain ⟨es, hd⟩ := kind_directory.mp hu
  rw [entry_dir hd]
  intro hl
  simp only [addChild, hd, hl] at h
  cases h

theorem alloc_addChild_taken (hs : fs.Sound) (hx : ∀ es, x.data = .dir es → es = ∅)
    (hu : fs.kind u = .directory)
    (h : (fs.alloc x).addChild u n fs.nextIno = .error e) : fs.entry u n ≠ none := by
  rw [← alloc_entry hs hx]
  refine addChild_taken ?_ h
  rw [alloc_kind_ne x (ne_of_lt (hs.made hu))]
  exact hu

/-- `create` in a directory fails only for a name that is taken. -/
theorem create_taken (h : fs.Sound) {attr : Attr}
    (hu : fs.kind u = .directory) (hk : k ≠ .symlink) (hc : fs.create u n k attr = .error e) :
    fs.entry u n ≠ none := by
  unfold create at hc
  cases hm : Data.make k with
  | error e' => cases k <;> simp [Data.make] at hm hk
  | ok d =>
    rw [hm] at hc
    exact alloc_addChild_taken h (make_bare hm).2.2 hu (error_of_bind hc fun _ => ⟨_, rfl⟩)

variable {buf bytes target : List UInt8} {gid size uid : Nat}

theorem symlink_adds (h : fs.Sound) (hu : u < fs.nextIno)
    (hc : fs.symlink u n target uid gid = .ok (v, fs')) :
    v = fs.nextIno ∧ ∃ x : TmpNode, x.data = .symlink target ∧ Adds fs fs' u n x := by
  obtain ⟨fs'', ha, hc⟩ := bind_eq_ok_iff.mp hc
  cases hc
  exact ⟨rfl, _, rfl, adds_of_addChild h (fun _ he => by cases he) hu ha⟩

theorem symlink_taken (h : fs.Sound)
    (hu : fs.kind u = .directory) (hc : fs.symlink u n target uid gid = .error e) :
    fs.entry u n ≠ none :=
  alloc_addChild_taken h (fun _ he => by cases he) hu (error_of_bind hc fun _ => ⟨_, rfl⟩)

theorem link_changes (h : fs.Sound) (hv : v < fs.nextIno) (hl : fs.link u n v = .ok ((), fs')) :
    Changes fs fs' u n ∧ fs'.entry u n = some v ∧ fs.entry u n = none ∧ fs.kind v ≠ .directory := by
  unfold link at hl
  split at hl
  · cases hl
  rename_i hk
  obtain ⟨fs'', ha, hl⟩ := bind_eq_ok_iff.mp hl
  cases hl
  obtain ⟨es, hd, hfree, rfl⟩ := addChild_eq_ok.mp ha
  have hroot : v ≠ rootIno := by
    rintro rfl
    exact hk h.root
  obtain ⟨hch, hself⟩ := changes_insert h hd n hv hroot fun hdir => absurd hdir hk
  exact ⟨hch, hself, by rw [entry_dir hd, hfree], hk⟩

theorem link_taken (hu : fs.kind u = .directory) (hv : fs.kind v ≠ .directory)
    (hl : fs.link u n v = .error e) : fs.entry u n ≠ none := by
  unfold link at hl
  rw [if_neg hv] at hl
  exact addChild_taken hu (error_of_bind hl fun _ => ⟨_, rfl⟩)

theorem unlink_changes (h : fs.Sound) (hu : fs.unlink u n = .ok ((), fs')) :
    Changes fs fs' u n ∧ fs'.entry u n = none := by
  unfold unlink at hu
  split at hu
  · rename_i es hd
    split at hu
    · cases hu
    split at hu
    · cases hu
    · cases hu
      exact changes_erase h hd n
  · cases hu

/-- `unlink` in a directory fails only for a directory, or for no entry. -/
theorem unlink_kept (hu : fs.kind u = .directory) (h : fs.unlink u n = .error e) :
    ∀ v, fs.entry u n = some v → fs.kind v = .directory := by
  obtain ⟨es, hd⟩ := kind_directory.mp hu
  intro v hv
  rw [entry_dir hd] at hv
  simp only [unlink, hd, hv] at h
  split at h
  · assumption
  · cases h

theorem isEmptyDir_iff (hu : fs.kind u = .directory) :
    fs.isEmptyDir u = true ↔ ∀ n, fs.entry u n = none := by
  obtain ⟨es, hd⟩ := kind_directory.mp hu
  simp only [isEmptyDir, hd, entry_dir hd, List.isEmpty_iff]
  constructor
  · intro h n
    have he : es = ∅ := AList.ext h
    rw [he, AList.lookup_empty]
  intro h
  rw [List.eq_nil_iff_forall_not_mem]
  rintro ⟨k, x⟩ hx
  have hs := AList.mem_lookup_iff.mpr hx
  rw [Option.mem_def, h k] at hs
  cases hs

theorem rmdir_changes (h : fs.Sound) (hu : fs.rmdir u n = .ok ((), fs')) :
    Changes fs fs' u n ∧ fs'.entry u n = none := by
  unfold rmdir at hu
  split at hu
  · rename_i es hd
    split at hu
    · cases hu
    split at hu
    · cases hu
    split at hu
    · cases hu
    · cases hu
      exact changes_erase h hd n
  · cases hu

/-- `rmdir` in a directory fails unless the entry is an empty directory. -/
theorem rmdir_kept (hu : fs.kind u = .directory) (h : fs.rmdir u n = .error e) :
    ∀ v, fs.entry u n = some v → fs.kind v ≠ .directory ∨ fs.isEmptyDir v = false := by
  obtain ⟨es, hd⟩ := kind_directory.mp hu
  intro v hv
  rw [entry_dir hd] at hv
  simp only [rmdir, hd, hv] at h
  split at h
  · exact .inl ‹_›
  split at h
  · rename_i he
    exact .inr (by simpa using he)
  · cases h

theorem unlink_free (h : fs.entry u n = none) : ∃ e, fs.unlink u n = .error e := by
  unfold entry at h
  unfold unlink
  cases hd : (fs.inodes u).data with
  | dir es =>
    rw [hd] at h
    simp only [h]
    exact ⟨_, rfl⟩
  | _ => exact ⟨_, rfl⟩

theorem lookup_ok : fs.lookup u a = .ok v ↔ fs.entry u a = some v := by
  unfold lookup entry
  cases (fs.inodes u).data with
  | dir es => cases hl : es.lookup a <;> simp [hl]
  | _ => simp

theorem lookup_free (h : fs.entry u n = none) : ∃ e, fs.lookup u n = .error e := by
  cases hl : fs.lookup u n with
  | error e => exact ⟨e, rfl⟩
  | ok v => cases h.symm.trans (lookup_ok.mp hl)

theorem create_free (h : fs.Sound) (hu : fs.kind u = .directory)
    (hfree : fs.entry u n = none) (hk : k ≠ .symlink) (attr : Attr) :
    ∃ fs', fs.create u n k attr = .ok (fs.nextIno, fs') := by
  cases hc : fs.create u n k attr with
  | error e => exact absurd hfree (create_taken h hu hk hc)
  | ok x =>
    obtain ⟨v, fs'⟩ := x
    obtain ⟨rfl, -⟩ := create_adds h (h.made hu) hc
    exact ⟨fs', rfl⟩

/-- The inode `v` may take the place of `ex`. -/
structure Replaces (fs : TmpFs) (v ex : Ino) : Prop where
  kind : fs.kind v = .directory ↔ fs.kind ex = .directory
  empty : fs.kind ex = .directory → ∀ n, fs.entry ex n = none

theorem replaceable_iff {ex : Ino} : fs.replaceable v ex = .ok () ↔ Replaces fs v ex := by
  unfold replaceable
  by_cases hv : fs.kind v = .directory
  · by_cases hex : fs.kind ex = .directory
    · by_cases he : fs.isEmptyDir ex = true
      · simp only [hv, hex, he, not_true_eq_false, and_false, false_and, if_false, Bool.true_eq_false, true_iff]
        exact ⟨by simp [hv, hex], fun _ => (isEmptyDir_iff hex).mp he⟩
      have he' : fs.isEmptyDir ex = false := by simpa using he
      simp only [hv, hex, he', not_true_eq_false, and_false, false_and, if_false, and_self, if_true,
        reduceCtorEq, false_iff]
      exact fun h => he ((isEmptyDir_iff hex).mpr (h.empty hex))
    · simp only [hv, hex, not_false_eq_true, and_self, if_true, reduceCtorEq, false_iff]
      exact fun h => hex (h.kind.mp hv)
  · by_cases hex : fs.kind ex = .directory
    · simp only [hv, hex, not_true_eq_false, not_false_eq_true, if_false, and_self, if_true,
        reduceCtorEq, false_iff]
      exact fun h => hv (h.kind.mpr hex)
    · simp only [hv, hex, not_false_eq_true, and_true, and_false, false_and, if_false, true_iff]
      exact ⟨by simp [hv, hex], fun h => absurd h hex⟩

/-- The name `a` of `u` gives its inode `v` to the name `b` of `u'`. -/
structure Moves (fs fs' : TmpFs) (u : Ino) (a : Name) (u' : Ino) (b : Name) (v : Ino) : Prop where
  source : fs.entry u a = some v
  replaced : ∀ ex, fs.entry u' b = some ex → ex ≠ v ∧ Replaces fs v ex
  edits : ∃ fs₁, Changes fs fs₁ u a ∧ fs₁.entry u a = none ∧ Changes fs₁ fs' u' b ∧
    fs'.entry u' b = some v

/-- A rename removes one entry and sets another. -/
theorem move_moves (h : fs.Sound) (hv : fs.entry u a = some v) (hu' : fs.kind u' = .directory) :
    ∃ fs1, Changes fs fs1 u a ∧ fs1.entry u a = none ∧ Changes fs1 (fs.move u a u' b v) u' b ∧
      (fs.move u a u' b v).entry u' b = some v := by
  obtain ⟨es, hd⟩ := kind_directory.mp (h.forest.inner hv)
  obtain ⟨hch, hgone⟩ := changes_erase h hd a
  have hk := hch.kind (h.made hu')
  rw [hu'] at hk
  obtain ⟨es', hd'⟩ := kind_directory.mp hk
  have hroot : v ≠ rootIno := by
    rintro rfl
    exact h.forest.root hv
  -- the only entry that held a directory is gone
  have hfree : (fs.setData u (.dir (es.erase a))).kind v = .directory →
      ∀ x k, (fs.setData u (.dir (es.erase a))).entry x k ≠ some v := by
    intro hdir x k hx
    rw [setDir_kind hd] at hdir
    by_cases hxk : x = u ∧ k = a
    · obtain ⟨rfl, rfl⟩ := hxk
      rw [hgone] at hx
      cases hx
    · rw [hch.entry x k hxk] at hx
      exact hxk (h.forest.single hdir hx hv)
  obtain ⟨hch', hself⟩ := changes_insert hch.sound hd' b (h.held hv) hroot hfree
  refine ⟨_, hch, hgone, ?_⟩
  simp only [move, hd, hd']
  exact ⟨hch', hself⟩

/-- A rename does nothing between two names of one inode, or moves the entry. -/
theorem rename_cases (h : fs.Sound) (hr : fs.rename u a u' b = .ok ((), fs')) :
    ∃ v, fs.entry u a = some v ∧
      ((fs.entry u' b = some v ∧ fs' = fs) ∨ Moves fs fs' u a u' b v) := by
  obtain ⟨v, hl, hr⟩ := bind_eq_ok_iff.mp hr
  have hv := lookup_ok.mp hl
  refine ⟨v, hv, ?_⟩
  cases hd : (fs.inodes u').data with
  | dir es =>
    have hu' : fs.kind u' = .directory := kind_directory.mpr ⟨es, hd⟩
    simp only [hd] at hr
    cases hex : es.lookup b with
    | none =>
      simp only [hex] at hr
      cases hr
      refine .inr ⟨hv, fun ex he => ?_, move_moves h hv hu'⟩
      rw [entry_dir hd, hex] at he
      cases he
    | some ex =>
      have hent : fs.entry u' b = some ex := by rw [entry_dir hd, hex]
      simp only [hex] at hr
      split at hr
      · rename_i heq
        cases hr
        rw [heq] at hent
        exact .inl ⟨hent, rfl⟩
      rename_i hne
      obtain ⟨_, hrep, hr⟩ := bind_eq_ok_iff.mp hr
      cases hr
      refine .inr ⟨hv, fun ex' he => ?_, move_moves h hv hu'⟩
      rw [hent] at he
      cases he
      exact ⟨hne, replaceable_iff.mp hrep⟩
  | _ =>
    simp only [hd] at hr
    cases hr

/-- A rename of an entry that is there fails on the entry it would replace. -/
theorem rename_error (hv : fs.entry u a = some v)
    (hu' : fs.kind u' = .directory) (hr : fs.rename u a u' b = .error e) :
    ∃ ex, fs.entry u' b = some ex ∧ ex ≠ v ∧ ¬ Replaces fs v ex := by
  have hl := lookup_ok.mpr hv
  obtain ⟨es, hd⟩ := kind_directory.mp hu'
  simp only [rename, bind, Except.bind, hl, hd] at hr
  cases hex : es.lookup b with
  | none =>
    simp only [hex] at hr
    cases hr
  | some ex =>
    simp only [hex] at hr
    split at hr
    · cases hr
    rename_i hne
    refine ⟨ex, by rw [entry_dir hd, hex], hne, fun hrep => ?_⟩
    rw [replaceable_iff.mpr hrep] at hr
    cases hr

/-- No entry and no kind changes, and at most the inode `v` shows something else. -/
structure Rewrites (fs fs' : TmpFs) (v : Ino) : Prop where
  sound : fs.Sound → fs'.Sound
  entry : ∀ a k, fs'.entry a k = fs.entry a k
  kind : ∀ a, fs'.kind a = fs.kind a
  shown : ∀ a, a ≠ v → fs'.shown a = fs.shown a
  next : fs'.nextIno = fs.nextIno

theorem rewrites_setNode (hk : x.data.kind = fs.kind v)
    (hd : ∀ es, x.data = .dir es → (fs.inodes v).data = .dir es) : Rewrites fs (fs.setNode v x) v := by
  have hkind : ∀ a, (fs.setNode v x).kind a = fs.kind a := by
    intro a
    by_cases ha : a = v
    · subst ha
      rw [kind, setNode_self, hk]
    · rw [kind, setNode_ne x ha]
      rfl
  have hentry : ∀ a k, (fs.setNode v x).entry a k = fs.entry a k := by
    intro a k
    by_cases ha : a = v
    · subst ha
      unfold entry
      rw [setNode_self]
      cases hx : x.data with
      | dir es => rw [hd es hx]
      | _ =>
        cases hf : (fs.inodes a).data with
        | dir es =>
          rw [hx] at hk
          simp [kind, hf, Data.kind] at hk
        | _ => rfl
    · rw [entry, setNode_ne x ha]
      rfl
  refine ⟨fun h => ⟨⟨?_, ?_, ?_⟩, ?_, ?_, ?_⟩, hentry, hkind, ?_, rfl⟩
  · intro a k w hw
    rw [hkind]
    rw [hentry] at hw
    exact h.forest.inner hw
  · intro a k a' k' w hdir hw hw'
    rw [hkind] at hdir
    rw [hentry] at hw hw'
    exact h.forest.single hdir hw hw'
  · intro a k hw
    rw [hentry] at hw
    exact h.forest.root hw
  · rw [hkind]
    exact h.root
  · intro a ha
    rw [hkind] at ha
    exact h.made ha
  · intro a k w hw
    rw [hentry] at hw
    exact h.held hw
  · intro a ha
    simp only [shown, kind, setNode_ne x ha]

/-- A write changes the data of one inode. -/
theorem writeAt_rewrites {k : Nat} (h : fs.writeAt v off buf = .ok (k, fs')) :
    Rewrites fs fs' v := by
  unfold writeAt at h
  split at h
  · cases h
  split at h
  · rename_i bytes hd
    cases h
    apply rewrites_setNode
    · rw [kind, hd]
      rfl
    · intro es he
      cases he
  · cases h

theorem truncate_rewrites (h : fs.truncate v size = .ok fs') : Rewrites fs fs' v := by
  unfold truncate at h
  split at h
  · rename_i bytes hd
    cases h
    apply rewrites_setNode
    · rw [kind, hd]
      rfl
    · intro es he
      cases he
  · cases h

theorem Rewrites.refl : Rewrites fs fs v := ⟨id, fun _ _ => rfl, fun _ => rfl, fun _ _ => rfl, rfl⟩

theorem Rewrites.trans {fs'' : TmpFs} (h : Rewrites fs fs' v) (h' : Rewrites fs' fs'' v) :
    Rewrites fs fs'' v :=
  ⟨h'.sound ∘ h.sound, fun a k => (h'.entry a k).trans (h.entry a k),
    fun a => (h'.kind a).trans (h.kind a), fun a ha => (h'.shown a ha).trans (h.shown a ha),
    h'.next.trans h.next⟩

theorem setAttr_rewrites {a : SetAttr} (h : fs.setAttr v a = .ok ((), fs')) : Rewrites fs fs' v := by
  unfold setAttr at h
  dsimp only at h
  split at h
  · cases h
    exact rewrites_setNode rfl fun _ he => he
  · obtain ⟨fs1, ht, h⟩ := bind_eq_ok_iff.mp h
    cases h
    exact (truncate_rewrites ht).trans (rewrites_setNode rfl fun _ he => he)

/-- Writing to a new inode is part of the change that made it. -/
theorem Changes.rewrite {fs'' : TmpFs} (h : Changes fs fs' u n)
    (hr : Rewrites fs' fs'' v) (hv : fs.nextIno ≤ v) : Changes fs fs'' u n := by
  refine ⟨hr.sound h.sound, fun a k hk => (hr.entry a k).trans (h.entry a k hk), ?_, ?_⟩
  · intro w hw
    have hne : w ≠ v := ne_of_lt (lt_of_lt_of_le hw hv)
    exact (hr.shown w hne).trans (h.shown w hw)
  · rw [hr.next]
    exact h.next

theorem data_of_shown (h : fs.shown v = (.regular, bytes)) : (fs.inodes v).data = .file bytes := by
  unfold shown kind at h
  cases hd : (fs.inodes v).data <;> simp_all [Data.kind, Data.bytes]

theorem writeAt_file (hd : (fs.inodes v).data = .file bytes) (hle : off + buf.length ≤ maxOffset) :
    fs.writeAt v off buf = .ok (buf.length, fs.setData v (.file (overwrite bytes off buf))) := by
  simp only [writeAt, hd, if_neg (not_lt.mpr hle)]

/-- Appending the next bytes of a file that is being copied. -/
theorem overwrite_take (bytes : List UInt8) (h : off ≤ bytes.length) (k : Nat) :
    overwrite (bytes.take off) off ((bytes.drop off).take k) = bytes.take (off + k) := by
  have hlen : (bytes.take off).length = off := length_take_of_le h
  have htake : ((bytes.take off) ++ replicate (((bytes.drop off).take k).length) (0 : UInt8)).take off
      = bytes.take off := by
    rw [take_append_of_le_length (by rw [hlen]), take_take, Nat.min_self]
  have hdrop : ((bytes.take off) ++ replicate (((bytes.drop off).take k).length) (0 : UInt8)).drop
      (off + ((bytes.drop off).take k).length) = [] := by
    apply drop_eq_nil_of_le
    rw [length_append, hlen, length_replicate]
  have hpad : off + ((bytes.drop off).take k).length - (bytes.take off).length =
      ((bytes.drop off).take k).length := by
    rw [hlen, Nat.add_sub_cancel_left]
  simp only [overwrite, hpad, htake, hdrop, append_nil]
  rw [take_add]

end TmpFs

end Fastros.Tmpfs
