import Fastros.Fs.OverlayCopy

/-!
# What an overlay shows

A path leads to a cached node or, past the cached ones, to the two layers that a
lookup would merge. The view of a state gives the kind and the contents found at
each path. Looking up and copying up do not change it.
-/

namespace Fastros.Overlay

open Fs Tmpfs Tmpfs.TmpFs Lib.Stateful Lib.Walk List State

/-- Where a path ends: at a node, or at layers that have none yet. -/
inductive Pos (ι : Type) where
  | node (c : NodeId)
  | layers (lower : Option ι) (upper : Option Ino)

variable {ι : Type} {L : LowerTree ι} {s s' : State ι} {x y : Pos ι} {p c : NodeId} {n : Name}
  {q : List Name} {u : Ino}

def State.lowerAt (s : State ι) : Pos ι → Option ι
  | .node c => (s.nodes c).lower
  | .layers lower _ => lower

def State.upperAt (s : State ι) : Pos ι → Option Ino
  | .node c => (s.nodes c).upper
  | .layers _ upper => upper

def State.kidAt (s : State ι) : Pos ι → Name → Option NodeId
  | .node p, n => s.kid p n
  | .layers .., _ => none

/-- What the layers of a position show under a name. -/
def mergeAt (L : LowerTree ι) (s : State ι) (x : Pos ι) (n : Name) : Option (Pos ι) :=
  (merge L s.upper (s.lowerAt x) (s.upperAt x) n).map fun y => .layers y.2.1 y.2.2

/-- A lookup without its effect on the cache. -/
def look (L : LowerTree ι) (s : State ι) (x : Pos ι) (n : Name) : Option (Pos ι) :=
  match s.kidAt x n with
  | some c => some (.node c)
  | none => mergeAt L s x n

def find (L : LowerTree ι) (s : State ι) (q : List Name) : Option (Pos ι) :=
  walk (look L s) (.node rootId) q

/-- The kind and the contents of the active layer. -/
def shownAt (L : LowerTree ι) (s : State ι) (x : Pos ι) : Option (FileType × List UInt8) :=
  match s.upperAt x, s.lowerAt x with
  | some v, _ => some (s.upper.shown v)
  | none, some j => some (L.shown j)
  | none, none => none

def view (L : LowerTree ι) (s : State ι) (q : List Name) : Option (FileType × List UInt8) :=
  (find L s q).bind (shownAt L s)

theorem look_cached (h : s.kidAt x n = some c) : look L s x n = some (.node c) := by
  rw [look, h]

theorem look_uncached (h : s.kidAt x n = none) : look L s x n = mergeAt L s x n := by
  rw [look, h]

/-- A name that is not cached, in a directory that has a node. -/
theorem look_node (h : s.kid p n = none) : look L s (.node p) n =
    (merge L s.upper (s.nodes p).lower (s.nodes p).upper n).map fun y => .layers y.2.1 y.2.2 :=
  look_uncached h

theorem mergeAt_some (h : mergeAt L s x n = some y) : ∃ kind lower upper,
    merge L s.upper (s.lowerAt x) (s.upperAt x) n = some (kind, lower, upper) ∧
      y = .layers lower upper := by
  obtain ⟨⟨kind, lower, upper⟩, hm, rfl⟩ := Option.map_eq_some_iff.mp h
  exact ⟨kind, lower, upper, hm, rfl⟩

theorem look_some (h : look L s x n = some y) :
    (∃ p c, x = .node p ∧ s.kid p n = some c ∧ y = .node c) ∨
    (s.kidAt x n = none ∧ ∃ kind lower upper,
      merge L s.upper (s.lowerAt x) (s.upperAt x) n = some (kind, lower, upper) ∧
      y = .layers lower upper) := by
  cases hk : s.kidAt x n with
  | some c =>
    rw [look_cached hk] at h
    cases x with
    | node p => exact .inl ⟨p, c, rfl, hk, (Option.some.inj h).symm⟩
    | layers lower upper => cases hk
  | none =>
    rw [look_uncached hk] at h
    exact .inr ⟨rfl, mergeAt_some h⟩

theorem find_nodeAt (h : s.nodeAt q = some c) : find L s q = some (.node c) := by
  induction q using reverseRecOn generalizing c with
  | nil =>
    cases h
    rfl
  | append_singleton q n ih =>
    obtain ⟨p, hp, hc⟩ := walk_snoc.mp h
    exact walk_snoc.mpr ⟨.node p, ih hp, look_cached hc⟩

theorem nodeAt_find (h : find L s q = some (.node c)) : s.nodeAt q = some c := by
  induction q using reverseRecOn generalizing c with
  | nil =>
    cases h
    rfl
  | append_singleton q n ih =>
    obtain ⟨x, hx, hc⟩ := walk_snoc.mp h
    rcases look_some hc with ⟨p, d, rfl, hd, hy⟩ | ⟨-, kind, lower, upper, -, hy⟩
    · cases hy
      exact walk_snoc.mpr ⟨p, ih hx, hd⟩
    · cases hy

theorem find_concat (hx : find L s q = some x) (n : Name) : find L s (q ++ [n]) = look L s x n := by
  rw [find] at hx ⊢
  rw [walk_concat, hx]
  rfl

section

variable (hC : Coherent L s)
include hC

section

variable (hx : find L s q = some x)
include hx

/-- A position one name further mirrors the layers it was found in. -/
theorem Coherent.mirror_look
    (hy : look L s x n = some y) :
    Mirrors L s.upper (s.lowerAt x) (s.upperAt x) n (s.lowerAt y) (s.upperAt y) := by
  rcases look_some hy with ⟨p, d, rfl, hd, rfl⟩ | ⟨-, kind, lower, upper, hm, rfl⟩
  · exact hC.mirror ⟨q, nodeAt_find hx⟩ hd
  · exact (merge_some hm).1

theorem Coherent.upper_find : s.upperAt x = walk s.upper.entry rootIno q := by
  induction q using reverseRecOn generalizing x with
  | nil =>
    cases hx
    exact hC.root_upper
  | append_singleton q n ih =>
    obtain ⟨y, hy, hn⟩ := walk_snoc.mp hx
    rw [(hC.mirror_look hy hn).upper, ih hy, walk_concat]
    rfl

theorem Coherent.lower_find {j : ι}
    (hj : s.lowerAt x = some j) : walk (fun i n => (L.entries i).lookup n) L.root q = some j := by
  induction q using reverseRecOn generalizing x j with
  | nil =>
    cases hx
    exact hC.root_lower.symm.trans hj
  | append_singleton q n ih =>
    obtain ⟨y, hy, hn⟩ := walk_snoc.mp hx
    obtain ⟨i, hi, hij⟩ := Option.bind_eq_some_iff.mp ((hC.mirror_look hy hn).lower j hj)
    exact walk_snoc.mpr ⟨i, ih hy hi, hij⟩

/-- Both layers of a position have one kind, and there is at least one. -/
theorem Coherent.kind_find :
    ∃ k, (∀ v, s.upperAt x = some v → v < s.upper.nextIno ∧ s.upper.kind v = k) ∧
      (∀ j, s.lowerAt x = some j → L.kind j = k) ∧ (s.upperAt x = none → s.lowerAt x ≠ none) := by
  have hsome : s.upperAt x = none → s.lowerAt x ≠ none := by
    intro hu
    cases q using reverseRecOn with
    | nil =>
      cases hx
      rw [show s.upperAt (.node rootId) = some rootIno from hC.root_upper] at hu
      cases hu
    | append_singleton q n =>
      obtain ⟨y, hy, hn⟩ := walk_snoc.mp hx
      exact ((hC.mirror_look hy hn).bare hu).2
  cases x with
  | node c => exact ⟨_, fun _ => hC.upper_kind, fun _ => hC.lower_kind, hsome⟩
  | layers lower upper =>
    cases q using reverseRecOn with
    | nil => cases hx
    | append_singleton q n =>
      obtain ⟨y, hy, hn⟩ := walk_snoc.mp hx
      rcases look_some hn with ⟨p, d, -, -, hd⟩ | ⟨-, k, lo, up, hm, hxy⟩
      · cases hd
      cases hxy
      obtain ⟨hmir, hup, hlo⟩ := merge_some hm
      refine ⟨k, fun v hv => ⟨?_, hup v hv⟩, hlo, hsome⟩
      obtain ⟨u, -, he⟩ := Option.bind_eq_some_iff.mp (hmir.upper.symm.trans hv)
      exact hC.sound.held he

end

/-- An upper directory is found at one path. -/
theorem Coherent.find_unique {q' : List Name} (hx : find L s q = some x)
    (hy : find L s q' = some y) (hu : s.upperAt x = some u) (hu' : s.upperAt y = some u)
    (hd : s.upper.kind u = .directory) : q = q' := by
  rw [hC.upper_find hx] at hu
  rw [hC.upper_find hy] at hu'
  exact hC.sound.forest.unique hd hu hu'

end

/-- Two states that look the same along the paths that count. -/
theorem find_congr {T : List Name → Prop} (hT : ∀ w n, T (w ++ [n]) → T w)
    (h : ∀ w x n, find L s w = some x → T (w ++ [n]) → look L s' x n = look L s x n)
    (hq : T q) : find L s' q = find L s q := by
  induction q using reverseRecOn with
  | nil => rfl
  | append_singleton q n ih =>
    rw [find, find, walk_concat, walk_concat]
    have h' := ih (hT q n hq)
    rw [find, find] at h'
    rw [h']
    cases hx : walk (look L s) (.node rootId) q with
    | none => rfl
    | some x => exact h q x n hx hq

/-- Positions before and after a lookup put a node at `lower`, `upper`. -/
def Cached (s : State ι) (lower : Option ι) (upper : Option Ino) (x y : Pos ι) : Prop :=
  (x = y ∧ y ≠ .node s.next) ∨ (x = .layers lower upper ∧ y = .node s.next)

section

variable {lower : Option ι} {upper : Option Ino} {kind : FileType}

theorem Cached.layers (h : Cached s lower upper x y) :
    (s.addNode p n lower upper kind).lowerAt y = s.lowerAt x ∧
      (s.addNode p n lower upper kind).upperAt y = s.upperAt x := by
  rcases h with ⟨rfl, hne⟩ | ⟨rfl, rfl⟩
  · cases x with
    | node c =>
      have hc : c ≠ s.next := fun hc => hne (hc ▸ rfl)
      exact ⟨(addNode_kept hc).lower, addNode_upper hc⟩
    | layers lo up => exact ⟨rfl, rfl⟩
  · simp only [lowerAt, upperAt, addNode_new, and_self]

theorem mergeAt_addNode (h : Cached s lower upper x y) (m : Name) :
    mergeAt L (s.addNode p n lower upper kind) y m = mergeAt L s x m := by
  rw [mergeAt, mergeAt, h.layers.1, h.layers.2]
  rfl

/-- One lookup in the two states. -/
theorem Cached.look (hC : Coherent L s) (hp : p < s.next) (hfree : s.kid p n = none)
    (hm : merge L s.upper (s.nodes p).lower (s.nodes p).upper n = some (kind, lower, upper))
    (h : Cached s lower upper x y) (m : Name) :
    Option.Rel (Cached s lower upper) (look L s x m)
      (Overlay.look L (s.addNode p n lower upper kind) y m) := by
  cases hx : s.kidAt x m with
  | some c =>
    -- a cached child stays where it is
    rcases h with ⟨rfl, hne⟩ | ⟨rfl, rfl⟩
    · cases x with
      | layers lo up => cases hx
      | node a =>
        obtain ⟨-, -, hac, hcn, -⟩ := hC.linked hx
        have ha : a ≠ s.next := ne_of_lt (lt_trans hac hcn)
        have hap : ¬ (a = p ∧ m = n) := by
          rintro ⟨rfl, rfl⟩
          rw [kidAt, hfree] at hx
          cases hx
        have hy : (s.addNode p n lower upper kind).kidAt (.node a) m = some c :=
          (addNode_kid_ne ha hap).trans hx
        rw [look_cached hx, look_cached hy]
        refine .some (.inl ⟨rfl, ?_⟩)
        intro hc
        cases hc
        exact absurd hcn (lt_irrefl _)
    · cases hx
  | none =>
    rw [look_uncached hx]
    by_cases hself : x = .node p ∧ m = n
    · -- the name that was looked up
      obtain ⟨rfl, rfl⟩ := hself
      have hy : y = .node p := by
        rcases h with ⟨h, -⟩ | ⟨h, -⟩
        · exact h.symm
        · cases h
      subst hy
      have hk : (s.addNode p m lower upper kind).kidAt (.node p) m = some s.next :=
        addNode_kid_self (ne_of_lt hp)
      have hmx : mergeAt L s (.node p) m = some (.layers lower upper) := by
        rw [mergeAt, lowerAt, upperAt, hm]
        rfl
      rw [look_cached hk, hmx]
      exact .some (.inr ⟨rfl, rfl⟩)
    · have hy : (s.addNode p n lower upper kind).kidAt y m = none := by
        rcases h with ⟨rfl, hne⟩ | ⟨-, rfl⟩
        · cases x with
          | layers lo up => rfl
          | node a =>
            have ha : a ≠ s.next := fun ha => hne (ha ▸ rfl)
            refine (addNode_kid_ne ha ?_).trans hx
            rintro ⟨rfl, rfl⟩
            exact hself ⟨rfl, rfl⟩
        · exact addNode_kid_new
      rw [look_uncached hy, mergeAt_addNode h]
      refine rel_refl fun z hz => .inl ⟨rfl, ?_⟩
      obtain ⟨-, lo, up, -, rfl⟩ := mergeAt_some hz
      nofun

theorem Cached.walk (hC : Coherent L s) (hp : p < s.next) (hfree : s.kid p n = none)
    (hm : merge L s.upper (s.nodes p).lower (s.nodes p).upper n = some (kind, lower, upper))
    (h : Cached s lower upper x y) (w : List Name) :
    Option.Rel (Cached s lower upper) (walk (Overlay.look L s) x w)
      (walk (Overlay.look L (s.addNode p n lower upper kind)) y w) :=
  walk_rel (T := fun _ => True) (R := fun _ => Cached s lower upper) (fun _ _ _ => trivial) h
    (fun _ _ _ m _ _ hxy _ => hxy.look hC hp hfree hm m) w trivial

theorem Cached.shownAt (h : Cached s lower upper x y) :
    shownAt L (s.addNode p n lower upper kind) y = Overlay.shownAt L s x := by
  rw [Overlay.shownAt, Overlay.shownAt, h.layers.1, h.layers.2]
  rfl

end

theorem merge_congr {fs fs' : TmpFs} {lo : Option ι} {up up' : Option Ino}
    (he : upperEntry fs' up' n = upperEntry fs up n)
    (hw : upperEntry fs' up' (whiteoutName n) = upperEntry fs up (whiteoutName n))
    (hk : ∀ v, upperEntry fs up n = some v → fs'.kind v = fs.kind v) :
    merge L fs' lo up' n = merge L fs lo up n := by
  simp only [merge, he, hw]
  cases hu : upperEntry fs up n with
  | none =>
    cases (if (upperEntry fs up (whiteoutName n)).isSome = true then none else lowerEntry L lo n) <;> rfl
  | some v =>
    cases (if (upperEntry fs up (whiteoutName n)).isSome = true then none else lowerEntry L lo n) <;>
      simp only [hk v hu]

/-- A position, and what it became: nothing but an upper inode that was missing is new. -/
structure Refines (L : LowerTree ι) (s s' : State ι) (x y : Pos ι) : Prop where
  lower : s'.lowerAt y = s.lowerAt x
  upper : ∀ {u}, s.upperAt x = some u → s'.upperAt y = some u
  shown : shownAt L s' y = shownAt L s x

section

variable {j : ι} {fs' : TmpFs}

theorem setUpper_lowerAt (fs' : TmpFs) (x : Pos ι) (v : Ino) :
    ((({ s with upper := fs' } : State ι).setUpper c v).lowerAt x) = s.lowerAt x := by
  cases x with
  | node a => exact (setUpper_kept a).lower
  | layers lo up => rfl

theorem setUpper_upperAt (fs' : TmpFs) (v : Ino) (h : x ≠ .node c) :
    ((({ s with upper := fs' } : State ι).setUpper c v).upperAt x) = s.upperAt x := by
  cases x with
  | node a => exact setUpper_ne fun ha => h (ha ▸ rfl)
  | layers lo up => rfl

theorem refines_copy (hC : Coherent L s) (hbare : (s.nodes c).upper = none)
    (hj : (s.nodes c).lower = some j) (ht : Twin L s.upper fs' u n j) (hx : find L s q = some x) :
    Refines L s (s.copied fs' c) x x := by
  refine ⟨setUpper_lowerAt fs' x _, fun {w} hw => ?_, ?_⟩
  · refine (setUpper_upperAt fs' _ ?_).trans hw
    rintro rfl
    rw [upperAt, hbare] at hw
    cases hw
  rw [shownAt, shownAt, setUpper_lowerAt]
  by_cases hxc : x = .node c
  · subst hxc
    rw [upperAt, setUpper_self, upperAt, hbare, lowerAt, hj]
    exact congrArg some ht.shown
  rw [setUpper_upperAt fs' _ hxc]
  cases hw : s.upperAt x with
  | none => cases s.lowerAt x <;> rfl
  | some w =>
    obtain ⟨k, hup, -⟩ := hC.kind_find hx
    exact congrArg some (ht.changes.shown w (hup w hw).1)

variable (hC : Coherent L s) (hp : s.Attached p) (hc : s.kid p n = some c)
  (hbare : (s.nodes c).upper = none) (hu : (s.nodes p).upper = some u) (ht : Twin L s.upper fs' u n j)
  (hx : find L s q = some x)
include hC hp hc hbare hu ht hx

/-- The copied node leaves what all other names of the tree show as it was. -/
theorem merge_copy {m : Name} (hne : ¬ (x = .node p ∧ m = n)) :
    merge L fs' (s.lowerAt x) ((s.copied fs' c).upperAt x) m =
      merge L s.upper (s.lowerAt x) (s.upperAt x) m := by
  by_cases hxc : x = .node c
  · -- the new directory is as empty as the missing one
    subst hxc
    have hnew : ∀ k, upperEntry fs' (some s.upper.nextIno) k = none := ht.bare
    have hold : ∀ k, upperEntry s.upper (s.nodes c).upper k = none := by
      intro k
      rw [hbare]
      rfl
    rw [upperAt, setUpper_self]
    refine merge_congr ((hnew m).trans (hold m).symm) ((hnew _).trans (hold _).symm) fun v hv => ?_
    rw [upperAt, hold] at hv
    cases hv
  rw [setUpper_upperAt fs' _ hxc]
  have hentry : ∀ k, k = m ∨ k = whiteoutName m →
      upperEntry fs' (s.upperAt x) k = upperEntry s.upper (s.upperAt x) k := by
    intro k hkm
    cases hw : s.upperAt x with
    | none => rfl
    | some w =>
      refine ht.changes.entry w k ?_
      rintro ⟨rfl, rfl⟩
      obtain ⟨q', hq'⟩ := hp
      obtain rfl := hC.find_unique hx (find_nodeAt hq') hw hu ht.dir
      rw [find_nodeAt hq'] at hx
      cases hx
      rcases hkm with rfl | hkm
      · exact hne ⟨rfl, rfl⟩
      · exact (hC.linked hc).2.2.2.2.ne_whiteout m hkm
  refine merge_congr (hentry m (.inl rfl)) (hentry _ (.inr rfl)) fun v hv => ?_
  obtain ⟨w, -, he⟩ := Option.bind_eq_some_iff.mp hv
  exact ht.changes.kind (hC.sound.held he)

theorem look_copy (m : Name) : look L (s.copied fs' c) x m = look L s x m := by
  have hkid : (s.copied fs' c).kidAt x m = s.kidAt x m := by
    cases x with
    | node a =>
      show kid _ a m = _
      rw [setUpper_kid]
      rfl
    | layers lo up => rfl
  cases hk : s.kidAt x m with
  | some d => rw [look_cached hk, look_cached (hkid.trans hk)]
  | none =>
    have hne : ¬ (x = .node p ∧ m = n) := by
      rintro ⟨rfl, rfl⟩
      rw [kidAt, hc] at hk
      cases hk
    rw [look_uncached hk, look_uncached (hkid.trans hk), mergeAt, mergeAt, setUpper_lowerAt]
    exact congrArg _ (merge_copy hC hp hc hbare hu ht hx hne)

end

theorem Edit.rel_find (hC : Coherent L s) (h : Edit L s s') (q : List Name) :
    Option.Rel (Refines L s s') (find L s q) (find L s' q) := by
  cases h with
  | @cache p n kind lower upper hp hn hfree hm =>
    have hroot : Cached s lower upper (.node rootId) (.node rootId) := by
      refine .inl ⟨rfl, fun h => ?_⟩
      exact ne_of_lt hC.started (Pos.node.inj h)
    refine rel_mono (fun x y hxy => ?_) (hroot.walk hC hp hfree hm q)
    exact ⟨hxy.layers.1, hxy.layers.2.trans, hxy.shownAt⟩
  | @copy p n c u j fs' hp hc hbare hj hu ht =>
    have heq : find L (s.copied fs' c) q = find L s q :=
      find_congr (fun _ _ _ => trivial)
        (fun w x m hx _ => look_copy hC hp hc hbare hu ht hx m) trivial
    rw [heq]
    cases hx : find L s q with
    | none => exact .none
    | some x => exact .some (refines_copy hC hbare hj ht hx)

theorem Grew.rel_find (hC : Coherent L s) (h : Grew L s s') (q : List Name) :
    Option.Rel (Refines L s s') (find L s q) (find L s' q) := by
  refine h.keeps (P := fun t => Option.Rel (Refines L s t) (find L s q) (find L t q))
    (fun t t' hCt hrel he => ?_) hC (rel_refl fun x _ => ⟨rfl, id, rfl⟩)
  exact rel_trans (fun x y z hxy hyz => ⟨hyz.lower.trans hxy.lower, fun hu => hyz.upper (hxy.upper hu),
    hyz.shown.trans hxy.shown⟩) hrel (he.rel_find hCt q)

theorem Grew.view_eq (hC : Coherent L s) (h : Grew L s s') (q : List Name) :
    view L s' q = view L s q :=
  (rel_bind (h.rel_find hC q) fun _ _ _ hxy => hxy.shown.symm).symm

/-- Looking a path up gets to what the view has there. -/
theorem resolve_spec (w : List Name) : ∀ (p : NodeId) (s : State ι), Coherent L s → p < s.next →
    (∀ n ∈ w, Plain n) →
    (∃ x c s', walk (look L s) (.node p) w = some x ∧ resolve L p w s = .ok c s' ∧
      s'.upper = s.upper ∧ s'.lowerAt (.node c) = s.lowerAt x ∧ s'.upperAt (.node c) = s.upperAt x) ∨
    (walk (look L s) (.node p) w = none ∧ ∃ e s', resolve L p w s = .error e s') := by
  induction w with
  | nil => exact fun p s _ _ _ => .inl ⟨.node p, p, s, rfl, rfl, rfl, rfl, rfl⟩
  | cons n w ih =>
    intro p s hC hp hw
    have hn : Plain n := hw n mem_cons_self
    have hw' : ∀ m ∈ w, Plain m := fun m hm => hw m (mem_cons_of_mem _ hm)
    rcases child_cases (L := L) hn.1 with ⟨c, hc, hr⟩ | ⟨hk, hm, hr⟩ |
      ⟨kind, lower, upper, hk, hm, hr⟩
    · have hlook : look L s (.node p) n = some (.node c) := look_cached hc
      simp only [walk, hlook, Option.bind_some, resolve, run_bind, hr]
      exact ih c s hC (hC.linked hc).2.2.2.1 hw'
    · have hlook : look L s (.node p) n = none := by
        rw [look_node hk, hm]
        rfl
      simp only [walk, hlook, Option.bind_none, resolve, run_bind, hr]
      exact .inr ⟨trivial, _, _, rfl⟩
    have hlook : look L s (.node p) n = some (.layers lower upper) := by
      rw [look_node hk, hm]
      rfl
    -- the new node is where the merged layers were
    have hrel := Cached.walk hC hp hk hm (.inr ⟨rfl, rfl⟩) w
    simp only [walk, hlook, Option.bind_some, resolve, run_bind, hr]
    rcases ih s.next _ ((Edit.cache hp hn hk hm).coherent hC) (Nat.lt_succ_self _) hw' with
      ⟨y, c, s', hy, hrun, hup, hlow, hupp⟩ | ⟨hy, hrun⟩
    · rw [hy] at hrel
      obtain ⟨x, hx, hxy⟩ := rel_some_right hrel
      exact .inl ⟨x, c, s', hx, hrun, hup, hlow.trans hxy.layers.1, hupp.trans hxy.layers.2⟩
    · refine .inr ⟨?_, hrun⟩
      by_contra hne
      exact (rel_ne_none hrel).mpr hne hy

/-- The kind and the contents that looking a path up gives. -/
def shows (L : LowerTree ι) (s : State ι) (q : List Name) : Option (FileType × List UInt8) :=
  match resolve L rootId q s with
  | .ok c s' => shownAt L s' (.node c)
  | .error .. => none

/-- The names that looking a path up and reading the directory gives. -/
def lists (L : LowerTree ι) (s : State ι) (q : List Name) : Option (Except Errno (List Name)) :=
  match resolve L rootId q s with
  | .ok c s' => some (names L s' c)
  | .error .. => none

theorem shows_eq_view (hC : Coherent L s) (hq : ∀ n ∈ q, Plain n) : shows L s q = view L s q := by
  rcases resolve_spec q rootId s hC hC.started hq with
    ⟨x, c, s', hx, hrun, hup, hlow, hupp⟩ | ⟨hx, e, s', hrun⟩
  · simp only [shows, hrun, view, find, hx, Option.bind_some, shownAt, hup, hlow, hupp]
  · simp only [shows, hrun, view, find, hx, Option.bind_none]

theorem lists_eq (hC : Coherent L s) (hq : ∀ n ∈ q, Plain n) :
    lists L s q = (find L s q).map fun x => listing L s.upper (s.lowerAt x) (s.upperAt x) := by
  rcases resolve_spec q rootId s hC hC.started hq with
    ⟨x, c, s', hx, hrun, hup, hlow, hupp⟩ | ⟨hx, e, s', hrun⟩
  · simp only [lists, hrun, find, hx, Option.map_some, names, hup, ← hlow, ← hupp]
    rfl
  · simp only [lists, hrun, find, hx, Option.map_none]

end Fastros.Overlay
