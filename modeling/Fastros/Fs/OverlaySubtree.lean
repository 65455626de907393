import Fastros.Fs.OverlayView

/-!
# Directory listings and whole subtrees

`readdir` lists the names that a lookup finds. `copy_up_recursive` follows it, so
on return every path below its node has an upper inode; it returns if the tree
below is not deeper than the stack allows.
-/

namespace Fastros.Overlay

open Fs Tmpfs Tmpfs.TmpFs Lib.Stateful Lib.Walk List

variable {ι : Type} {L : LowerTree ι} {s s' : State ι} {x y : Pos ι} {c : NodeId} {n : Name}
  {q : List Name} {u : Ino}

/-- The two layers show something under the name. -/
def Visible (L : LowerTree ι) (fs : TmpFs) (lo : Option ι) (up : Option Ino) (n : Name) : Prop :=
  upperEntry fs up n ≠ none ∨ (upperEntry fs up (whiteoutName n) = none ∧ lowerEntry L lo n ≠ none)

variable {fs : TmpFs} {lo : Option ι} {up : Option Ino}

theorem merge_ne_none : merge L fs lo up n ≠ none ↔ Visible L fs lo up n := by
  unfold merge Visible
  cases hu : upperEntry fs up n with
  | some v =>
    simp only [ne_eq, reduceCtorEq, not_false_eq_true, true_or, iff_true]
    cases (if (upperEntry fs up (whiteoutName n)).isSome = true then none else lowerEntry L lo n) with
    | none => nofun
    | some j =>
      show ¬ (if _ then _ else _) = none
      split <;> nofun
  | none =>
    cases hw : upperEntry fs up (whiteoutName n) with
    | some w => simp
    | none => cases hl : lowerEntry L lo n <;> simp

theorem look_ne_none (hC : Coherent L s) (hx : find L s q = some x) :
    look L s x n ≠ none ↔ Visible L s.upper (s.lowerAt x) (s.upperAt x) n := by
  cases hk : s.kidAt x n with
  | some c =>
    have hl : look L s x n = some (.node c) := look_cached hk
    have hm := hC.mirror_look hx hl
    refine ⟨fun _ => ?_, fun _ => by rw [hl]; nofun⟩
    cases hu : s.upperAt (.node c) with
    | some v =>
      left
      rw [← hm.upper, hu]
      nofun
    | none =>
      obtain ⟨hw, hlo⟩ := hm.bare hu
      obtain ⟨j, hj⟩ := Option.ne_none_iff_exists'.mp hlo
      exact .inr ⟨hw, by rw [hm.lower j hj]; nofun⟩
  | none =>
    rw [look_uncached hk, ← merge_ne_none, mergeAt, ne_eq, Option.map_eq_none_iff]

theorem Coherent.dir_of_find (hC : Coherent L s) (hq : s.nodeAt q = some c) {w : List Name}
    (hx : find L s (q ++ n :: w) = some x) : (s.nodes c).kind = .directory := by
  have hc : find L s q = some (.node c) := find_nodeAt hq
  have hlook : look L s (.node c) n ≠ none := by
    intro hnone
    rw [append_cons, find, walk_append, show walk (look L s) (.node rootId) (q ++ [n]) = none from
      (find_concat hc n).trans hnone] at hx
    cases hx
  rcases (look_ne_none hC hc).mp hlook with hu | ⟨-, hl⟩
  · obtain ⟨v, hv⟩ := Option.ne_none_iff_exists'.mp hu
    obtain ⟨u, hu, he⟩ := Option.bind_eq_some_iff.mp hv
    rw [← (hC.upper_kind hu).2]
    exact hC.sound.forest.inner he
  · obtain ⟨j, hj⟩ := Option.ne_none_iff_exists'.mp hl
    obtain ⟨i, hi, he⟩ := Option.bind_eq_some_iff.mp hj
    rw [← hC.lower_kind hi]
    exact L.only_dirs i n (by rw [he]; exact Option.some_ne_none _)

theorem mem_mergeNames {ups los : List Name} :
    n ∈ mergeNames ups los ↔ (n ∈ ups ∧ Plain n) ∨
      (n ∈ los ∧ n ≠ dot ∧ n ≠ dotdot ∧ ¬ (n ∈ ups ∧ Plain n) ∧ whiteoutName n ∉ ups) := by
  have hseen : n ∈ (ups.filter fun m => !whPrefix.isPrefixOf m && m != dot && m != dotdot) ↔
      n ∈ ups ∧ Plain n := by
    simp only [mem_filter, Bool.and_eq_true, Bool.not_eq_true', bne_iff_ne, Plain,
      ← isPrefixOf_iff_prefix, Bool.not_eq_true]
    tauto
  have hwh : n ∈ ((ups.filter whPrefix.isPrefixOf).map (·.drop whPrefix.length)) ↔
      whiteoutName n ∈ ups := by
    simp only [mem_map, mem_filter, isPrefixOf_iff_prefix]
    constructor
    · rintro ⟨m, ⟨hm, t, rfl⟩, rfl⟩
      exact hm
    · intro h
      exact ⟨whiteoutName n, ⟨h, prefix_append _ _⟩, drop_left ..⟩
  rw [mergeNames, mem_append, hseen, mem_filter]
  simp only [Bool.and_eq_true, Bool.not_eq_true', bne_iff_ne, contains_eq_mem,
    decide_eq_false_iff_not, hseen, hwh]
  tauto

theorem readdir_mem (hu : fs.kind u = .directory) :
    ∃ ups, fs.readdir u = .ok ups ∧ ∀ n, n ∈ ups ↔ fs.entry u n ≠ none := by
  obtain ⟨es, hd⟩ := kind_directory.mp hu
  refine ⟨es.keys.insertionSort (· ≤ ·), by rw [TmpFs.readdir, hd], fun n => ?_⟩
  rw [List.mem_insertionSort, entry_dir hd, ne_eq, AList.lookup_eq_none, not_not]
  rfl

/-- `readdir` of a directory: the plain names that are visible. -/
theorem listing_spec (hL : L.Fits)
    (hup : ∀ v, up = some v → fs.kind v = .directory) (hlo : ∀ j, lo = some j → L.kind j = .directory) :
    ∃ l, listing L fs lo up = .ok l ∧ ∀ n, n ∈ l ↔ Plain n ∧ Visible L fs lo up n := by
  obtain ⟨ups, hups, hmem⟩ : ∃ ups, up.elim (.ok []) fs.readdir = .ok ups ∧ ∀ n, n ∈ ups ↔ upperEntry fs up n ≠ none := by
    cases up with
    | none => exact ⟨[], rfl, fun n => by simp [upperEntry]⟩
    | some u => exact readdir_mem (hup u rfl)
  obtain ⟨los, hlos, hmem'⟩ : ∃ los, lo.elim (.ok []) (lowerNames L) = .ok los ∧ ∀ n, n ∈ los ↔ lowerEntry L lo n ≠ none := by
    cases lo with
    | none => exact ⟨[], rfl, fun n => by simp [lowerEntry]⟩
    | some j =>
      refine ⟨(L.entries j).keys, if_pos (hlo j rfl), fun n => ?_⟩
      rw [lowerEntry, Option.bind_some, ne_eq, AList.lookup_eq_none, not_not]
      rfl
  have hplain : ∀ n, lowerEntry L lo n ≠ none → Plain n := by
    intro n hn
    cases lo with
    | none => exact absurd rfl hn
    | some j => exact hL.plain j n hn
  have hlist : listing L fs lo up = .ok (mergeNames ups los) := by
    cases up <;> cases lo <;> exact bind_eq_ok_iff.mpr ⟨ups, hups, bind_eq_ok_iff.mpr ⟨los, hlos, rfl⟩⟩
  refine ⟨_, hlist, fun n => ?_⟩
  rw [mem_mergeNames, hmem, hmem', hmem, Visible]
  have hp := hplain n
  constructor
  · rintro (⟨hu, hn⟩ | ⟨hl, -, -, -, hw⟩)
    · exact ⟨hn, .inl hu⟩
    · exact ⟨hp hl, .inr ⟨not_not.mp hw, hl⟩⟩
  rintro ⟨hn, hv⟩
  by_cases hu : upperEntry fs up n ≠ none
  · exact .inl ⟨hu, hn⟩
  · obtain ⟨hw, hl⟩ := hv.resolve_left hu
    exact .inr ⟨hl, hn.1, hn.2.1, fun h => hu h.1, fun h => h hw⟩

def PlainPath (q : List Name) : Prop := ∀ n ∈ q, Plain n

/-- Everything below the path has an upper inode. -/
def Full (L : LowerTree ι) (s : State ι) (q : List Name) : Prop :=
  ∀ w x, PlainPath w → find L s (q ++ w) = some x → s.upperAt x ≠ none

/-- The tree below the path has less than `depth` levels. -/
def Shallow (L : LowerTree ι) (s : State ι) (q : List Name) (depth : Nat) : Prop :=
  ∀ w, PlainPath w → find L s (q ++ w) ≠ none → w.length < depth

section

variable (hC : Coherent L s)
include hC

theorem Grew.find_some (h : Grew L s s') (hy : find L s' q = some y) :
    ∃ x, find L s q = some x ∧ Refines L s s' x y := by
  have hrel := h.rel_find hC q
  rw [hy] at hrel
  exact rel_some_right hrel

theorem Grew.find_ne_none (h : Grew L s s') : find L s' q ≠ none ↔ find L s q ≠ none :=
  rel_ne_none (h.rel_find hC q)

theorem Grew.full (h : Grew L s s') (hf : Full L s q) : Full L s' q := by
  intro w y hw hy
  obtain ⟨x, hx, hxy⟩ := h.find_some hC hy
  obtain ⟨u, hu⟩ := Option.ne_none_iff_exists'.mp (hf w x hw hx)
  rw [hxy.upper hu]
  nofun

theorem Grew.shallow (h : Grew L s s') {depth : Nat} (hd : Shallow L s q depth) :
    Shallow L s' q depth :=
  fun w hw hy => hd w hw ((h.find_ne_none hC).mp hy)

/-- The kind a node was made with is that of its active layer. -/
theorem kindOf_spec (hc : s.Attached c) : kindOf L c s = .ok (s.nodes c).kind s := by
  obtain ⟨q, hq⟩ := hc
  have hx : find L s q = some (.node c) := find_nodeAt hq
  obtain ⟨-, -, -, hsome⟩ := hC.kind_find hx
  have hk : kindAt L s.upper (s.nodes c).lower (s.nodes c).upper = .ok (s.nodes c).kind := by
    cases hu : (s.nodes c).upper with
    | some v => exact congrArg Except.ok (hC.upper_kind hu).2
    | none =>
      obtain ⟨j, hj⟩ := Option.ne_none_iff_exists'.mp (hsome hu)
      rw [State.lowerAt] at hj
      rw [hj]
      exact congrArg Except.ok (hC.lower_kind hj)
  simp only [kindOf, run_bind, run_get, hk]
  rfl

end

/-- A directory of the tree lists the names found in it. -/
theorem readdir_spec (hL : L.Fits) (hC : Coherent L s) (hq : s.nodeAt q = some c)
    (hdir : (s.nodes c).kind = .directory) :
    ∃ l, names L s c = .ok l ∧ readdir L c s = .ok l s ∧
      ∀ n, n ∈ l ↔ Plain n ∧ find L s (q ++ [n]) ≠ none := by
  have hx : find L s q = some (.node c) := find_nodeAt hq
  obtain ⟨l, hl, hmem⟩ := listing_spec hL (fun v hv => ((hC.upper_kind hv).2).trans hdir)
    (fun j hj => (hC.lower_kind hj).trans hdir)
  refine ⟨l, hl, ?_, fun n => ?_⟩
  · simp only [readdir, run_bind, run_get, hl]
    rfl
  · rw [hmem, show Visible L s.upper (s.nodes c).lower (s.nodes c).upper n ↔ _ from
      (look_ne_none hC hx).symm]
    rw [find_concat hx]

/-- What a recursive copy of the node at `q` leaves. -/
def Copied (L : LowerTree ι) (s : State ι) (q : List Name) (depth : Nat)
    (r : EStateM.Result Stop (State ι) Unit) : Prop :=
  ∃ s', Grew L s s' ∧ ((r = .ok () s' ∧ Full L s' q) ∨
    (r = .error .endless s' ∧ ¬ Shallow L s q depth))

theorem copyChildren_spec {depth : Nat} (hrec : ∀ c q (s : State ι), Coherent L s →
      s.nodeAt q = some c → Copied L s q depth (copyUpRecursive L depth c s)) (l : List Name) :
    ∀ (s : State ι), Coherent L s → s.nodeAt q = some c →
      (∀ n ∈ l, Plain n ∧ find L s (q ++ [n]) ≠ none) →
      ∃ s', Grew L s s' ∧
        ((l.forM (fun n => child L c n >>= copyUpRecursive L depth) s = .ok () s' ∧
            ∀ n ∈ l, Full L s' (q ++ [n])) ∨
          (l.forM (fun n => child L c n >>= copyUpRecursive L depth) s = .error .endless s' ∧
            ¬ Shallow L s q (depth + 1))) := by
  induction l with
  | nil => exact fun s _ _ _ => ⟨s, .refl s, .inl ⟨rfl, nofun⟩⟩
  | cons n l ih =>
    intro s hC hq hl
    obtain ⟨hn, hfind⟩ := hl n mem_cons_self
    obtain ⟨k, s1, hchild⟩ : ∃ k s1, child L c n s = .ok k s1 := by
      rcases child_cases hn.1 with ⟨k, -, hr⟩ | ⟨hk, hm, -⟩ | ⟨kind, lower, upper, -, -, hr⟩
      · exact ⟨k, s, hr⟩
      · have hnone : find L s (q ++ [n]) = none := by
          rw [find_concat (find_nodeAt hq), look_node hk, hm]
          rfl
        exact absurd hnone hfind
      · exact ⟨_, _, hr⟩
    obtain ⟨hg1, hkid, -⟩ := child_ok (hC.lt_next ⟨q, hq⟩) hn hchild
    have hC1 := hg1.coherent hC
    have hq1 := (hg1.grows hC).nodeAt hq
    have hk1 : s1.nodeAt (q ++ [n]) = some k := walk_snoc.mpr ⟨c, hq1, hkid⟩
    obtain ⟨s2, hg2, hrun | hrun⟩ := hrec k (q ++ [n]) s1 hC1 hk1
    · have hg : Grew L s s2 := hg1.trans hg2
      have hC2 := hg2.coherent hC1
      obtain ⟨s3, hg3, hrest⟩ := ih s2 hC2 ((hg.grows hC).nodeAt hq) fun m hm =>
        (hl m (mem_cons_of_mem _ hm)).imp_right (hg.find_ne_none hC).mpr
      refine ⟨s3, hg.trans hg3, hrest.imp ?_ ?_⟩
      · rintro ⟨hr, hfull⟩
        refine ⟨?_, fun m hm => ?_⟩
        · simp only [forM_eq_forM, forM_cons, run_bind, hchild, hrun.1]
          exact hr
        · rcases mem_cons.mp hm with rfl | hm
          · exact hg3.full hC2 hrun.2
          · exact hfull m hm
      · rintro ⟨hr, hdeep⟩
        refine ⟨?_, fun hs => hdeep (hg.shallow hC hs)⟩
        simp only [forM_eq_forM, forM_cons, run_bind, hchild, hrun.1]
        exact hr
    · refine ⟨s2, hg1.trans hg2, .inr ⟨?_, fun hs => hrun.2 fun w hw hy => ?_⟩⟩
      · simp only [forM_eq_forM, forM_cons, run_bind, hchild, hrun.1]
      have hlen := hs (n :: w) ?_ ?_
      · simpa using hlen
      · intro m hm
        rcases mem_cons.mp hm with rfl | hm
        · exact hn
        · exact hw m hm
      · rw [append_assoc] at hy
        exact (hg1.find_ne_none hC).mp hy

/-- A whole subtree is copied, or is deeper than the stack. -/
theorem copyUpRecursive_spec (hL : L.Fits) (depth : Nat) :
    ∀ c q (s : State ι), Coherent L s → s.nodeAt q = some c →
      Copied L s q depth (copyUpRecursive L depth c s) := by
  induction depth with
  | zero =>
    intro c q s hC hq
    refine ⟨s, .refl s, .inr ⟨rfl, fun hs => Nat.not_lt_zero _ (hs [] (forall_mem_nil _) ?_)⟩⟩
    rw [append_nil, find_nodeAt hq]
    exact Option.some_ne_none _
  | succ depth ih =>
    intro c q s hC hq
    have hc : s.Attached c := ⟨q, hq⟩
    by_cases hdir : (s.nodes c).kind = .directory
    · obtain ⟨u, s1, hens, hg1, hu, -⟩ := ensureUpperDir_spec hC hc hdir
      have hC1 := hg1.coherent hC
      have hq1 := (hg1.grows hC).nodeAt hq
      have hdir1 : (s1.nodes c).kind = .directory :=
        ((hg1.grows hC).kept (hC.lt_next hc)).kind.trans hdir
      obtain ⟨l, -, hread, hmem⟩ := readdir_spec hL hC1 hq1 hdir1
      obtain ⟨s2, hg2, hloop⟩ := copyChildren_spec ih l s1 hC1 hq1 fun n hn => (hmem n).mp hn
      have hg := hg1.trans hg2
      have hrun : copyUpRecursive L (depth + 1) c s =
          l.forM (fun n => child L c n >>= copyUpRecursive L depth) s1 := by
        simp only [copyUpRecursive, run_bind, kindOf_spec hC hc, hdir, if_true, hens, hread]
      rw [hrun]
      refine ⟨s2, hg, hloop.imp ?_ ?_⟩
      · rintro ⟨hr, hfull⟩
        refine ⟨hr, fun w x hw hx => ?_⟩
        cases w with
        | nil =>
          rw [append_nil, find_nodeAt ((hg.grows hC).nodeAt hq)] at hx
          cases hx
          rw [State.upperAt, (hg2.grows hC1).upper (hC1.lt_next ⟨q, hq1⟩) hu]
          exact Option.some_ne_none _
        | cons n w =>
          have hn : Plain n := hw n mem_cons_self
          have hfind : find L s1 (q ++ [n]) ≠ none := by
            rw [← hg2.find_ne_none hC1]
            intro hnone
            rw [append_cons, find, walk_append,
              show walk (look L s2) (.node rootId) (q ++ [n]) = none from hnone] at hx
            cases hx
          refine hfull n ((hmem n).mpr ⟨hn, hfind⟩) w x (fun m hm => hw m (mem_cons_of_mem _ hm)) ?_
          rw [append_assoc]
          exact hx
      · rintro ⟨hr, hdeep⟩
        exact ⟨hr, fun hs => hdeep (hg1.shallow hC hs)⟩
    · obtain ⟨u, s1, hcopy, hg1, hu⟩ := copyUp_spec hL hC (.inl hc)
      have hC1 := hg1.coherent hC
      have hq1 := (hg1.grows hC).nodeAt hq
      refine ⟨s1, hg1, .inl ⟨?_, fun w x hw hx => ?_⟩⟩
      · simp only [copyUpRecursive, run_bind, kindOf_spec hC hc, if_neg hdir, hcopy]
        rfl
      cases w with
      | nil =>
        rw [append_nil, find_nodeAt hq1] at hx
        cases hx
        rw [State.upperAt, hu]
        exact Option.some_ne_none _
      | cons n w =>
        have hdir1 := hC1.dir_of_find hq1 hx
        rw [((hg1.grows hC).kept (hC.lt_next hc)).kind] at hdir1
        exact absurd hdir1 hdir

end Fastros.Overlay
