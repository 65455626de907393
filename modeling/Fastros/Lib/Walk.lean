import Mathlib

/-!
# Walks in a labelled graph

An edge function says where a label leads from a vertex; a word of labels is
walked from a root. In a graph whose branching vertices have one way in, a vertex
that branches is reached by one word only, so changing one edge changes the walks
through that edge and no others.
-/

namespace Fastros.Lib.Walk

open List

variable {α β ν : Type}

/-- Where a word leads from a vertex. -/
def walk (f : α → ν → Option α) : α → List ν → Option α
  | a, [] => some a
  | a, n :: w => (f a n).bind (walk f · w)

variable {f f' : α → ν → Option α} {r u v : α} {n : ν} {w w' : List ν}

theorem walk_append (w w' : List ν) : walk f r (w ++ w') = (walk f r w).bind (walk f · w') := by
  induction w generalizing r with
  | nil => rfl
  | cons n w ih =>
    simp only [cons_append, walk]
    cases f r n with
    | none => rfl
    | some a => exact ih

theorem walk_concat (w : List ν) (n : ν) : walk f r (w ++ [n]) = (walk f r w).bind (f · n) := by
  rw [walk_append]
  cases walk f r w with
  | none => rfl
  | some a =>
    show (f a n).bind (walk f · []) = f a n
    cases f a n <;> rfl

/-- The last edge of a walk. -/
theorem walk_snoc {b : α} :
    walk f r (w ++ [n]) = some b ↔ ∃ a, walk f r w = some a ∧ f a n = some b := by
  rw [walk_concat, Option.bind_eq_some_iff]

theorem walk_mono (h : ∀ a n b, f a n = some b → f' a n = some b) {b : α}
    (hw : walk f r w = some b) : walk f' r w = some b := by
  induction w generalizing r with
  | nil => exact hw
  | cons n w ih =>
    obtain ⟨a, ha, hw⟩ := Option.bind_eq_some_iff.mp hw
    show (f' r n).bind (walk f' · w) = some b
    rw [h r n a ha]
    exact ih hw

/-- New edges that only lead to a dead end `k`. -/
theorem walk_dead_end {k b : α} (h : ∀ a n b, f' a n = some b → f a n = some b ∨ b = k)
    (hk : ∀ n, f' k n = none) (hw : walk f' r w = some b) : walk f r w = some b ∨ b = k := by
  induction w using reverseRecOn generalizing b with
  | nil => exact .inl hw
  | append_singleton w n ih =>
    obtain ⟨a, ha, hb⟩ := walk_snoc.mp hw
    rcases ih ha with ha | rfl
    · rcases h a n b hb with hb | rfl
      · exact .inl (walk_snoc.mpr ⟨a, ha, hb⟩)
      · exact .inr rfl
    · rw [hk n] at hb
      cases hb

/-- Only vertices in `B` have edges, and one of them has at most one edge into it,
the root none. -/
structure Forest (f : α → ν → Option α) (r : α) (B : α → Prop) : Prop where
  inner : ∀ {u n v}, f u n = some v → B u
  single : ∀ {u n u' n' v}, B v → f u n = some v → f u' n' = some v → u = u' ∧ n = n'
  root : ∀ {u n}, f u n ≠ some r

variable {B : α → Prop}

/-- A branching vertex is reached by one word. -/
theorem Forest.unique (h : Forest f r B) (hu : B u) (hw : walk f r w = some u)
    (hw' : walk f r w' = some u) : w = w' := by
  induction w using reverseRecOn generalizing u w' with
  | nil =>
    cases hw
    cases w' using reverseRecOn with
    | nil => rfl
    | append_singleton w' n =>
      obtain ⟨a, -, ha⟩ := walk_snoc.mp hw'
      exact absurd ha h.root
  | append_singleton w n ih =>
    obtain ⟨a, ha, hn⟩ := walk_snoc.mp hw
    cases w' using reverseRecOn with
    | nil =>
      cases hw'
      exact absurd hn h.root
    | append_singleton w' n' =>
      obtain ⟨a', ha', hn'⟩ := walk_snoc.mp hw'
      obtain ⟨rfl, rfl⟩ := h.single hu hn hn'
      rw [ih (h.inner hn) ha ha']

theorem Forest.ne_self (h : Forest f r B) (hw : walk f r w = some u) : f u n ≠ some u := by
  intro hn
  have hpath := h.unique (h.inner hn) hw (walk_snoc.mpr ⟨u, hw, hn⟩)
  have hlen := congrArg length hpath
  simp only [length_append, length_singleton] at hlen
  omega

theorem walk_take (h : walk f r w = some v) (i : ℕ) : ∃ a, walk f r (w.take i) = some a := by
  rw [← take_append_drop i w, walk_append] at h
  obtain ⟨a, ha, -⟩ := Option.bind_eq_some_iff.mp h
  exact ⟨a, ha⟩

/-- A walk visits a new branching vertex at every edge. -/
theorem Forest.length_le (h : Forest f r B) {S : Finset α} (hS : ∀ a, B a → a ∈ S)
    (hw : walk f r w = some v) : w.length ≤ S.card := by
  have hinner : ∀ i, i < w.length → ∃ a, walk f r (w.take i) = some a ∧ B a := by
    intro i hi
    obtain ⟨b, hb⟩ := walk_take hw (i + 1)
    rw [take_add_one, getElem?_eq_getElem hi] at hb
    obtain ⟨a, ha, hab⟩ := walk_snoc.mp hb
    exact ⟨a, ha, h.inner hab⟩
  have hcard : (Finset.range w.length).card ≤ S.card := by
    apply Finset.card_le_card_of_injOn fun i => (walk f r (w.take i)).getD r
    · intro i hi
      obtain ⟨a, ha, hB⟩ := hinner i (Finset.mem_range.mp hi)
      simp only [ha, Option.getD_some]
      exact hS a hB
    intro i hi j hj hij
    have hi' := Finset.mem_range.mp hi
    have hj' := Finset.mem_range.mp hj
    obtain ⟨a, ha, hB⟩ := hinner i hi'
    obtain ⟨b, hb, -⟩ := hinner j hj'
    simp only [ha, hb, Option.getD_some] at hij
    subst hij
    have hlen := congrArg length (h.unique hB ha hb)
    simp only [length_take] at hlen
    omega
  rwa [Finset.card_range] at hcard

/-- A graph without endless walks and with finitely many ways on from each vertex
has a longest walk. -/
theorem walk_bounded (hwf : WellFounded fun b a => ∃ n, f a n = some b)
    (hfin : ∀ a, ∃ l : List α, ∀ n b, f a n = some b → b ∈ l) (a : α) :
    ∃ k, ∀ w b, walk f a w = some b → w.length ≤ k := by
  induction a using hwf.induction with
  | _ a ih =>
    obtain ⟨l, hl⟩ := hfin a
    have hlist : ∀ l : List α, ∃ k, ∀ b ∈ l, (∃ n, f a n = some b) →
        ∀ w c, walk f b w = some c → w.length ≤ k := by
      intro l
      induction l with
      | nil => exact ⟨0, nofun⟩
      | cons b l ihl =>
        obtain ⟨k, hk⟩ := ihl
        by_cases hb : ∃ n, f a n = some b
        · obtain ⟨m, hm⟩ := ih b hb
          refine ⟨max k m, fun b' hb' he w c hw => ?_⟩
          rcases List.mem_cons.mp hb' with rfl | hb'
          · exact Nat.le_trans (hm w c hw) (Nat.le_max_right k m)
          · exact Nat.le_trans (hk b' hb' he w c hw) (Nat.le_max_left k m)
        · refine ⟨k, fun b' hb' he w c hw => ?_⟩
          rcases List.mem_cons.mp hb' with rfl | hb'
          · exact absurd he hb
          · exact hk b' hb' he w c hw
    obtain ⟨k, hk⟩ := hlist l
    refine ⟨k + 1, fun w c hw => ?_⟩
    cases w with
    | nil => exact Nat.zero_le _
    | cons n w =>
      obtain ⟨b, hb, hw⟩ := Option.bind_eq_some_iff.mp hw
      exact Nat.succ_le_succ (hk b (hl n b hb) ⟨n, hb⟩ w c hw)

variable {R : α → β → Prop} {o : Option α} {o' : Option β}

theorem rel_mono {S : α → β → Prop} (h : ∀ a b, R a b → S a b)
    (hR : Option.Rel R o o') : Option.Rel S o o' := by
  cases hR with
  | some hab => exact .some (h _ _ hab)
  | none => exact .none

theorem rel_trans {γ : Type} {S : β → γ → Prop} {T : α → γ → Prop}
    (h : ∀ a b c, R a b → S b c → T a c) {o'' : Option γ}
    (hR : Option.Rel R o o') (hS : Option.Rel S o' o'') : Option.Rel T o o'' := by
  cases hR with
  | some hab =>
    cases hS with
    | some hbc => exact .some (h _ _ _ hab hbc)
  | none =>
    cases hS
    exact .none

theorem rel_refl {R : α → α → Prop} (h : ∀ a, o = some a → R a a) : Option.Rel R o o := by
  cases o with
  | none => exact .none
  | some a => exact .some (h a rfl)

/-- Functions that agree on related values give the same. -/
theorem rel_bind {γ : Type} {g : α → Option γ} {g' : β → Option γ}
    (h : Option.Rel R o o') (hg : ∀ a b, o = some a → R a b → g a = g' b) :
    o.bind g = o'.bind g' := by
  cases h with
  | some hab => exact hg _ _ rfl hab
  | none => rfl

theorem rel_ne_none (h : Option.Rel R o o') : o' ≠ none ↔ o ≠ none := by
  cases h <;> simp

theorem rel_some_right {b : β} (h : Option.Rel R o (some b)) : ∃ a, o = some a ∧ R a b := by
  cases h with
  | some hab => exact ⟨_, rfl, hab⟩

/-- Related vertices have related successors, so related roots have related walks.
The relation may depend on the word; `T` says which words count, with every word
its beginnings. -/
theorem walk_rel {g : β → ν → Option β} {b : β} {T : List ν → Prop} {R : List ν → α → β → Prop}
    (hT : ∀ w n, T (w ++ [n]) → T w) (hr : R [] r b)
    (hstep : ∀ w x y n, walk f r w = some x → walk g b w = some y → R w x y → T (w ++ [n]) →
      Option.Rel (R (w ++ [n])) (f x n) (g y n))
    (w : List ν) (hw : T w) : Option.Rel (R w) (walk f r w) (walk g b w) := by
  induction w using reverseRecOn with
  | nil => exact .some hr
  | append_singleton w n ih =>
    have h := ih (hT w n hw)
    rw [walk_concat, walk_concat]
    cases hx : walk f r w with
    | none =>
      cases hy : walk g b w with
      | none => exact .none
      | some y =>
        rw [hx, hy] at h
        cases h
    | some x =>
      rw [hx] at h
      cases hy : walk g b w with
      | none =>
        rw [hy] at h
        cases h
      | some y =>
        rw [hy] at h
        cases h with
        | some hR => exact hstep w x y n hx hy hR hw

end Fastros.Lib.Walk
