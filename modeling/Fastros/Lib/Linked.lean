import Mathlib

/-!
# Intrusive doubly linked lists

A list threaded through a memory of links: each node's link names the node after
it and the node before it. `Segment` relates such a memory to an ordinary list;
pushing a node at the front and taking a node out anywhere are the usual few writes.
-/

namespace Fastros.Lib.Linked

open List

structure Link (κ : Type) where
  next : Option κ
  prev : Option κ
  deriving DecidableEq

/-- One list of a family gets a new first element. -/
theorem mem_update_cons {α β : Type} [DecidableEq α] {S : α → List β} {c q : α} {s y : β} :
    y ∈ Function.update S c (s :: S c) q ↔ q = c ∧ y = s ∨ y ∈ S q := by
  by_cases hq : q = c
  · subst hq
    simp
  · simp [hq]

variable {κ : Type}

/-- The nodes of `l` are linked in order; `p` comes before them and `n` after. -/
def Segment (links : κ → Link κ) : Option κ → List κ → Option κ → Prop
  | _, [], _ => True
  | p, x :: xs, n => links x = ⟨xs.head?.or n, p⟩ ∧ Segment links (some x) xs n

variable {links links' : κ → Link κ} {p n : Option κ} {l l1 l2 : List κ} {x y : κ}

theorem Segment.congr (h : ∀ y ∈ l, links' y = links y) (hs : Segment links p l n) :
    Segment links' p l n := by
  induction l generalizing p with
  | nil => trivial
  | cons x xs ih =>
    refine ⟨(h x (by simp)).trans hs.1, ih (fun y hy => h y (by simp [hy])) hs.2⟩

theorem segment_append : Segment links p (l1 ++ l2) n ↔
    Segment links p l1 (l2.head?.or n) ∧ Segment links (l1.getLast?.or p) l2 n := by
  induction l1 generalizing p with
  | nil => simp [Segment]
  | cons x xs ih =>
    have hlast : (x :: xs).getLast?.or p = xs.getLast?.or (some x) := by
      cases xs with
      | nil => rfl
      | cons y ys => simp [getLast?_cons]
    simp only [cons_append, Segment, ih, hlast, head?_append, Option.or_assoc, and_assoc]

/-- The neighbours of a node. -/
theorem Segment.link (hs : Segment links none (l1 ++ x :: l2) none) :
    links x = ⟨l2.head?, l1.getLast?⟩ := by
  have h := (segment_append.mp hs).2.1
  simpa using h

/-- The nodes that at most `fuel` steps along the links lead to. -/
def follow (links : κ → Link κ) : (fuel : Nat) → Option κ → List κ
  | 0, _ => []
  | _ + 1, none => []
  | fuel + 1, some x => x :: follow links fuel (links x).next

theorem Segment.follow_eq (hs : Segment links p l none) : follow links l.length l.head? = l := by
  induction l generalizing p with
  | nil => rfl
  | cons x xs ih =>
    have hnext : (links x).next = xs.head? := by simp [hs.1]
    simp only [length_cons, head?_cons, follow, hnext, ih hs.2]

variable [DecidableEq κ]

theorem Segment.update (hx : x ∉ l) (v : Link κ) (hs : Segment links p l n) :
    Segment (Function.update links x v) p l n := by
  refine hs.congr fun y hy => ?_
  have hne : y ≠ x := by
    rintro rfl
    exact hx hy
  simp [hne]

theorem Segment.setNext (m : Option κ) (hs : Segment links p (l ++ [x]) n) (hx : x ∉ l) :
    Segment (Function.update links x { links x with next := m }) p (l ++ [x]) m := by
  obtain ⟨hl, hlink, _⟩ := segment_append.mp hs
  refine segment_append.mpr ⟨Segment.update hx _ (by simpa using hl), ?_, trivial⟩
  simp [hlink]

theorem Segment.setPrev (q : Option κ) (hs : Segment links p (x :: l) n) (hx : x ∉ l) :
    Segment (Function.update links x { links x with prev := q }) q (x :: l) n :=
  ⟨by simp [hs.1], Segment.update hx _ hs.2⟩

/-- Link `x` before `head`. -/
def push (links : κ → Link κ) (head : Option κ) (x : κ) : κ → Link κ :=
  let links := Function.update links x ⟨head, none⟩
  match head with
  | some h => Function.update links h { links h with prev := some x }
  | none => links

theorem Segment.push (hs : Segment links none l none) (hd : l.Nodup) (hx : x ∉ l) :
    Segment (push links l.head? x) none (x :: l) none := by
  cases l with
  | nil => simp [Linked.push, Segment]
  | cons h t =>
    have hxh : x ≠ h := fun he => hx (by simp [he])
    have hs' := (Segment.update hx ⟨some h, none⟩ hs).setPrev (some x) (nodup_cons.mp hd).1
    refine ⟨?_, hs'⟩
    simp [Linked.push, Function.update_of_ne hxh]

theorem push_of_ne (hy : y ≠ x) (hl : ∀ h, l.head? = some h → y ≠ h) :
    push links l.head? x y = links y := by
  cases l with
  | nil => simp [push, hy]
  | cons h t => simp [push, hy, hl h rfl]

/-- Link the neighbours of `x` to each other. -/
def unlink (links : κ → Link κ) (x : κ) : κ → Link κ :=
  let next := (links x).next
  let prev := (links x).prev
  let links := match prev with
    | some q => Function.update links q { links q with next := next }
    | none => links
  match next with
  | some m => Function.update links m { links m with prev := prev }
  | none => links

theorem unlink_apply (links : κ → Link κ) (x y : κ) : unlink links x y =
    ⟨if (links x).prev = some y then (links x).next else (links y).next,
      if (links x).next = some y then (links x).prev else (links y).prev⟩ := by
  rw [unlink]
  cases hp : (links x).prev with
  | none =>
    cases hn : (links x).next with
    | none => simp
    | some m =>
      by_cases hm : y = m
      · simp [hm]
      · simp [hm, Ne.symm hm]
  | some q =>
    cases hn : (links x).next with
    | none =>
      by_cases hq : y = q
      · simp [hq]
      · simp [hq, Ne.symm hq]
    | some m =>
      by_cases hq : y = q
      · subst hq
        by_cases hm : y = m
        · simp [hm]
        · simp [hm, Ne.symm hm]
      · by_cases hm : y = m
        · subst hm
          simp [hq, Ne.symm hq]
        · simp [hq, hm, Ne.symm hq, Ne.symm hm]

theorem Segment.unlink (hs : Segment links none (l1 ++ x :: l2) none)
    (hd : (l1 ++ x :: l2).Nodup) : Segment (unlink links x) none (l1 ++ l2) none := by
  have hlink := hs.link
  obtain ⟨h1, _, h2⟩ := segment_append.mp hs
  obtain ⟨hd1, hdx, hdisj⟩ := nodup_append.mp hd
  obtain ⟨hx2, hd2⟩ := nodup_cons.mp hdx
  have hdisj' : ∀ y ∈ l1, y ∉ l2 := fun y hy hy' => hdisj y hy y (by simp [hy']) rfl
  -- the node before `x` now names the node after it
  obtain ⟨links1, hlinks1, hseg1, hseg2⟩ : ∃ links1, (links1 = match l1.getLast? with
      | some q => Function.update links q { links q with next := l2.head? }
      | none => links) ∧ Segment links1 none l1 l2.head? ∧ Segment links1 (some x) l2 none := by
    refine ⟨_, rfl, ?_, ?_⟩
    · rcases eq_nil_or_concat' l1 with rfl | ⟨t, q, rfl⟩
      · trivial
      · have hq : q ∉ t := fun hin => (nodup_append.mp hd1).2.2 q hin q (by simp) rfl
        simpa using h1.setNext l2.head? hq
    · rcases eq_nil_or_concat' l1 with rfl | ⟨t, q, rfl⟩
      · exact h2
      · have hq : q ∉ l2 := hdisj' q (by simp)
        simpa using Segment.update hq _ h2
  -- and the node after it the node before
  have hun : Linked.unlink links x = match l2.head? with
      | some m => Function.update links1 m { links1 m with prev := l1.getLast? }
      | none => links1 := by
    simp only [Linked.unlink, hlink, hlinks1]
  rw [hun]
  cases l2 with
  | nil =>
    refine segment_append.mpr ⟨by simpa using hseg1, trivial⟩
  | cons m t =>
    have hm : m ∉ l1 := fun hin => hdisj' m hin (by simp)
    refine segment_append.mpr ⟨Segment.update hm _ (by simpa using hseg1), ?_⟩
    simpa using hseg2.setPrev l1.getLast? (nodup_cons.mp hd2).1

/-- Taking a node out writes only to its neighbours. -/
theorem unlink_of_not_mem (hs : Segment links none (l1 ++ x :: l2) none) (hy : y ∉ l1 ++ l2) :
    unlink links x y = links y := by
  have hlink := hs.link
  simp only [unlink, hlink]
  have h1 : ∀ q, l1.getLast? = some q → y ≠ q := fun q hq he => hy (by
    simp [he, mem_of_mem_getLast? hq])
  have h2 : ∀ m, l2.head? = some m → y ≠ m := fun m hm he => hy (by
    simp [he, mem_of_mem_head? hm])
  cases hl1 : l1.getLast? <;> cases hl2 : l2.head? <;> simp_all

section

variable {next next' : κ → Option κ} {head : Option κ}

/-- From `head` the nodes of `l` follow one another, and then the list ends. -/
def Chain (next : κ → Option κ) : Option κ → List κ → Prop
  | head, [] => head = none
  | head, x :: xs => head = some x ∧ Chain next (next x) xs

omit [DecidableEq κ] in
theorem Chain.congr (h : ∀ y ∈ l, next' y = next y) (hc : Chain next head l) :
    Chain next' head l := by
  induction l generalizing head with
  | nil => exact hc
  | cons x xs ih =>
    refine ⟨hc.1, ?_⟩
    rw [h x mem_cons_self]
    exact ih (fun y hy => h y (mem_cons_of_mem x hy)) hc.2

omit [DecidableEq κ] in
theorem Chain.head_eq (hc : Chain next head l) : head = l.head? := by
  cases l with
  | nil => exact hc
  | cons x xs => exact hc.1

end

end Fastros.Lib.Linked
