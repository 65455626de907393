import Mathlib

/-!
# `s///` of sed

The regular expression enters through `find`: the leftmost match in the pattern space that
starts at or after a position (`captures_at`). The loop also counts an empty match right
after another one, and steps over as many bytes as the first byte of a character announces.
-/

namespace Fastros.Sed

open List

abbrev Bytes := List UInt8

variable (find : Nat → Option (Nat × Nat)) (repl : Nat → Nat → Bytes) (ps : Bytes) (nth : Nat)
  (global : Bool)

def utf8Len (b : UInt8) : Nat :=
  if 0xF0 ≤ b then 4 else if 0xE0 ≤ b then 3 else if 0xC0 ≤ b then 2 else 1

/-- `&ps[a..b]`, which panics out of range. -/
def slice (a b : Nat) : Option Bytes :=
  if a ≤ b ∧ b ≤ ps.length then some ((ps.take b).drop a) else none

/-- Behind the character at `e`. -/
def step (e : Nat) : Nat := e + (ps[e]?.map utf8Len).getD 1

/-- The end of `substitute`: whether it did something, and the new pattern space. -/
def finish (out : Bytes) (last : Nat) (did : Bool) : Bool × Bytes :=
  if did then (true, out ++ ps.drop (min last ps.length)) else (false, ps)

/-- The loop, with `n` rounds left. -/
def loop : (n : Nat) → (out : Bytes) → (last count : Nat) → (did : Bool) → (pos : Nat) →
    Option (Bool × Bytes)
  | 0, out, last, _, did, _ => some (finish ps out last did)
  | n + 1, out, last, count, did, pos =>
    match if pos ≤ ps.length then find pos else none with
    | none => some (finish ps out last did)
    | some (s, e) =>
      let pos := if e = s then step ps e else e
      if nth ≤ count + 1 then do
        let out := out ++ (← slice ps last s) ++ repl s e
        if !global then return finish ps out e true
        if e = s ∧ e < ps.length then
          loop n (out ++ (← slice ps e pos)) pos (count + 1) true pos
        else loop n out e (count + 1) true pos
      else loop n out last (count + 1) did pos

/-- Every round moves on by a byte at least. -/
def substitute : Option (Bool × Bytes) :=
  loop find repl ps nth global (ps.length + 2) [] 0 0 false 0

/-- The matches from `p` on, left to right, after one that ended at `prev`: an empty one
there is not counted. -/
def matchesFrom : (n p : Nat) → (prev : Option Nat) → List (Nat × Nat)
  | 0, _, _ => []
  | n + 1, p, prev =>
    match find p with
    | none => []
    | some (s, e) =>
      if e = s ∧ prev = some s then matchesFrom n (s + 1) prev
      else (s, e) :: matchesFrom n (if e = s then s + 1 else e) (some e)

/-- From the `n`-th match on, or the `n`-th only. -/
def chosen (n : Nat) (ms : List (Nat × Nat)) : List (Nat × Nat) :=
  if global then ms.drop (n - 1) else (ms.drop (n - 1)).take 1

/-- The pattern space from `last` on, with the given matches replaced. -/
def splice : Nat → List (Nat × Nat) → Bytes
  | last, [] => ps.drop last
  | last, (s, e) :: ms => (ps.take s).drop last ++ repl s e ++ splice e ms

/-- The matches as the loop comes to them from `p` on: after an empty one the search goes
on behind the next character. -/
def visited : (n p : Nat) → List (Nat × Nat)
  | 0, _ => []
  | n + 1, p =>
    match find p with
    | none => []
    | some (s, e) => (s, e) :: visited n (if e = s then step ps e else e)

/-- A match lies in the pattern space, at or after the position it is looked for from. -/
def Inside : Prop := ∀ {p s e}, find p = some (s, e) → p ≤ s ∧ s ≤ e ∧ e ≤ ps.length

/-- With `g` the character after an empty match is not cut off. -/
def Whole (x : Nat × Nat) : Prop :=
  global = true → x.2 = x.1 → x.2 < ps.length → step ps x.2 ≤ ps.length

instance : DecidablePred (Whole ps global) := fun _ => inferInstanceAs (Decidable (_ → _))

variable {find repl ps nth global}

theorem find_past (hi : Inside find ps) {p : Nat} (hp : ps.length < p) : find p = none := by
  cases hf : find p with
  | none => rfl
  | some se =>
    have := hi hf
    omega

theorem lt_step (ps : Bytes) (e : Nat) : e < step ps e := by
  unfold step
  cases ps[e]? <;> grind [utf8Len]

theorem visited_rounds (hi : Inside find ps) {n m p : Nat}
    (hn : ps.length < n + p) (hm : ps.length < m + p) :
    visited find ps n p = visited find ps m p := by
  induction n generalizing m p with
  | zero => cases m <;> simp [visited, find_past hi (p := p) (by omega)]
  | succ n ih =>
    cases m with
    | zero => simp [visited, find_past hi (p := p) (by omega)]
    | succ m =>
      cases hf : find p with
      | none => simp only [visited, hf]
      | some se =>
        obtain ⟨s, e⟩ := se
        have := hi hf
        have := lt_step ps e
        simp only [visited, hf]
        rw [ih (m := m) (by split <;> omega) (by split <;> omega)]

theorem visited_ge (hi : Inside find ps) : ∀ (n p : Nat), ∀ x ∈ visited find ps n p, p ≤ x.1
  | n + 1, p, x, hx => by
    have ih := fun p => visited_ge hi n p x
    have := fun {s e} => hi (p := p) (s := s) (e := e)
    have := lt_step ps
    unfold visited at hx
    grind

theorem matchesFrom_ge (hi : Inside find ps) : ∀ (n p : Nat) (prev : Option Nat),
    ∀ x ∈ matchesFrom find n p prev, p ≤ x.1
  | n + 1, p, prev, x, hx => by
    have ih := fun p prev => matchesFrom_ge hi n p prev x
    have := fun {s e} => hi (p := p) (s := s) (e := e)
    unfold matchesFrom at hx
    grind

/-- Matches are in the pattern space and start one after the other. -/
def Ordered (ps : Bytes) (ms : List (Nat × Nat)) : Prop :=
  (∀ x ∈ ms, x.1 ≤ x.2 ∧ x.2 ≤ ps.length) ∧ ms.Pairwise fun x y => x.1 < y.1 ∧ x.2 ≤ y.1

theorem Ordered.cons {s e : Nat} {ms : List (Nat × Nat)} (hs : s ≤ e) (he : e ≤ ps.length)
    (h : Ordered ps ms) (hms : ∀ x ∈ ms, (if e = s then s + 1 else e) ≤ x.1) :
    Ordered ps ((s, e) :: ms) := by
  refine ⟨forall_mem_cons.2 ⟨⟨hs, he⟩, h.1⟩, pairwise_cons.2 ⟨fun x hx => ?_, h.2⟩⟩
  have := hms x hx
  split at this <;> dsimp only <;> omega

theorem Ordered.chosen {ms : List (Nat × Nat)} (h : Ordered ps ms) (k : Nat) :
    Ordered ps (chosen global k ms) := by
  have hsub : (Sed.chosen global k ms).Sublist ms := by
    unfold Sed.chosen
    split
    · exact drop_sublist ..
    · exact (take_sublist ..).trans (drop_sublist ..)
  exact ⟨fun x hx => h.1 x (hsub.subset hx), h.2.sublist hsub⟩

theorem visited_ordered (hi : Inside find ps) : ∀ n p, Ordered ps (visited find ps n p)
  | 0, _ => ⟨by simp [visited], .nil⟩
  | n + 1, p => by
    unfold visited
    cases hf : find p with
    | none => exact ⟨by simp, .nil⟩
    | some se =>
      have hin := hi hf
      refine .cons hin.2.1 hin.2.2 (visited_ordered hi n _) fun x hx => ?_
      have := visited_ge hi n _ x hx
      have := lt_step ps se.2
      grind

theorem matchesFrom_ordered (hi : Inside find ps) :
    ∀ n p prev, Ordered ps (matchesFrom find n p prev)
  | 0, _, _ => ⟨by simp [matchesFrom], .nil⟩
  | n + 1, p, prev => by
    unfold matchesFrom
    cases hf : find p with
    | none => exact ⟨by simp, .nil⟩
    | some se =>
      have hin := hi hf
      dsimp only
      split
      · exact matchesFrom_ordered hi n _ _
      · exact .cons hin.2.1 hin.2.2 (matchesFrom_ordered hi n _ _) (matchesFrom_ge hi n _ _)

theorem drop_cut {l : Bytes} {last x : Nat} (h : last ≤ x) (hx : x ≤ l.length) :
    l.drop last = (l.take x).drop last ++ l.drop x := by
  rw [← drop_append_of_le_length (by rw [length_take]; omega), take_append_drop]

/-- Bytes in front of the first match may be copied first. -/
theorem splice_copy {last x : Nat} {ms : List (Nat × Nat)} (h : last ≤ x) (hx : x ≤ ps.length)
    (hms : ∀ y ∈ ms, x ≤ y.1) :
    splice repl ps last ms = (ps.take x).drop last ++ splice repl ps x ms := by
  cases ms with
  | nil => exact drop_cut h hx
  | cons y ms =>
    have hy := hms y mem_cons_self
    have hcut := drop_cut (l := ps.take y.1) h (by rw [length_take]; omega)
    rw [take_take, Nat.min_eq_left hy] at hcut
    simp only [splice, hcut, append_assoc]

/-- What is left to be done comes after `last`, which `out` has been filled up to. -/
def result (repl : Nat → Nat → Bytes) (ps out : Bytes) (last : Nat) (did : Bool)
    (ms : List (Nat × Nat)) : Bool × Bytes :=
  if did || !ms.isEmpty then (true, out ++ splice repl ps last ms) else (false, ps)

theorem finish_eq (repl : Nat → Nat → Bytes) (global : Bool) {out : Bytes} {last : Nat} (did : Bool) (k : Nat) (h : last ≤ ps.length) :
    finish ps out last did = result repl ps out last did (chosen global k []) := by
  simp [finish, result, chosen, splice, Nat.min_eq_left h]

/-- The loop replaces the chosen ones of the matches it comes to, unless it reads past the end. -/
theorem loop_eq (hi : Inside find ps) : ∀ (n : Nat) (out : Bytes) (last count : Nat) (did : Bool)
    (pos : Nat), last ≤ pos → last ≤ ps.length →
    loop find repl ps nth global n out last count did pos =
      let ms := chosen global (nth - count) (visited find ps n pos)
      if ∀ x ∈ ms, Whole ps global x then some (result repl ps out last did ms) else none := by
  intro n
  induction n with
  | zero =>
    intro out last count did pos _ hl
    simp [loop, visited, chosen, finish_eq repl global did 0 hl]
  | succ n ih =>
    intro out last count did pos hlp hl
    have hfind : (if pos ≤ ps.length then find pos else none) = find pos := by
      split
      · rfl
      · exact (find_past hi (by omega)).symm
    rw [loop, visited, hfind]
    cases hf : find pos with
    | none => simp [chosen, finish_eq repl global did 0 hl]
    | some se =>
      obtain ⟨s, e⟩ := se
      obtain ⟨hps, hse, he⟩ := hi hf
      have hstep := lt_step ps e
      dsimp only
      generalize hq : (if e = s then step ps e else e) = q
      have heq : e ≤ q := by rw [← hq]; split <;> omega
      have hge := visited_ge hi n q
      have ih' := fun out last did => ih out last (count + 1) did q
      generalize visited find ps n q = rest at *
      split
      next hnth =>
        have hslice : slice ps last s = some ((ps.take s).drop last) := if_pos ⟨by omega, by omega⟩
        rw [hslice]
        cases global with
        | false =>
          simp [chosen, result, finish, splice, Whole, show nth - count - 1 = 0 by omega, he]
        | true =>
          have hall : chosen true (nth - (count + 1)) rest = rest := by
            simp [chosen, show nth - (count + 1) - 1 = 0 by omega]
          have hsel : chosen true (nth - count) ((s, e) :: rest) = (s, e) :: rest := by
            simp [chosen, show nth - count - 1 = 0 by omega]
          rw [hall] at ih'
          rw [hsel]
          simp only [Option.bind_eq_bind, Option.bind_some, Bool.not_true, Bool.false_eq_true,
            if_false, forall_mem_cons]
          split
          next hlen =>
            rw [if_pos hlen.1] at hq
            by_cases hw : q ≤ ps.length
            · have hchar : slice ps e q = some ((ps.take q).drop e) := if_pos ⟨heq, hw⟩
              have hwhole : Whole ps true (s, e) := fun _ _ _ => hq ▸ hw
              rw [hchar, Option.bind_some, ih' _ _ _ .refl hw]
              simp only [hwhole, true_and, result, splice, splice_copy heq hw hge]
              simp
            · have hchar : slice ps e q = none := if_neg fun h => hw h.2
              have hcut : ¬ Whole ps true (s, e) := fun h => hw (hq ▸ h rfl hlen.1 hlen.2)
              rw [hchar, if_neg fun h => hcut h.1]
              rfl
          next hlen =>
            have hwhole : Whole ps true (s, e) := fun _ h hlt => absurd ⟨h, hlt⟩ hlen
            rw [ih' _ _ _ heq he]
            simp only [hwhole, true_and, result, splice]
            simp
      next hnth =>
        rw [ih' _ _ _ (by omega) hl, chosen, chosen,
          show nth - count - 1 = nth - (count + 1) - 1 + 1 by omega, drop_succ_cons]

/-- Writes `x` large and everything else as nothing. -/
def mark (ps : Bytes) (x : Nat × Nat) : Nat → Nat → Bytes :=
  fun s e => if (s, e) = x then replicate (ps.length + 1) 0 else []

theorem length_splice_of_mem (x : Nat × Nat) : ∀ (last : Nat) (ms : List (Nat × Nat)), x ∈ ms →
    ps.length < (splice (mark ps x) ps last ms).length
  | last, (s, e) :: ms, hx => by
    rcases mem_cons.1 hx with rfl | hx
    · simp [splice, mark]
      omega
    · have := length_splice_of_mem x e ms hx
      simp [splice]
      omega

theorem length_splice_of_not_mem (x : Nat × Nat) : ∀ (last : Nat) (ms : List (Nat × Nat)),
    Ordered ps ms → (∀ y ∈ ms, last ≤ y.1) → x ∉ ms →
    (splice (mark ps x) ps last ms).length ≤ ps.length - last
  | last, [], _, _, _ => by simp [splice]
  | last, (s, e) :: ms, h, hlast, hx => by
    have hse := h.1 _ mem_cons_self
    have hs := hlast _ mem_cons_self
    have hpair := pairwise_cons.1 h.2
    have ih := length_splice_of_not_mem x e ms ⟨fun y hy => h.1 y (mem_cons_of_mem _ hy), hpair.2⟩
      (fun y hy => (hpair.1 y hy).2) fun h => hx (mem_cons_of_mem _ h)
    have hne : (s, e) ≠ x := fun h => hx (h ▸ mem_cons_self)
    simp [splice, mark, hne]
    dsimp only at hse hs
    omega

/-- Where every replacement text gives the same result, the same matches are replaced. -/
theorem splice_injective {ms ms' : List (Nat × Nat)} (h : Ordered ps ms) (h' : Ordered ps ms')
    (heq : ∀ repl, splice repl ps 0 ms = splice repl ps 0 ms') : ms = ms' := by
  have hmem : ∀ {ms ms'}, Ordered ps ms' → (∀ repl, splice repl ps 0 ms = splice repl ps 0 ms') →
      ∀ x ∈ ms, x ∈ ms' := by
    intro ms ms' h' heq x hx
    by_contra hnot
    have hlong : ps.length < _ := length_splice_of_mem x 0 ms hx
    have hshort := length_splice_of_not_mem x 0 ms' h' (fun _ _ => Nat.zero_le _) hnot
    rw [heq] at hlong
    omega
  have hlt : ∀ {ms}, Ordered ps ms → ms.Pairwise fun x y => x.1 < y.1 :=
    fun h => h.2.imp And.left
  have hnodup : ∀ {ms}, Ordered ps ms → ms.Nodup :=
    fun h => (hlt h).imp fun {x y} hxy (hne : x = y) => absurd hxy (hne ▸ Nat.lt_irrefl _)
  have hperm : ms.Perm ms' := (perm_ext_iff_of_nodup (hnodup h) (hnodup h')).2 fun x =>
    ⟨hmem h' heq x, hmem h (fun r => (heq r).symm) x⟩
  exact hperm.eq_of_pairwise (fun x y _ _ hxy hyx => absurd hxy (Nat.lt_asymm hyx)) (hlt h) (hlt h')

variable (find ps nth global)

end Fastros.Sed
