import Mathlib

/-!
# Aligned blocks of powers of two

The numbers are cut into cells of `2 ^ o` for every order `o`; two cells of order
`o` that make up one of order `o + 1` are buddies. A family of cells without
overlaps and without a pair of buddies below its largest order is determined by
the numbers it covers, and no cell it covers is split up.
-/

namespace Fastros.Lib.Dyadic

open Function (update update_self update_of_ne)

/-- `i` and `j` lie in one cell of order `o`. -/
def SameCell (o i j : Nat) : Prop := i / 2 ^ o = j / 2 ^ o

def buddy (o i : Nat) : Nat := i ^^^ 2 ^ o

instance (o i j : Nat) : Decidable (SameCell o i j) :=
  inferInstanceAs (Decidable (i / 2 ^ o = j / 2 ^ o))

variable {o o' i j k : Nat}

theorem SameCell.refl (o i : Nat) : SameCell o i i := rfl

theorem SameCell.symm (h : SameCell o i j) : SameCell o j i := Eq.symm h

theorem SameCell.trans (h : SameCell o i j) (h' : SameCell o j k) : SameCell o i k := Eq.trans h h'

theorem SameCell.mono (h : SameCell o i j) (ho : o ≤ o') : SameCell o' i j := by
  obtain ⟨d, rfl⟩ := Nat.exists_eq_add_of_le ho
  simp only [SameCell] at h ⊢
  rw [pow_add, ← Nat.div_div_eq_div_mul, ← Nat.div_div_eq_div_mul, h]

theorem sameCell_zero : SameCell 0 i j ↔ i = j := by simp [SameCell]

theorem sameCell_iff (hi : 2 ^ o ∣ i) : SameCell o i j ↔ i ≤ j ∧ j < i + 2 ^ o := by
  obtain ⟨q, rfl⟩ := hi
  have hpos : 0 < 2 ^ o := Nat.two_pow_pos o
  rw [SameCell, Nat.mul_div_cancel_left q hpos, eq_comm, Nat.div_eq_iff hpos]
  constructor <;> intro h
  · constructor
    · calc 2 ^ o * q = q * 2 ^ o := mul_comm _ _
        _ ≤ j := h.1
    · have := h.2
      rw [mul_comm] at this
      omega
  · rw [mul_comm q]
    omega

theorem eq_of_sameCell (hi : 2 ^ o ∣ i) (hj : 2 ^ o ∣ j) (h : SameCell o i j) : i = j := by
  have h1 := ((sameCell_iff hi).mp h).1
  have h2 := ((sameCell_iff hj).mp h.symm).1
  omega

theorem sameCell_floor (o i : Nat) : SameCell o (i / 2 ^ o * 2 ^ o) i := by
  rw [SameCell, Nat.mul_div_cancel _ (Nat.two_pow_pos o)]

theorem xor_one_cases (q : Nat) : q % 2 = 0 ∧ q ^^^ 1 = q + 1 ∨ q % 2 = 1 ∧ (q ^^^ 1) + 1 = q := by
  have : (q ^^^ 1) / 2 = q / 2 := by
    have h := Nat.xor_div_two_pow (a := q) (b := 1) (n := 1)
    simpa using h
  have : (q ^^^ 1) % 2 = (q + 1) % 2 := by simp [Nat.xor_mod_two_eq]
  omega

theorem buddy_div (o i : Nat) : buddy o i / 2 ^ o = i / 2 ^ o ^^^ 1 := by
  rw [buddy, Nat.xor_div_two_pow, Nat.div_self (Nat.two_pow_pos o)]

theorem buddy_buddy (o i : Nat) : buddy o (buddy o i) = i := by
  simp [buddy]

theorem not_sameCell_buddy (o i : Nat) : ¬ SameCell o i (buddy o i) := by
  rw [SameCell, buddy_div]
  have h := xor_one_cases (i / 2 ^ o)
  omega

theorem div_two_pow_succ (o i : Nat) : i / 2 ^ (o + 1) = i / 2 ^ o / 2 := by
  rw [pow_succ, Nat.div_div_eq_div_mul]

theorem sameCell_succ : SameCell (o + 1) i j ↔ SameCell o i j ∨ SameCell o (buddy o i) j := by
  simp only [SameCell, div_two_pow_succ, buddy_div]
  have h := xor_one_cases (i / 2 ^ o)
  omega

theorem sameCell_buddy (o i : Nat) : SameCell (o + 1) i (buddy o i) :=
  sameCell_succ.mpr (.inr (.refl o _))

theorem dvd_buddy (h : 2 ^ o ∣ i) : 2 ^ o ∣ buddy o i := by
  obtain ⟨q, rfl⟩ := h
  have hmod : buddy o (2 ^ o * q) % 2 ^ o = 0 := by
    rw [buddy, Nat.xor_mod_two_pow]
    simp
  exact Nat.dvd_of_mod_eq_zero hmod

/-- The buddy of an aligned cell is the next cell or the one before. -/
theorem buddy_cases (h : 2 ^ o ∣ i) :
    2 ^ (o + 1) ∣ i ∧ buddy o i = i + 2 ^ o ∨ 2 ^ (o + 1) ∣ buddy o i ∧ i = buddy o i + 2 ^ o := by
  obtain ⟨q, hq⟩ := h
  obtain ⟨r, hr⟩ := dvd_buddy ⟨q, hq⟩
  have hpos : 0 < 2 ^ o := Nat.two_pow_pos o
  have hdiv := buddy_div o i
  rw [hr, hq, Nat.mul_div_cancel_left _ hpos, Nat.mul_div_cancel_left _ hpos] at hdiv
  rcases xor_one_cases q with ⟨heven, hx⟩ | ⟨hodd, hx⟩
  · left
    obtain ⟨p, rfl⟩ : 2 ∣ q := Nat.dvd_of_mod_eq_zero heven
    rw [hx] at hdiv
    refine ⟨⟨p, by rw [hq]; ring⟩, ?_⟩
    rw [hr, hq, hdiv]
    ring
  · right
    have hqr : q = r + 1 := by omega
    obtain ⟨p, rfl⟩ : 2 ∣ r := by omega
    refine ⟨⟨p, by rw [hr]; ring⟩, ?_⟩
    rw [hr, hq, hqr]
    ring

/-- Two buddies make a cell that starts at the lower one. -/
theorem dvd_min_buddy (h : 2 ^ o ∣ i) : 2 ^ (o + 1) ∣ min i (buddy o i) := by
  rcases buddy_cases h with ⟨hd, hb⟩ | ⟨hd, hb⟩
  · rwa [min_eq_left (by omega)]
  · rwa [min_eq_right (by omega)]

theorem sameCell_min_buddy (o i j : Nat) :
    SameCell (o + 1) (min i (buddy o i)) j ↔ SameCell o i j ∨ SameCell o (buddy o i) j := by
  rcases le_total i (buddy o i) with h | h
  · rw [min_eq_left h]
    exact sameCell_succ
  · rw [min_eq_right h, sameCell_succ, buddy_buddy]
    exact Or.comm

/-- The upper half of an aligned cell is the buddy of its start. -/
theorem buddy_of_dvd (h : 2 ^ (o + 1) ∣ i) : buddy o i = i + 2 ^ o := by
  have hi : 2 ^ o ∣ i := Nat.dvd_trans (pow_dvd_pow 2 (Nat.le_succ o)) h
  rcases buddy_cases hi with ⟨_, hb⟩ | ⟨hd, hb⟩
  · exact hb
  · -- both would be starts of the cell of order `o + 1`
    have := eq_of_sameCell h hd (sameCell_buddy o i)
    omega

section

variable {κ : Type}

/-- The numbers below `n` are cut into cells of orders up to `M`. `m` gives the
kind and the order of the cell that starts at a number; the numbers in `H` are in
no cell. -/
structure Tiling (n M : Nat) (m : Nat → Option (κ × Nat)) (H : Nat → Prop) : Prop where
  outside : ∀ {i}, H i → i < n ∧ m i = none
  inside : ∀ {i}, i < n → m i = none → H i ∨ ∃ h k o, m h = some (k, o) ∧ SameCell o h i
  order : ∀ {i k o}, m i = some (k, o) → o ≤ M
  aligned : ∀ {i k o}, m i = some (k, o) → 2 ^ o ∣ i
  bound : ∀ {i k o}, m i = some (k, o) → i + 2 ^ o ≤ n
  whole : ∀ {i k o j}, m i = some (k, o) → SameCell o i j → ¬ H j ∧ (j ≠ i → m j = none)

variable {n M i j o o' : Nat} {m : Nat → Option (κ × Nat)} {H : Nat → Prop} {k k' : κ}

/-- What holds of every cell of a kind and of what is put at `i`. -/
theorem forall_cells {P : Nat → Nat → Prop} {c : Option (κ × Nat)}
    (h : ∀ {j o}, m j = some (k, o) → P j o) (hc : ∀ {o}, c = some (k, o) → P i o)
    (hj : update m i c j = some (k, o)) : P j o := by
  by_cases hji : j = i
  · subst hji
    rw [update_self] at hj
    exact hc hj
  · rw [update_of_ne hji] at hj
    exact h hj

section

variable (h : Tiling n M m H)
include h

/-- A number belongs to at most one cell. -/
theorem Tiling.unique (hi : m i = some (k, o)) (hj : m j = some (k', o'))
    {x : Nat} (hx : SameCell o i x) (hx' : SameCell o' j x) : i = j := by
  by_contra hne
  -- the start of the smaller cell would lie inside the larger one
  rcases le_total o o' with ho | ho
  · have hin : SameCell o' j i := hx'.trans (hx.mono ho).symm
    rw [(h.whole hj hin).2 hne] at hi
    cases hi
  · have hin : SameCell o i j := hx.trans (hx'.mono ho).symm
    rw [(h.whole hi hin).2 (Ne.symm hne)] at hj
    cases hj

theorem Tiling.lt (hi : m i = some (k, o)) (hj : SameCell o i j) : j < n := by
  have hb := h.bound hi
  have := ((sameCell_iff (h.aligned hi)).mp hj).2
  omega

/-- A number below `n` is in a cell or in none. -/
theorem Tiling.cases (hi : i < n) : H i ∨ ∃ s k o, m s = some (k, o) ∧ SameCell o s i := by
  cases hm : m i with
  | none => exact h.inside hi hm
  | some x => exact .inr ⟨i, x.1, x.2, hm, .refl _ _⟩

theorem Tiling.lift (hi : m i = some (k, o)) :
    Tiling n M (update m i none) fun j => H j ∨ SameCell o i j where
  outside := by
    rintro j (hj | hj)
    · obtain ⟨hlt, hm⟩ := h.outside hj
      refine ⟨hlt, ?_⟩
      by_cases hji : j = i <;> simp [hm, hji]
    · refine ⟨h.lt hi hj, ?_⟩
      by_cases hji : j = i
      · simp [hji]
      · simpa [hji] using (h.whole hi hj).2 hji
  inside := by
    intro j hlt hm
    by_cases hji : j = i
    · exact .inl (.inr (by rw [hji]; exact .refl o i))
    rcases h.inside hlt (by simpa [hji] using hm) with hH | ⟨s, k', o', hs, hc⟩
    · exact .inl (.inl hH)
    by_cases hsi : s = i
    · subst hsi
      rw [hi] at hs
      cases hs
      exact .inl (.inr hc)
    · exact .inr ⟨s, k', o', by simpa [hsi] using hs, hc⟩
  order := forall_cells h.order nofun
  aligned := forall_cells h.aligned nofun
  bound := forall_cells h.bound nofun
  whole := by
    intro j k' o' x hj hx
    by_cases hji : j = i
    · simp [hji] at hj
    have hj' : m j = some (k', o') := by simpa [hji] using hj
    refine ⟨?_, fun hne => ?_⟩
    · rintro (hH | hc)
      · exact (h.whole hj' hx).1 hH
      · exact hji (h.unique hj' hi hx hc)
    · by_cases hxi : x = i
      · simp [hxi]
      · simpa [hxi] using (h.whole hj' hx).2 hne

/-- Putting a cell where there was none. -/
theorem Tiling.place (ho : o ≤ M) (hal : 2 ^ o ∣ i) (hb : i + 2 ^ o ≤ n)
    (hfree : ∀ j, SameCell o i j → H j) (k : κ) :
    Tiling n M (update m i (some (k, o))) fun j => H j ∧ ¬ SameCell o i j where
  outside := by
    rintro j ⟨hj, hc⟩
    have hji : j ≠ i := by
      rintro rfl
      exact hc (.refl o j)
    simpa [hji] using h.outside hj
  inside := by
    intro j hlt hm
    have hji : j ≠ i := by
      rintro rfl
      simp at hm
    rcases h.inside hlt (by simpa [hji] using hm) with hH | ⟨s, k', o', hs, hc⟩
    · by_cases hc : SameCell o i j
      · exact .inr ⟨i, k, o, by simp, hc⟩
      · exact .inl ⟨hH, hc⟩
    have hsi : s ≠ i := by
      rintro rfl
      rw [(h.outside (hfree s (.refl o s))).2] at hs
      cases hs
    exact .inr ⟨s, k', o', by simpa [hsi] using hs, hc⟩
  order := forall_cells h.order fun hc => by cases hc; exact ho
  aligned := forall_cells h.aligned fun hc => by cases hc; exact hal
  bound := forall_cells h.bound fun hc => by cases hc; exact hb
  whole := by
    intro j k' o' x hj hx
    by_cases hji : j = i
    · simp only [hji, update_self, Option.some.injEq, Prod.mk.injEq] at hj
      rw [hji, ← hj.2] at hx
      refine ⟨fun hH => hH.2 hx, fun hne => ?_⟩
      rw [hji] at hne
      simpa [hne] using (h.outside (hfree x hx)).2
    · have hj' : m j = some (k', o') := by simpa [hji] using hj
      obtain ⟨hH, hnone⟩ := h.whole hj' hx
      have hxi : x ≠ i := by
        rintro rfl
        exact hH (hfree x (.refl o x))
      exact ⟨fun hH' => hH hH'.1, fun hne => by simpa [hxi] using hnone hne⟩

end

end

/-- Cells of orders up to `M` that do not overlap, no two of them buddies that
could be one cell. -/
structure Merged (M : Nat) (B : Nat → Nat → Prop) : Prop where
  order : ∀ {o i}, B o i → o ≤ M
  aligned : ∀ {o i}, B o i → 2 ^ o ∣ i
  apart : ∀ {o i o' i'}, B o i → B o' i' → o ≤ o' → SameCell o' i i' → o = o' ∧ i = i'
  merged : ∀ {o i}, B o i → o < M → ¬ B o (buddy o i)

/-- The numbers in the cells of a family. -/
def Covers (B : Nat → Nat → Prop) (j : Nat) : Prop := ∃ o i, B o i ∧ SameCell o i j

variable {M : Nat} {B B' : Nat → Nat → Prop}

/-- A cell that is covered lies in one cell of the family. -/
theorem Merged.within (h : Merged M B) : ∀ {k i : Nat}, k ≤ M →
    (∀ j, SameCell k i j → Covers B j) → ∃ o s, k ≤ o ∧ B o s ∧ SameCell o s i := by
  intro k
  induction k with
  | zero =>
    intro i _ hcov
    obtain ⟨o, s, hb, hs⟩ := hcov i (.refl 0 i)
    exact ⟨o, s, Nat.zero_le o, hb, hs⟩
  | succ k ih =>
    intro i hk hcov
    obtain ⟨o, s, hko, hb, hs⟩ := ih (by omega) fun j hj => hcov j (hj.mono (by omega))
    obtain ⟨o', s', hko', hb', hs'⟩ := ih (by omega) fun j hj =>
      hcov j (sameCell_succ.mpr (.inr hj))
    by_cases ho : o = k
    · by_cases ho' : o' = k
      · -- both halves would be cells of the family
        subst ho
        subst ho'
        have hbud : s' = buddy o' s := by
          apply eq_of_sameCell (h.aligned hb') (dvd_buddy (h.aligned hb))
          refine hs'.trans ?_
          rw [SameCell, buddy_div, buddy_div, hs.symm]
        rw [hbud] at hb'
        exact absurd hb' (h.merged hb (by omega))
      · refine ⟨o', s', by omega, hb', hs'.trans ?_⟩
        exact (sameCell_buddy k i).symm.mono (by omega)
    · exact ⟨o, s, by omega, hb, hs⟩

/-- The family consists of the largest cells of what it covers. -/
theorem Merged.mem_iff (h : Merged M B) : B o i ↔ o ≤ M ∧ 2 ^ o ∣ i ∧
    (∀ j, SameCell o i j → Covers B j) ∧ (o < M → ∃ j, SameCell (o + 1) i j ∧ ¬ Covers B j) := by
  constructor
  · intro hb
    refine ⟨h.order hb, h.aligned hb, fun j hj => ⟨o, i, hb, hj⟩, fun ho => ?_⟩
    by_contra hcov
    push Not at hcov
    obtain ⟨o', s, hko, hb', hs⟩ := h.within ho hcov
    have := (h.apart hb hb' (by omega) hs.symm).1
    omega
  · rintro ⟨ho, hal, hcov, hout⟩
    obtain ⟨o', s, hko, hb, hs⟩ := h.within ho hcov
    rcases lt_or_ge o o' with hlt | hge
    · have hM := h.order hb
      obtain ⟨j, hj, hnot⟩ := hout (by omega)
      exact absurd ⟨o', s, hb, hs.trans (hj.mono (by omega))⟩ hnot
    · obtain rfl : o = o' := by omega
      rwa [eq_of_sameCell hal (h.aligned hb) hs.symm]

/-- Two such families that cover the same numbers are the same. -/
theorem Merged.ext (h : Merged M B) (h' : Merged M B') (hcov : ∀ j, Covers B j ↔ Covers B' j) :
    B o i ↔ B' o i := by
  rw [h.mem_iff, h'.mem_iff]
  simp only [hcov]

end Fastros.Lib.Dyadic
