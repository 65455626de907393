import Fastros.Lib.Numeral

/-!
# Texts of lines and fields

A text is a list of characters. Its lines end in a newline, or in a carriage return
and a newline; a line has fields between separators. Lines whose fields have no
separator are read back field by field, up to a carriage return at their end.
Numbers are written in decimal and read with a bound.
-/

namespace Fastros.Lib.Texts

open List

open Numeral (digits digits_lt digits_ne_nil value value_cons value_digits le_value)

abbrev Text := List Char

variable {sep : Char} {s t : Text} {fs : List Text} {n limit : Nat}
variable {c : Char}

theorem not_mem_splitOn : ∀ {s t : Text}, t ∈ s.splitOn sep → sep ∉ t := by
  intro s
  induction s with
  | nil =>
    intro t ht
    rw [splitOn_nil, mem_singleton] at ht
    simp [ht]
  | cons c s ih =>
    intro t ht
    rw [splitOn, splitOnP_cons_eq_if_modifyHead, ← splitOn] at ht
    by_cases hc : c = sep
    · rw [if_pos (by simp [hc])] at ht
      rcases mem_cons.mp ht with rfl | hmem
      · simp
      · exact ih hmem
    rw [if_neg (by simp [hc])] at ht
    obtain ⟨f, fs, hfs⟩ := exists_cons_of_ne_nil (splitOnP_ne_nil (· == sep) s)
    rw [← splitOn] at hfs
    rw [hfs, modifyHead_cons] at ht
    rcases mem_cons.mp ht with rfl | hmem
    · have hf := ih (hfs ▸ mem_cons_self)
      simp only [mem_cons, not_or]
      exact ⟨fun h => hc h.symm, hf⟩
    · exact ih (hfs ▸ mem_cons_of_mem f hmem)

theorem mem_of_splitOn (ht : t ∈ s.splitOn sep) (hc : c ∈ t) : c ∈ s := by
  have hs : [sep].intercalate (s.splitOn sep) = s := intercalate_splitOn sep
  rw [← hs, intercalate]
  clear hs
  generalize s.splitOn sep = ts at ht
  induction ts with
  | nil => exact absurd ht not_mem_nil
  | cons a ts ih =>
    cases ts with
    | nil =>
      rw [mem_singleton] at ht
      simpa [← ht] using hc
    | cons b ts =>
      rcases mem_cons.mp ht with rfl | hmem
      · exact mem_append_left _ hc
      · exact mem_append_right _ (mem_append_right _ (ih hmem))

/-- A character of joined texts is the separator or one of theirs. -/
theorem mem_intercalate : ∀ {fs : List Text}, c ∈ [sep].intercalate fs →
    c = sep ∨ ∃ t ∈ fs, c ∈ t := by
  intro fs
  induction fs with
  | nil =>
    intro hc
    simp [intercalate] at hc
  | cons s fs ih =>
    intro hc
    cases fs with
    | nil =>
      have hone : [sep].intercalate [s] = s := by simp [intercalate]
      rw [hone] at hc
      exact .inr ⟨s, mem_cons_self, hc⟩
    | cons u fs =>
      have hcons : [sep].intercalate (s :: u :: fs) = s ++ sep :: [sep].intercalate (u :: fs) := by
        simp [intercalate]
      rw [hcons, mem_append, mem_cons] at hc
      rcases hc with hc | hc | hc
      · exact .inr ⟨s, mem_cons_self, hc⟩
      · exact .inl hc
      · rcases ih hc with hsep | ⟨x, hx, hcx⟩
        · exact .inl hsep
        · exact .inr ⟨x, mem_cons_of_mem s hx, hcx⟩

/-- A line without the carriage return at its end. -/
def stripCr (s : Text) : Text := if s.getLast? = some '\r' then s.dropLast else s

/-- The lines of a text, without their ends; what follows the last newline is a line unless
it is empty, and keeps its carriage return. -/
def lines (s : Text) : List Text :=
  (s.splitOn '\n').dropLast.map stripCr ++
    if (s.splitOn '\n').getLastD [] = [] then [] else [(s.splitOn '\n').getLastD []]

/-- A line of fields. -/
def line (sep : Char) (fs : List Text) : Text := [sep].intercalate fs ++ ['\n']

theorem stripCr_self : stripCr s = s ↔ s.getLast? ≠ some '\r' := by
  rw [stripCr]
  constructor
  · intro h hlast
    rw [if_pos hlast] at h
    have hlen := congrArg length h
    have hne : s ≠ [] := by
      rintro rfl
      exact absurd hlast (by simp)
    have := length_pos_iff.mpr hne
    rw [length_dropLast] at hlen
    omega
  · intro h
    exact if_neg h

theorem mem_of_mem_stripCr (h : c ∈ stripCr s) : c ∈ s := by
  rw [stripCr] at h
  split at h
  · exact mem_of_mem_dropLast h
  · exact h

theorem stripCr_append (hs : s ≠ []) : stripCr (t ++ s) = t ++ stripCr s := by
  have hlast : (t ++ s).getLast? = s.getLast? := getLast?_append_of_ne_nil t hs
  rw [stripCr, stripCr, hlast]
  split
  · exact dropLast_append_of_ne_nil hs
  · rfl

theorem not_mem_of_mem_lines (h : t ∈ lines s) : '\n' ∉ t := by
  intro hc
  rw [lines, mem_append] at h
  rcases h with h | h
  · obtain ⟨u, hu, rfl⟩ := mem_map.mp h
    exact not_mem_splitOn (mem_of_mem_dropLast hu) (mem_of_mem_stripCr hc)
  split at h
  · exact absurd h not_mem_nil
  rw [mem_singleton] at h
  subst h
  have hne : s.splitOn '\n' ≠ [] := splitOnP_ne_nil _ s
  rw [getLastD_eq_getLast?, getLast?_eq_some_getLast hne, Option.getD_some] at hc
  exact not_mem_splitOn (getLast_mem hne) hc

theorem lines_cons (hs : '\n' ∉ s) (t : Text) : lines (s ++ '\n' :: t) = stripCr s :: lines t := by
  have hsplit : (s ++ '\n' :: t).splitOn '\n' = s :: t.splitOn '\n' := by
    rw [splitOn, splitOnP_append_cons s t (by simp), ← splitOn, ← splitOn, splitOn_eq_singleton hs]
    rfl
  obtain ⟨u, us, hu⟩ := exists_cons_of_ne_nil (show t.splitOn '\n' ≠ [] from splitOnP_ne_nil _ t)
  rw [lines, lines, hsplit, hu]
  rfl

@[simp] theorem lines_nil : lines [] = [] := by decide

/-- The lines of a text that was written line by line. -/
theorem lines_flatMap : ∀ {rs : List (List Text)}, (∀ fs ∈ rs, '\n' ∉ [sep].intercalate fs) →
    lines (rs.flatMap (line sep)) = rs.map fun fs => stripCr ([sep].intercalate fs) := by
  intro rs
  induction rs with
  | nil => exact fun _ => lines_nil
  | cons fs rs ih =>
    intro h
    rw [flatMap_cons, line, append_assoc, singleton_append,
      lines_cons (h fs mem_cons_self), ih fun x hx => h x (mem_cons_of_mem fs hx), map_cons]

/-- The fields of a line, the last one without a carriage return at its end. -/
def stripLast : List Text → List Text
  | [] => []
  | [s] => [stripCr s]
  | s :: fs => s :: stripLast fs

theorem stripLast_ne_nil (h : fs ≠ []) : stripLast fs ≠ [] := by
  match fs, h with
  | [s], _ => simp [stripLast]
  | s :: t :: fs, _ => simp [stripLast]

theorem not_mem_stripLast (h : ∀ t ∈ fs, c ∉ t) : ∀ t ∈ stripLast fs, c ∉ t := by
  induction fs with
  | nil => exact h
  | cons s fs ih =>
    cases fs with
    | nil =>
      intro t ht
      rw [stripLast, mem_singleton] at ht
      subst ht
      exact fun hc => h s mem_cons_self (mem_of_mem_stripCr hc)
    | cons u fs =>
      rw [stripLast, forall_mem_cons]
      · exact ⟨h s mem_cons_self, ih fun t ht => h t (mem_cons_of_mem s ht)⟩
      · simp

/-- A carriage return at the end belongs to the last field. -/
theorem stripCr_intercalate (hsep : sep ≠ '\r') (hfs : fs ≠ []) :
    stripCr ([sep].intercalate fs) = [sep].intercalate (stripLast fs) := by
  induction fs with
  | nil => exact absurd rfl hfs
  | cons s fs ih =>
    cases fs with
    | nil => simp [stripLast, intercalate]
    | cons u fs =>
      have hcons : ∀ v vs, [sep].intercalate (s :: v :: vs) = s ++ ([sep] ++ [sep].intercalate (v :: vs)) := by
        intro v vs
        simp [intercalate]
      obtain ⟨v, vs, hv⟩ := exists_cons_of_ne_nil (stripLast_ne_nil (cons_ne_nil u fs))
      have hlast : stripLast (s :: u :: fs) = s :: stripLast (u :: fs) := rfl
      rw [hcons, stripCr_append (by simp), hlast, hv, hcons, ← hv, ← ih (cons_ne_nil u fs)]
      by_cases hnil : [sep].intercalate (u :: fs) = []
      · rw [hnil]
        simp [stripCr, hsep]
      · rw [stripCr_append hnil]

/-- Lines of fields are read back, up to a carriage return at their end. -/
theorem fields_lines (sep : Char) (rs : List (List Text)) (hnl : sep ≠ '\n') (hcr : sep ≠ '\r')
    (h : ∀ fs ∈ rs, fs ≠ [] ∧ ∀ t ∈ fs, sep ∉ t ∧ '\n' ∉ t) :
    (lines (rs.flatMap (line sep))).map (List.splitOn sep) = rs.map stripLast := by
  rw [lines_flatMap, map_map]
  · apply map_congr_left
    intro fs hfs
    obtain ⟨hne, hclean⟩ := h fs hfs
    rw [Function.comp, stripCr_intercalate hcr hne]
    exact splitOn_intercalate sep (not_mem_stripLast fun t ht => (hclean t ht).1) (stripLast_ne_nil hne)
  · intro fs hfs hc
    rcases mem_intercalate hc with hsep | ⟨t, ht, hct⟩
    · exact hnl hsep.symm
    · exact ((h fs hfs).2 t ht).2 hct

def digitChar (d : Nat) : Char := Char.ofNat (0x30 + d)

def decimal (n : Nat) : Text := (digits 10 n).map digitChar

def decimalInt (z : Int) : Text := if z < 0 then '-' :: decimal z.natAbs else decimal z.natAbs

/-- The number that digits stand for after a number read before them, if it is within the
limit at each digit. -/
def readDigits (limit : Nat) : Text → Nat → Option Nat
  | [], v => some v
  | c :: s, v =>
    if c.isDigit ∧ v * 10 + (c.toNat - 0x30) ≤ limit then readDigits limit s (v * 10 + (c.toNat - 0x30))
    else none

/-- An unsigned number: digits after an optional plus. -/
def parseNat (limit : Nat) : Text → Option Nat
  | [] => none
  | '+' :: s => if s = [] then none else readDigits limit s 0
  | s => readDigits limit s 0

/-- A signed number of `w` bits: digits after an optional sign. -/
def parseInt (w : Nat) : Text → Option Int
  | '-' :: s => if s = [] then none else (readDigits (2 ^ (w - 1)) s 0).map fun n : Nat => -(n : Int)
  | s => (parseNat (2 ^ (w - 1) - 1) s).map fun n : Nat => (n : Int)

theorem digitChar_spec : ∀ d < 10, (digitChar d).isDigit = true ∧ (digitChar d).toNat - 0x30 = d := by
  decide

theorem mem_decimal (h : c ∈ decimal n) : ∃ d < 10, c = digitChar d := by
  obtain ⟨d, hd, rfl⟩ := mem_map.mp h
  exact ⟨d, digits_lt (by decide) hd, rfl⟩

theorem decimal_ne_nil : decimal n ≠ [] := by
  rw [decimal, Ne, map_eq_nil_iff]
  exact digits_ne_nil

theorem not_mem_decimal (hc : c.isDigit = false) : c ∉ decimal n := by
  intro h
  obtain ⟨d, hd, rfl⟩ := mem_decimal h
  rw [(digitChar_spec d hd).1] at hc
  exact absurd hc (by decide)

theorem not_mem_decimalInt {z : Int} (hc : c.isDigit = false) (hminus : c ≠ '-') :
    c ∉ decimalInt z := by
  rw [decimalInt]
  split
  · simp [hminus, not_mem_decimal hc]
  · exact not_mem_decimal hc

/-- Digits within the limit are read as their value. -/
theorem readDigits_map (ds : List Nat) : ∀ v, (∀ d ∈ ds, d < 10) → value 10 ds v ≤ limit →
    readDigits limit (ds.map digitChar) v = some (value 10 ds v) := by
  induction ds with
  | nil => exact fun v _ _ => rfl
  | cons d ds ih =>
    intro v hds hv
    have := le_value (b := 10) (by decide) ds (v * 10 + d)
    rw [value_cons] at hv
    obtain ⟨hdigit, hval⟩ := digitChar_spec d (hds d mem_cons_self)
    rw [map_cons, readDigits, hval, if_pos ⟨hdigit, by omega⟩, value_cons]
    exact ih _ (fun x hx => hds x (mem_cons_of_mem d hx)) hv

theorem readDigits_decimal (h : n ≤ limit) : readDigits limit (decimal n) 0 = some n := by
  have hval := value_digits 10 n
  rw [decimal, readDigits_map (digits 10 n) 0 (fun d hd => digits_lt (by decide) hd) (by omega), hval]

theorem exists_decimal (n : Nat) : ∃ c s, decimal n = c :: s ∧ c.isDigit = true := by
  obtain ⟨c, s, hs⟩ := exists_cons_of_ne_nil (decimal_ne_nil)
  obtain ⟨d, hd, rfl⟩ := mem_decimal (hs ▸ mem_cons_self)
  exact ⟨_, s, hs, (digitChar_spec d hd).1⟩

theorem parseNat_decimal (h : n ≤ limit) : parseNat limit (decimal n) = some n := by
  obtain ⟨c, s, hs, hc⟩ := exists_decimal n
  have hplus : c ≠ '+' := by
    rintro rfl
    exact absurd hc (by decide)
  have hread := readDigits_decimal h
  rw [hs] at hread ⊢
  rw [parseNat]
  · exact hread
  · simp
  · intro t ht
    exact hplus (cons.inj ht).1

theorem parseInt_decimalInt {w : Nat} {z : Int} (h1 : -2 ^ (w - 1) ≤ z) (h2 : z < 2 ^ (w - 1)) :
    parseInt w (decimalInt z) = some z := by
  have : ((2 ^ (w - 1) : Nat) : Int) = 2 ^ (w - 1) := by push_cast; rfl
  by_cases hz : z < 0
  · rw [decimalInt, if_pos hz, parseInt, if_neg decimal_ne_nil, readDigits_decimal (by omega), Option.map_some]
    congr 1
    omega
  obtain ⟨c, s, hs, hc⟩ := exists_decimal z.natAbs
  have hminus : c ≠ '-' := by
    rintro rfl
    exact absurd hc (by decide)
  have hread : parseNat (2 ^ (w - 1) - 1) (decimal z.natAbs) = some z.natAbs := parseNat_decimal (by omega)
  rw [decimalInt, if_neg hz]
  rw [hs] at hread ⊢
  rw [parseInt, hread, Option.map_some]
  · congr 1
    omega
  · intro t ht
    exact hminus (cons.inj ht).1

end Fastros.Lib.Texts
