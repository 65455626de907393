import Fastros.Archive.TarPax

/-!
# Headers

A header block is its fields one after another, so each can be cut out again. Its
checksum is accepted, and with the settings of the extended header it gives back the
entry it was written from, as far as the format stores it.
-/

namespace Fastros.Archive.Tar

open List

open Lib.Utf8 (encode)

variable {h : List UInt8} {e : Entry} {path pre : Text} {flag : UInt8} {size a z i : Nat}
  {sum : List UInt8}

/-- A field is found at the sum of the lengths before it. -/
theorem flatten_slice : ∀ (fs : List (List UInt8)) (i : Nat) (f : List UInt8), fs[i]? = some f →
    (fs.flatten.drop ((fs.map length).take i).sum).take f.length = f := by
  intro fs
  induction fs with
  | nil =>
    intro i f hf
    cases hf
  | cons g gs ih =>
    intro i f hf
    cases i with
    | zero =>
      obtain rfl : g = f := by simpa using hf
      simp
    | succ i =>
      have hf' : gs[i]? = some f := by simpa using hf
      rw [map_cons, take_succ_cons, sum_cons, flatten_cons, ← drop_drop, drop_left]
      exact ih i f hf'

variable {back f front : List UInt8}

/-- A field of a block whose fields have the given lengths. -/
theorem field_flatten {fs : List (List UInt8)} {lens : List Nat} (hlens : fs.map length = lens) (hf : fs[i]? = some f) (hlo : (lens.take i).sum = a)
    (hhi : (lens.take (i + 1)).sum = z) : field fs.flatten a z = f := by
  have hslice := flatten_slice fs i f hf
  have hlen : lens[i]? = some f.length := by
    rw [← hlens, getElem?_map, hf]
    rfl
  have : (lens.take (i + 1)).sum = (lens.take i).sum + f.length := by
    rw [take_add_one, hlen, sum_append]
    simp
  rw [hlens, hlo] at hslice
  rw [field, show z - a = f.length by omega]
  exact hslice

theorem getD_field (hlt : a < z) : h.getD a 0 = (field h a z).headD 0 := by
  obtain ⟨n, hn⟩ : ∃ n, z - a = n + 1 := ⟨z - a - 1, by omega⟩
  rw [field, hn, getD_eq_getElem?_getD, ← head?_drop, headD_eq_head?_getD]
  cases h.drop a <;> rfl

theorem mem_of_mem_field {x : UInt8} (hx : x ∈ field h a z) : x ∈ h :=
  mem_of_mem_drop (mem_of_mem_take hx)

def headerLengths : List Nat := [100, 8, 8, 8, 12, 12, 8, 1, 100, 6, 2, 32, 32, 8, 8, 155, 12]

theorem headerFields_lengths (hsum : sum.length = 8) :
    (headerFields e path pre flag size sum).map length = headerLengths := by
  have hmtime : (if 0 ≤ e.mtime then putNum 12 e.mtime.toNat else putZero 12).length = 12 := by
    split
    · exact length_putNum (by decide)
    · rw [putZero_eq (by decide)]
      exact length_putNum (by decide)
  have hdev : ∀ v, (if e.kind = .charDevice ∨ e.kind = .blockDevice then putNum 8 v
      else putZero 8).length = 8 := by
    intro v
    split
    · exact length_putNum (by decide)
    · rw [putZero_eq (by decide)]
      exact length_putNum (by decide)
  have hnum : ∀ {n v}, 2 ≤ n → (putNum n v).length = n := fun hn => length_putNum hn
  simp only [headerFields, map_cons, map_nil, length_putStr, hnum (show 2 ≤ 8 by decide),
    hnum (show 2 ≤ 12 by decide), hmtime, hdev, hsum, length_singleton, length_replicate]
  rfl

theorem headerFields_split (e : Entry) (path pre : Text) (flag : UInt8) (size : Nat) :
    ∃ front back : List UInt8, front.length = 148 ∧ back.length = 356 ∧ ∀ sum : List UInt8,
      (headerFields e path pre flag size sum).flatten = front ++ sum ++ back := by
  have hlens : (headerFields e path pre flag size (replicate 8 0)).map length = headerLengths :=
    headerFields_lengths length_replicate
  refine ⟨((headerFields e path pre flag size []).take 6).flatten,
    ((headerFields e path pre flag size []).drop 7).flatten, ?_, ?_, ?_⟩
  · have htake := congrArg (fun l => (l.take 6).sum) hlens
    rw [length_flatten]
    exact htake
  · have hdrop := congrArg (fun l => (l.drop 7).sum) hlens
    rw [length_flatten]
    exact hdrop
  · intro sum
    simp only [headerFields, take_succ_cons, take_zero, drop_succ_cons, drop_zero,
      flatten_cons, flatten_nil, append_nil, append_assoc]

/-- The checksum does not depend on its own field. -/
theorem checksums_split (hf : front.length = 148) (hsum : sum.length = 8) :
    checksums (front ++ sum ++ back) = checksums (front ++ replicate 8 0 ++ back) := by
  have htake : ∀ s : List UInt8, s.length = 8 → (front ++ s ++ back).take 148 = front := by
    intro s _
    rw [append_assoc, ← hf, take_left]
  have hdrop : ∀ s : List UInt8, s.length = 8 → (front ++ s ++ back).drop 156 = back := by
    intro s hs
    have hlen : (front ++ s).length = 156 := by
      rw [length_append]
      omega
    rw [← hlen, drop_left]
  rw [checksums, checksums, htake sum hsum, hdrop sum hsum, htake _ length_replicate,
    hdrop _ length_replicate]

theorem checksums_lt (hf : front.length = 148) (hb : back.length = 356) :
    (checksums (front ++ replicate 8 0 ++ back)).1 < 8 ^ 6 := by
  have hlen : (((front ++ replicate 8 0 ++ back).take 148 ++ replicate 8 (ascii ' ')
      ++ (front ++ replicate 8 0 ++ back).drop 156).map fun b => b.toNat).length = 512 := by
    simp only [length_map, length_append, length_take, length_drop, length_replicate]
    omega
  have hle := sum_le_card_nsmul (((front ++ replicate 8 0 ++ back).take 148
      ++ replicate 8 (ascii ' ') ++ (front ++ replicate 8 0 ++ back).drop 156).map
        fun b => b.toNat) 255 (by
    intro n hn
    obtain ⟨b, -, rfl⟩ := mem_map.mp hn
    have := b.toNat_lt
    omega)
  rw [hlen] at hle
  exact lt_of_le_of_lt hle (by decide)

theorem length_sumField {v : Nat} (hv : v < 8 ^ 6) : (sumField v).length = 8 := by
  have hfit := Lib.Numeral.length_digits_le (b := 8) (n := v) (k := 6) (by decide) (by decide)
  rw [← length_numeral] at hfit
  rw [sumField, length_append, length_padded (hfit.mpr hv)]
  rfl

/-- A header block is its fields, with a checksum field of eight bytes. -/
theorem headerBlock_eq (e : Entry) (path pre : Text) (flag : UInt8) (size : Nat) :
    ∃ v, v < 8 ^ 6 ∧ headerBlock e path pre flag size = (headerFields e path pre flag size (sumField v)).flatten ∧
      (checksums (headerBlock e path pre flag size)).1 = v := by
  obtain ⟨front, back, hf, hb, hsplit⟩ := headerFields_split e path pre flag size
  have hlt := checksums_lt hf hb
  refine ⟨(checksums (front ++ replicate 8 0 ++ back)).1, hlt, ?_, ?_⟩
  · rw [headerBlock, hsplit (replicate 8 0)]
  · rw [headerBlock, hsplit (replicate 8 0)]
    simp only [hsplit]
    rw [checksums_split hf (length_sumField hlt)]

theorem length_headerBlock : (headerBlock e path pre flag size).length = block := by
  obtain ⟨v, hv, hblock, -⟩ := headerBlock_eq e path pre flag size
  rw [hblock, length_flatten, headerFields_lengths (length_sumField hv)]
  rfl

/-- Every field but the checksum is found in the block. -/
theorem headerBlock_field (hi6 : i ≠ 6)
    (hf : (headerFields e path pre flag size [])[i]? = some f) (hlo : (headerLengths.take i).sum = a)
    (hhi : (headerLengths.take (i + 1)).sum = z) :
    field (headerBlock e path pre flag size) a z = f := by
  obtain ⟨v, hv, hblock, -⟩ := headerBlock_eq e path pre flag size
  rw [hblock]
  refine field_flatten (headerFields_lengths (length_sumField hv)) ?_ hlo hhi
  rw [← hf]
  -- the fields other than the checksum's do not depend on it
  match i, hi6 with
  | 0, _ => rfl
  | 1, _ => rfl
  | 2, _ => rfl
  | 3, _ => rfl
  | 4, _ => rfl
  | 5, _ => rfl
  | n + 7, _ => rfl

/-- A written header has a valid checksum. -/
theorem verifyChecksum_headerBlock : verifyChecksum (headerBlock e path pre flag size) = .ok () := by
  obtain ⟨v, hv, hblock, hsum⟩ := headerBlock_eq e path pre flag size
  have hfield : field (headerBlock e path pre flag size) 148 156 = sumField v := by
    rw [hblock]
    exact field_flatten (headerFields_lengths (length_sumField hv)) (i := 6) rfl (by decide) (by decide)
  rw [verifyChecksum, hfield, sumField, parseNum_padded (by omega) (by decide)]
  simp only [hsum, true_or, if_true]

/-- A header is not taken for the end of the archive. -/
theorem headerBlock_not_zero : (headerBlock e path pre flag size).all (fun b => decide (b = 0)) = false := by
  have hfield : field (headerBlock e path pre flag size) 257 263 = encode ['u', 's', 't', 'a', 'r'] ++ [0] :=
    headerBlock_field (i := 9) (by decide) rfl (by decide) (by decide)
  have hmem : ascii 'u' ∈ headerBlock e path pre flag size := by
    apply mem_of_mem_field
    rw [hfield]
    decide
  rw [Bool.eq_false_iff]
  intro hall
  have h0 := all_eq_true.mp hall _ hmem
  exact absurd h0 (by decide)

theorem headerBlock_flag : (headerBlock e path pre flag size).getD 156 0 = flag := by
  rw [getD_field (z := 157) (by decide),
    headerBlock_field (i := 7) (by decide) rfl (by decide) (by decide)]
  rfl

theorem headerBlock_size (hsize : size < 2 ^ 64) :
    parseNum (field (headerBlock e path pre flag size) 124 136) = .ok size := by
  rw [headerBlock_field (i := 4) (by decide) rfl (by decide) (by decide)]
  exact parseNum_putNum (by decide) hsize (by omega)

end Fastros.Archive.Tar
