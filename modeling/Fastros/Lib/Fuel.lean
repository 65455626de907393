import Mathlib

/-!
# Computations given fuel

A loop or recursion without an evident bound is modelled with a fuel argument:
`none` says that the fuel ran out. It returns `a` when every large enough supply
of fuel gives `a`.
-/

namespace Fastros.Lib.Fuel

variable {α β : Type}

/-- From some supply of fuel on, the computation returns `a`. -/
def Returns (f : Nat → Option α) (a : α) : Prop := ∃ n, ∀ k, n ≤ k → f k = some a

theorem Returns.const (a : α) : Returns (fun _ => some a) a := ⟨0, fun _ _ => rfl⟩

variable {f : Nat → Option α} {a : α}

theorem Returns.congr {g : Nat → Option α} (h : Returns f a) (he : ∀ k, f k = g k) :
    Returns g a := by
  obtain ⟨n, hn⟩ := h
  exact ⟨n, fun k hk => by rw [← he k]; exact hn k hk⟩

/-- A computation that passes on what is left of its fuel after one step. -/
theorem Returns.succ {g : Nat → Option α} (h : Returns f a)
    (he : ∀ k, g (k + 1) = f k) : Returns g a := by
  obtain ⟨n, hn⟩ := h
  refine ⟨n + 1, fun k hk => ?_⟩
  obtain ⟨j, rfl⟩ : ∃ j, k = j + 1 := ⟨k - 1, by omega⟩
  rw [he j]
  exact hn j (by omega)

/-- The second computation starts from what the first returned. -/
theorem Returns.bind {g : α → Nat → Option β} {b : β}
    (hf : Returns f a) (hg : Returns (g a) b) : Returns (fun k => (f k).bind fun x => g x k) b := by
  obtain ⟨n, hn⟩ := hf
  obtain ⟨m, hm⟩ := hg
  refine ⟨n + m, fun k hk => ?_⟩
  have h1 := hn k (by omega)
  have h2 := hm k (by omega)
  show ((f k).bind fun x => g x k) = some b
  rw [h1, Option.bind_some, h2]

/-- A computation that never has enough fuel returns nothing. -/
theorem not_returns (h : ∀ k, f k = none) (a : α) : ¬ Returns f a := by
  rintro ⟨n, hn⟩
  have h1 := hn n (Nat.le_refl n)
  rw [h n] at h1
  cases h1

end Fastros.Lib.Fuel
