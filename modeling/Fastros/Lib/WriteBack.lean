import Mathlib

/-!
# Write-back caches

A cache holds lines of a store. What a reader sees of a key is its line if there
is one and the store otherwise. As long as every clean line agrees with the store,
fetching a line, dropping a clean one and writing one back change nothing that can
be seen, and after everything was written back the store is what is seen.
-/

namespace Fastros.Lib.WriteBack

structure Line (δ : Type) where
  data : δ
  dirty : Bool

variable {κ δ : Type}

/-- What is seen through the cache. -/
def view (lines : κ → Option (Line δ)) (store : κ → δ) (k : κ) : δ :=
  match lines k with
  | some l => l.data
  | none => store k

/-- Clean lines agree with the store. -/
def Coherent (lines : κ → Option (Line δ)) (store : κ → δ) : Prop :=
  ∀ k l, lines k = some l → l.dirty = false → l.data = store k

/-- What may become of one key behind the reader's back. -/
inductive Moved : Option (Line δ) → δ → Option (Line δ) → δ → Prop
  | same (l : Option (Line δ)) (d : δ) : Moved l d l d
  | fetched (d : δ) : Moved none d (some ⟨d, false⟩) d
  | dropped (l : Line δ) (d : δ) (h : l.dirty = false) : Moved (some l) d none d
  | written (l : Line δ) (d : δ) : Moved (some l) d (some ⟨l.data, false⟩) l.data

variable {lines lines' : κ → Option (Line δ)} {store store' : κ → δ}

theorem Moved.coherent (h : ∀ k, Moved (lines k) (store k) (lines' k) (store' k))
    (hc : Coherent lines store) : Coherent lines' store' := by
  intro k l hl hd
  have hk := h k
  rw [hl] at hk
  generalize hline : lines k = line at hk
  generalize hstore : store k = s at hk
  generalize store' k = s' at hk ⊢
  cases hk with
  | same => rw [← hstore]; exact hc k l hline hd
  | fetched => rfl
  | written => rfl

theorem Moved.view_eq (h : ∀ k, Moved (lines k) (store k) (lines' k) (store' k))
    (hc : Coherent lines store) : view lines' store' = view lines store := by
  funext k
  have hk := h k
  unfold view
  generalize hline : lines k = line at hk ⊢
  generalize hstore : store k = s at hk ⊢
  generalize lines' k = line' at hk ⊢
  generalize store' k = s' at hk ⊢
  cases hk with
  | same => rfl
  | fetched => rfl
  | dropped l _ hd =>
    rw [← hstore]
    exact (hc k l hline hd).symm
  | written => rfl

theorem coherent_update [DecidableEq κ] {k : κ} {d : δ}
    (h : ∀ k', lines' k' = if k' = k then some ⟨d, true⟩ else lines k')
    (hc : Coherent lines store) : Coherent lines' store := by
  intro k' l hl hd
  rw [h] at hl
  split at hl
  · cases hl
    cases hd
  · exact hc k' l hl hd

theorem view_update [DecidableEq κ] {k : κ} {d : δ}
    (h : ∀ k', lines' k' = if k' = k then some ⟨d, true⟩ else lines k') :
    view lines' store = Function.update (view lines store) k d := by
  funext k'
  by_cases hk : k' = k
  · simp [view, h, hk]
  · simp [view, h, hk]

theorem view_of_clean (hc : Coherent lines store) (h : ∀ k l, lines k = some l → l.dirty = false) :
    view lines store = store := by
  funext k
  unfold view
  cases hl : lines k with
  | none => rfl
  | some l => exact hc k l hl (h k l hl)

end Fastros.Lib.WriteBack
