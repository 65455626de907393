import Mathlib

/-!
# Byte streams

`lib/archive/src/lib.rs`: the errors of archive operations and the reading of a
source. A source gives at least one byte of what is left to each read and at most
what was asked for; how much, it decides anew each time.
-/

namespace Fastros.Archive

inductive Error where
  | io (text : String)
  | unexpectedEof
  | badMagic
  | corrupt (text : String)
  | checksum (expected actual : Nat)
  | length
  | unsupported (text : String)
  | tooLarge (text : String)
  deriving DecidableEq, Repr

/-- How a call ends without an answer: with an error, in a panic (arithmetic that
overflows, an index out of range), or not at all. -/
inductive Stop where
  | error (e : Error)
  | panic
  | endless
  deriving DecidableEq, Repr

structure Source where
  data : List UInt8
  hints : Nat → Nat
  reads : Nat

namespace Source

/-- Read up to `k` bytes. -/
def read (k : Nat) (s : Source) : List UInt8 × Source :=
  let n := min (min k s.data.length) (max 1 (s.hints s.reads))
  (s.data.take n, { s with data := s.data.drop n, reads := s.reads + 1 })

/-- The loop of `read_exact` and `read_full`: read until there are `k` bytes, or the
data ends. Each round reads a byte, so `k` rounds are enough. -/
def fill : (rounds k : Nat) → Source → List UInt8 × Source
  | 0, _, s => ([], s)
  | rounds + 1, k, s =>
    if k = 0 then ([], s)
    else
      let (got, s) := s.read k
      if got = [] then ([], s)
      else
        let (more, s) := s.fill rounds (k - got.length)
        (got ++ more, s)

theorem read_spec (s : Source) {k : Nat} (hk : 0 < k) :
    ∃ n, n ≤ k ∧ n ≤ s.data.length ∧ (s.data ≠ [] → 0 < n) ∧
      s.read k = (s.data.take n, { s with data := s.data.drop n, reads := s.reads + 1 }) := by
  refine ⟨min (min k s.data.length) (max 1 (s.hints s.reads)), by omega, by omega, ?_, rfl⟩
  intro hne
  have := List.length_pos_iff.mpr hne
  omega

/-- Filling a buffer takes bytes until it is full or nothing is left. -/
theorem fill_spec : ∀ (rounds : Nat) {k : Nat} (s : Source), k ≤ rounds →
    ∃ reads, s.fill rounds k = (s.data.take k, { s with data := s.data.drop k, reads := reads }) := by
  intro rounds
  induction rounds with
  | zero =>
    intro k s hk
    obtain rfl : k = 0 := by omega
    exact ⟨s.reads, by simp [fill]⟩
  | succ rounds ih =>
    intro k s hk
    by_cases hk0 : k = 0
    · subst hk0
      exact ⟨s.reads, by simp [fill]⟩
    obtain ⟨n, hnk, hnl, hpos, hread⟩ := s.read_spec (Nat.pos_of_ne_zero hk0)
    rw [fill, if_neg hk0, hread]
    by_cases hdata : s.data = []
    · exact ⟨s.reads + 1, by simp [hdata]⟩
    have hn := hpos hdata
    have hlen : (s.data.take n).length = n := by rw [List.length_take]; omega
    have hne : s.data.take n ≠ [] := by
      rw [← List.length_pos_iff]
      omega
    obtain ⟨reads, hfill⟩ := ih { s with data := s.data.drop n, reads := s.reads + 1 }
      (show k - n ≤ rounds by omega)
    have htake : s.data.take n ++ (s.data.drop n).take (k - n) = s.data.take k := by
      rw [← List.take_add, Nat.add_sub_cancel' hnk]
    have hdrop : (s.data.drop n).drop (k - n) = s.data.drop k := by
      rw [List.drop_drop, Nat.add_sub_cancel' hnk]
    refine ⟨reads, ?_⟩
    simp only [if_neg hne, hlen, hfill, htake, hdrop]

end Source

end Fastros.Archive
