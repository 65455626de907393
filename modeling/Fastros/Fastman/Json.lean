import Mathlib

/-!
# The call depth of the JSON parser

`fastman/json.rs` on the stack it is given: `value` calls itself for the elements of arrays
and the members of objects. What the parser builds is left out; a function answers with the
bytes behind what it read.
-/

namespace Fastros.Fastman.Json

open List

/-- The bytes left, `None`, or a call too deep (or a loop out of passes). -/
inductive Outcome where
  | rest (b : List UInt8)
  | fail
  | overflow

def Outcome.andThen (o : Outcome) (f : List UInt8 → Outcome) : Outcome :=
  match o with
  | rest b => f b
  | o => o

def ch (c : Char) : UInt8 := UInt8.ofNat c.toNat

def ws (b : List UInt8) : List UInt8 := b.dropWhile (· ∈ [' ', '\t', '\n', '\r'].map ch)

def lit (word : String) (b : List UInt8) : Outcome :=
  if word.toList.map ch <+: b then .rest (b.drop word.length) else .fail

def number (b : List UInt8) : Outcome :=
  let r := b.dropWhile (· ∈ "0123456789-+.eE".toList.map ch)
  if r.length = b.length then .fail else .rest r

/-- Four bytes that `from_str_radix` reads: a sign may stand in front. -/
def hex (b : List UInt8) : Bool :=
  b.length = 4 && (if b.head? = some (ch '+') then b.tail else b).all
    (· ∈ "0123456789abcdefABCDEF".toList.map ch)

/-- A string behind its opening quote. -/
def string : List UInt8 → Outcome
  | [] => .fail
  | c :: b =>
    if c = ch '"' then .rest b
    else if c = ch '\\' then
      match b with
      | [] => .fail
      | e :: b =>
        if e = ch 'u' then
          match b with
          | h₁ :: h₂ :: h₃ :: h₄ :: b => if hex [h₁, h₂, h₃, h₄] then string b else .fail
          | _ => .fail
        else if e ∈ "\"\\/ntrbf".toList.map ch then string b
        else .fail
    else string b

/-- The loop of `array` and `object`: items up to the closing byte, in `n` passes. -/
def items (close : UInt8) (item : List UInt8 → Outcome) : Nat → List UInt8 → Outcome
  | 0, _ => .overflow
  | n + 1, b => (item b).andThen fun b =>
    match ws b with
    | [] => .fail
    | c :: b => if c = ch ',' then items close item n b else if c = close then .rest b else .fail

/-- `array` and `object` behind their opening byte. -/
def bracketed (close : UInt8) (item : List UInt8 → Outcome) (b : List UInt8) : Outcome :=
  match ws b with
  | [] => items close item 1 []
  | c :: b => if c = close then .rest b else items close item (b.length + 2) (c :: b)

/-- A key, a colon and a value. -/
def member (value : List UInt8 → Outcome) (b : List UInt8) : Outcome :=
  (string ((ws b).drop 1)).andThen fun b =>
    match ws b with
    | [] => .fail
    | c :: b => if c = ch ':' then value b else .fail

/-- `value` where `depth` calls of it may be under way at once. -/
def value : (depth : Nat) → List UInt8 → Outcome
  | 0, _ => .overflow
  | depth + 1, b =>
    match ws b with
    | [] => .fail
    | c :: b =>
      if c = ch '{' then bracketed (ch '}') (member (value depth)) b
      else if c = ch '[' then bracketed (ch ']') (value depth) b
      else if c = ch '"' then string b
      else if c = ch 't' then lit "true" (c :: b)
      else if c = ch 'f' then lit "false" (c :: b)
      else if c = ch 'n' then lit "null" (c :: b)
      else number (c :: b)

/-- `parse`; what follows the value is not looked at. -/
def parse (depth : Nat) (input : List UInt8) : Outcome := (value depth (ws input)).andThen (.rest ∘ ws)

/-- A bracket in front of what is not the closing one: the loop of `array` starts. -/
theorem value_bracket (d : Nat) (b : List UInt8) : value (d + 1) (ch '[' :: ch '[' :: b)
    = items (ch ']') (value d) (b.length + 2) (ch '[' :: b) := by
  rw [value, show ws (ch '[' :: ch '[' :: b) = ch '[' :: ch '[' :: b from rfl]
  dsimp only
  rw [if_neg (by decide), if_pos rfl, bracketed, show ws (ch '[' :: b) = ch '[' :: b from rfl]
  dsimp only
  rw [if_neg (by decide)]

/-- Each opening bracket keeps one more call of `value` under way. -/
theorem value_overflow (b : List UInt8) (d : Nat) :
    value d (List.replicate (d + 1) (ch '[') ++ b) = .overflow := by
  induction d with
  | zero => rfl
  | succ d ih =>
    rw [replicate_succ, replicate_succ, cons_append, cons_append, value_bracket, items,
      ← cons_append, ← replicate_succ, ih]
    rfl

/-- With a call for each bracket and one more they are read. -/
theorem value_accepts (n : Nat) : ∀ b : List UInt8,
    value (n + 1) (List.replicate (n + 1) (ch '[') ++ (List.replicate (n + 1) (ch ']') ++ b)) = .rest b := by
  induction n with
  | zero => exact fun b => rfl
  | succ n ih =>
    intro b
    have hread := ih (ch ']' :: b)
    have hclose : List.replicate (n + 1 + 1) (ch ']') ++ b
        = List.replicate (n + 1) (ch ']') ++ ch ']' :: b := by
      rw [replicate_succ', append_assoc, singleton_append]
    rw [hclose]
    rw [replicate_succ, cons_append] at hread ⊢
    rw [replicate_succ, cons_append, value_bracket, items, hread]
    rfl

/-- **Whatever depth the stack has room for, there is a text that goes deeper, and it is
not refused: with more room it is read.** -/
theorem parse_deeper (depth : Nat) : ∃ input : List UInt8, parse depth input = .overflow ∧
    ∃ more, parse more input = .rest [] := by
  let input := List.replicate (depth + 1) (ch '[') ++ (List.replicate (depth + 1) (ch ']') ++ [])
  have hws : ws input = input := rfl
  refine ⟨input, ?_, depth + 1, ?_⟩
  · rw [parse, hws, value_overflow]
    rfl
  · rw [parse, hws, value_accepts]
    rfl

/-- No depth is enough for every input. -/
theorem parse_unbounded : ¬ ∃ depth, ∀ input : List UInt8, parse depth input ≠ .overflow := by
  rintro ⟨depth, h⟩
  refine h (replicate (depth + 1) (ch '[') ++ []) ?_
  rw [parse, show ws (replicate (depth + 1) (ch '[') ++ []) = replicate (depth + 1) (ch '[') ++ [] from rfl,
    value_overflow]
  rfl

end Fastros.Fastman.Json
