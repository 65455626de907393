import Mathlib

/-!
# Bodies of here-documents

`parse_heredoc` reads a body up to its end. A `$` or a backquote goes to a reader of
its own, which may fail; wherever it has come to by then, one more character is
skipped and the body is read on from there. The general reader of words, which the
operators of a braced parameter call, is left open.
-/

namespace Fastros.Heredoc

open List

/-- `read_word_until`: a word up to one of the given characters, and what is left. The
reader only moves forward. -/
structure WordReader (ω : Type) where
  read : List Char → List Char → Option ω × List Char
  suffix : ∀ stop rest, (read stop rest).2 <:+ rest

/-- The replacement of `replace` is missing where the source takes the empty word. -/
inductive ParamOp (ω : Type) where
  | plain
  | length
  | default (word : ω) (colon : Bool)
  | assign (word : ω) (colon : Bool)
  | error (word : ω) (colon : Bool)
  | alternate (word : ω) (colon : Bool)
  | trimSuffix (pattern : ω) (longest : Bool)
  | trimPrefix (pattern : ω) (longest : Bool)
  | replace (pattern : ω) (replacement : Option ω) (all : Bool)
  | substring (offset : List Char) (length : Option (List Char))
  | letterCase (upper all : Bool)
  deriving DecidableEq

inductive WordPart (ω : Type) where
  | lit (text : List Char)
  | quoted (text : List Char)
  | param (name : List Char) (op : ParamOp ω)
  | command (src : List Char)
  | arith (src : List Char)
  deriving DecidableEq

def backquote : Char := Char.ofNat 96
def singleQuote : Char := Char.ofNat 39
def doubleQuote : Char := Char.ofNat 34
def closingBrace : Char := Char.ofNat 125

/-- The characters that start an expansion. -/
def opening : List Char := ['$', backquote]

/-- Those that a backslash escapes. -/
def escapable : List Char := opening ++ ['\\', '\n']

abbrev Escapes (c : Char) (rest : List Char) : Prop := c = '\\' ∧ ∃ d ∈ rest.head?, d ∈ escapable

/-- `read_backtick` behind the backquote, with the command read so far. -/
def readBacktick : (rest src : List Char) → Option (List Char) × List Char
  | [], _ => (none, [])
  | c :: rest, src =>
    if c = backquote then (some src, rest)
    else if c = '\\' then
      match rest with
      | [] => (none, [])
      | d :: rest => readBacktick rest (if d ∈ opening ++ ['\\'] then src ++ [d] else src ++ ['\\', d])
    else readBacktick rest (src ++ [c])

/-- The expression of `$((...))`, behind the opening. -/
def readArith : (depth : Nat) → (rest src : List Char) → Option (List Char) × List Char
  | _, [], _ => (none, [])
  | depth, c :: rest, src =>
    if c = '(' then readArith (depth + 1) rest (src ++ [c])
    else if c = ')' then
      match depth with
      | 0 => (if rest.head? = some ')' then some src else none, rest.tail)
      | depth + 1 => readArith depth rest (src ++ [c])
    else readArith depth rest (src ++ [c])

/-- Inside which quotes `read_balanced` is. -/
inductive Quotes where
  | outside
  | single
  | double
  deriving DecidableEq

def Quotes.after (q : Quotes) (c : Char) : Quotes :=
  match q with
  | .outside => if c = singleQuote then .single else if c = doubleQuote then .double else .outside
  | .single => if c = singleQuote then .outside else .single
  | .double => if c = doubleQuote then .outside else .double

/-- `read_balanced`: the source of `$(...)` up to the matching bracket. -/
def readBalanced : (q : Quotes) → (depth : Nat) → (rest src : List Char) →
    Option (List Char) × List Char
  | _, _, [], _ => (none, [])
  | q, depth, c :: rest, src =>
    if q = .outside ∧ c = ')' ∧ depth = 0 then (some src, rest)
    else if q ≠ .single ∧ c = '\\' then
      match rest with
      | [] => (none, [])
      | d :: rest => readBalanced q depth rest (src ++ [c, d])
    else
      let depth := if q = .outside ∧ c = '(' then depth + 1
        else if q = .outside ∧ c = ')' then depth - 1 else depth
      readBalanced (q.after c) depth rest (src ++ [c])

def isSpecial (c : Char) : Bool := c ∈ ['?', '$', '#', '!', '@', '*', '-']

def isNameChar (c : Char) : Bool := c = '_' || c.isAlphanum

def nameOf (c : Char) (rest : List Char) : List Char × List Char :=
  (c :: rest.takeWhile isNameChar, rest.dropWhile isNameChar)

def readParamName : List Char → Option (List Char) × List Char
  | [] => (none, [])
  | c :: rest =>
    if isSpecial c then (some [c], rest)
    else if c.isDigit then (some (c :: rest.takeWhile Char.isDigit), rest.dropWhile Char.isDigit)
    else if c = '_' ∨ c.isAlpha then (some (nameOf c rest).1, (nameOf c rest).2)
    else (none, c :: rest)

def eat (c : Char) : List Char → Bool × List Char
  | [] => (false, [])
  | d :: rest => if d = c then (true, rest) else (false, d :: rest)

variable {ω : Type} (w : WordReader ω)

def readOperand (stop : List Char) (op : ω → ParamOp ω) (rest : List Char) :
    Option (ParamOp ω) × List Char :=
  ((w.read stop rest).1.map op, (w.read stop rest).2)

/-- The operators of `colon_ops`. -/
def colonOp (c : Char) : Option (ω → Bool → ParamOp ω) :=
  if c = '-' then some .default
  else if c = '=' then some .assign
  else if c = '?' then some .error
  else if c = '+' then some .alternate
  else none

def readSubstring (rest : List Char) : Option (ParamOp ω) × List Char :=
  let offset := rest.takeWhile fun c => c ≠ ':' ∧ c ≠ closingBrace
  let (more, rest) := eat ':' (rest.dropWhile fun c => c ≠ ':' ∧ c ≠ closingBrace)
  if more then
    (some (.substring offset (some (rest.takeWhile (· ≠ closingBrace)))),
      rest.dropWhile (· ≠ closingBrace))
  else (some (.substring offset none), rest)

def readReplace (all : Bool) (rest : List Char) : Option (ParamOp ω) × List Char :=
  match w.read ['/', closingBrace] rest with
  | (none, rest) => (none, rest)
  | (some pattern, rest) =>
    let (slash, rest) := eat '/' rest
    if slash then readOperand w [closingBrace] (fun word => .replace pattern (some word) all) rest
    else (some (.replace pattern none all), rest)

/-- The operator of a braced parameter, behind its name. -/
def readOp : List Char → Option (ParamOp ω) × List Char
  | [] => (none, [])
  | c :: rest =>
    if c = closingBrace then (some .plain, c :: rest)
    else if c = ':' then
      match rest.head?.bind colonOp with
      | some op => readOperand w [closingBrace] (op · true) rest.tail
      | none => readSubstring rest
    else
      match colonOp c with
      | some op => readOperand w [closingBrace] (op · false) rest
      | none =>
        if c = '%' then
          readOperand w [closingBrace] (.trimSuffix · (eat '%' rest).1) (eat '%' rest).2
        else if c = '#' then
          readOperand w [closingBrace] (.trimPrefix · (eat '#' rest).1) (eat '#' rest).2
        else if c = '/' then readReplace w (eat '/' rest).1 (eat '/' rest).2
        else if c = '^' then (some (.letterCase true (eat '^' rest).1), (eat '^' rest).2)
        else if c = ',' then (some (.letterCase false (eat ',' rest).1), (eat ',' rest).2)
        else (none, c :: rest)

def closeBrace (part : WordPart ω) (rest : List Char) : Option (WordPart ω) × List Char :=
  (if (eat closingBrace rest).1 then some part else none, (eat closingBrace rest).2)

def readBraceParam (rest : List Char) : Option (WordPart ω) × List Char :=
  if rest.head? = some '#' ∧ ∃ d ∈ rest.tail.head?, d ≠ closingBrace then
    match readParamName rest.tail with
    | (none, rest) => (none, rest)
    | (some name, rest) => closeBrace (.param name .length) rest
  else
    match readParamName rest with
    | (none, rest) => (none, rest)
    | (some name, rest) =>
      match readOp w rest with
      | (none, rest) => (none, rest)
      | (some op, rest) => closeBrace (.param name op) rest

/-- `read_dollar` behind the `$`. -/
def readDollar : List Char → Option (WordPart ω) × List Char
  | [] => (some (.lit ['$']), [])
  | c :: rest =>
    if c = Char.ofNat 123 then readBraceParam w rest
    else if c = '(' then
      if rest.head? = some '(' then
        ((readArith 0 rest.tail []).1.map .arith, (readArith 0 rest.tail []).2)
      else ((readBalanced .outside 0 rest []).1.map .command, (readBalanced .outside 0 rest []).2)
    else if isSpecial c ∨ c.isDigit then (some (.param [c] .plain), rest)
    else if c = '_' ∨ c.isAlpha then (some (.param (nameOf c rest).1 .plain), (nameOf c rest).2)
    else (some (.lit ['$']), c :: rest)

def read (c : Char) (rest : List Char) : Option (WordPart ω) × List Char :=
  if c = '$' then readDollar w rest
  else ((readBacktick rest []).1.map .command, (readBacktick rest []).2)

/-- A part of the word, with the text of the body that it stands for. -/
structure Piece (ω : Type) where
  part : WordPart ω
  source : List Char
  deriving DecidableEq

def flush (lit : List Char) (parts : List (Piece ω)) : List (Piece ω) :=
  if lit = [] then parts else parts ++ [⟨.quoted lit, lit⟩]

/-- What lies between a position and a later one. -/
def passed (rest rest' : List Char) : List Char := rest.take (rest.length - rest'.length)

/-- The loop over the rest of the body, with `n` rounds left. -/
def loop : (n : Nat) → (parts : List (Piece ω)) → (lit rest : List Char) → Option (List (Piece ω))
  | 0, _, _, _ => none
  | _ + 1, parts, lit, [] => some (flush lit parts)
  | n + 1, parts, lit, c :: rest =>
    if Escapes c rest then
      let d := rest.headD '\\'
      loop n parts (if d ≠ '\n' then lit ++ [d] else lit) rest.tail
    else if c ∈ opening then
      match read w c rest with
      | (some part, rest') => loop n (flush lit parts ++ [⟨part, c :: passed rest rest'⟩]) [] rest'
      | (none, rest') => loop n (flush lit parts) [c] rest'.tail
    else loop n parts (lit ++ [c]) rest

/-- The parts inside the one `Double` part of the word. -/
def parseHeredoc (body : List Char) : Option (List (Piece ω)) := loop w (body.length + 1) [] [] body

def text (parts : List (Piece ω)) : List Char := parts.flatMap Piece.source

/-- `t` is what is to be kept of the rest of a body: expansions as they stand, and those
that cannot be read literally. -/
inductive Kept : List Char → List Char → Prop
  | done : Kept [] []
  | escaped {d rest t} : d ∈ escapable → Kept rest t →
      Kept ('\\' :: d :: rest) ((if d ≠ '\n' then [d] else []) ++ t)
  | expansion {c part rest rest' t} : c ∈ opening → read w c rest = (some part, rest') →
      Kept rest' t → Kept (c :: rest) (c :: passed rest rest' ++ t)
  | malformed {c rest rest' t} : c ∈ opening → read w c rest = (none, rest') → Kept rest t →
      Kept (c :: rest) (c :: t)
  | plain {c rest t} : c ∉ opening → ¬ Escapes c rest →
      Kept rest t → Kept (c :: rest) (c :: t)

/-- Nothing but line continuations. -/
inductive Continued : List Char → Prop
  | nil : Continued []
  | pair {rest} : Continued rest → Continued ('\\' :: '\n' :: rest)

/-- Every expansion that is come to can be read; the last one may be a backquote that only
line continuations follow. -/
inductive Readable : List Char → Prop
  | done : Readable []
  | escaped {d rest} : d ∈ escapable → Readable rest → Readable ('\\' :: d :: rest)
  | expansion {c part rest rest'} : c ∈ opening → read w c rest = (some part, rest') →
      Readable rest' → Readable (c :: rest)
  | unclosed {rest} : (readBacktick rest []).1 = none → Continued rest → Readable (backquote :: rest)
  | plain {c rest} : c ∉ opening → ¬ Escapes c rest →
      Readable rest → Readable (c :: rest)

variable {w}

theorem readBacktick_suffix (rest src : List Char) : (readBacktick rest src).2 <:+ rest := by
  fun_induction readBacktick rest src <;> grind [suffix_cons, IsSuffix.trans]

/-- An unclosed backquote is noticed at the end of the body. -/
theorem readBacktick_none (rest src : List Char) (h : (readBacktick rest src).1 = none) :
    (readBacktick rest src).2 = [] := by
  fun_induction readBacktick rest src <;> grind

theorem readArith_suffix (depth : Nat) (rest src : List Char) :
    (readArith depth rest src).2 <:+ rest := by
  fun_induction readArith depth rest src <;> grind [suffix_cons, IsSuffix.trans, tail_suffix]

theorem readBalanced_suffix (q : Quotes) (depth : Nat) (rest src : List Char) :
    (readBalanced q depth rest src).2 <:+ rest := by
  fun_induction readBalanced q depth rest src <;> grind [suffix_cons, IsSuffix.trans]

theorem eat_suffix (c : Char) (rest : List Char) : (eat c rest).2 <:+ rest := by
  cases rest with
  | nil => exact suffix_rfl
  | cons d rest =>
    rw [eat]
    split_ifs
    · exact suffix_cons d rest
    · exact suffix_rfl

theorem readParamName_suffix (rest : List Char) : (readParamName rest).2 <:+ rest := by
  cases rest with
  | nil => exact suffix_rfl
  | cons c rest =>
    have hstep := suffix_cons c rest
    rw [readParamName]
    split_ifs
    · exact hstep
    · exact (dropWhile_suffix _).trans hstep
    · exact (dropWhile_suffix _).trans hstep
    · exact suffix_rfl

theorem readSubstring_suffix (rest : List Char) : (readSubstring rest : Option (ParamOp ω) × List Char).2 <:+ rest := by
  unfold readSubstring
  have hdrop := dropWhile_suffix (l := rest) fun c => decide (c ≠ ':' ∧ c ≠ closingBrace)
  have heat := (eat_suffix ':' _).trans hdrop
  dsimp only
  split
  · exact (dropWhile_suffix _).trans heat
  · exact heat

theorem readReplace_suffix (all : Bool) (rest : List Char) : (readReplace w all rest).2 <:+ rest := by
  have hread := w.suffix ['/', closingBrace] rest
  unfold readReplace
  split
  · next h => rwa [h] at hread
  · next h =>
    rw [h] at hread
    have heat := (eat_suffix '/' _).trans hread
    dsimp only
    split
    · exact (w.suffix _ _).trans heat
    · exact heat

theorem readOp_suffix (rest : List Char) : (readOp w rest).2 <:+ rest := by
  cases rest with
  | nil => exact suffix_rfl
  | cons c rest =>
    have hstep := suffix_cons c rest
    have heat : ∀ d, (eat d rest).2 <:+ c :: rest := fun d => (eat_suffix d rest).trans hstep
    rw [readOp]
    by_cases hclose : c = closingBrace
    · rw [if_pos hclose]
    by_cases hcolon : c = ':'
    · rw [if_neg hclose, if_pos hcolon]
      split
      · exact (w.suffix _ _).trans ((tail_suffix rest).trans hstep)
      · exact (readSubstring_suffix rest).trans hstep
    rw [if_neg hclose, if_neg hcolon]
    split
    · exact (w.suffix _ _).trans hstep
    · split_ifs
      · exact (w.suffix _ _).trans (heat _)
      · exact (w.suffix _ _).trans (heat _)
      · exact (readReplace_suffix _ _).trans (heat _)
      · exact heat _
      · exact heat _
      · exact suffix_rfl

theorem readBraceParam_suffix (rest : List Char) : (readBraceParam w rest).2 <:+ rest := by
  unfold readBraceParam
  split_ifs
  · have hname := (readParamName_suffix rest.tail).trans (tail_suffix rest)
    split
    · next h => rwa [h] at hname
    · next h =>
      rw [h] at hname
      exact (eat_suffix _ _).trans hname
  · have hname := readParamName_suffix rest
    split
    · next h => rwa [h] at hname
    · next rest₁ h =>
      rw [h] at hname
      have hop := (readOp_suffix (w := w) rest₁).trans hname
      split
      · next h => rwa [h] at hop
      · next h =>
        rw [h] at hop
        exact (eat_suffix _ _).trans hop

theorem readDollar_suffix (rest : List Char) : (readDollar w rest).2 <:+ rest := by
  cases rest with
  | nil => exact suffix_rfl
  | cons c rest =>
    have hstep := suffix_cons c rest
    rw [readDollar]
    split_ifs
    · exact (readBraceParam_suffix rest).trans hstep
    · exact (readArith_suffix _ _ _).trans ((tail_suffix rest).trans hstep)
    · exact (readBalanced_suffix _ _ _ _).trans hstep
    · exact hstep
    · exact (dropWhile_suffix _).trans hstep
    · exact suffix_rfl

theorem read_suffix {c : Char} {part : Option (WordPart ω)} {rest rest' : List Char}
    (h : read w c rest = (part, rest')) : rest' <:+ rest := by
  have hrest : (read w c rest).2 = rest' := by rw [h]
  rw [← hrest]
  unfold read
  split_ifs
  · exact readDollar_suffix rest
  · exact readBacktick_suffix rest []

theorem passed_append {rest rest' : List Char} (h : rest' <:+ rest) : passed rest rest' ++ rest' = rest := by
  obtain ⟨pre, rfl⟩ := h
  simp [passed]

/-- A `$` that cannot be read has an opening bracket behind it, which the reader passes. -/
theorem readDollar_none {rest rest' : List Char} (h : readDollar w rest = (none, rest')) :
    ∃ a r, rest = a :: r ∧ a ≠ '\\' ∧ a ≠ '\n' ∧ rest' <:+ r := by
  cases rest with
  | nil => cases h
  | cons c r =>
    have hrest : (readDollar w (c :: r)).2 = rest' := by rw [h]
    have hnone : (readDollar w (c :: r)).1 = none := by rw [h]
    rw [readDollar] at hrest hnone
    split_ifs at hrest hnone with h1 h2 h3
    · subst h1
      exact ⟨_, r, rfl, by decide, by decide, hrest ▸ readBraceParam_suffix r⟩
    · subst h2
      exact ⟨_, r, rfl, by decide, by decide,
        hrest ▸ (readArith_suffix _ _ _).trans (tail_suffix r)⟩
    · subst h2
      exact ⟨_, r, rfl, by decide, by decide, hrest ▸ readBalanced_suffix _ _ _ _⟩

/-- Only backslashes and newlines are dropped from what is to be kept. -/
theorem Kept.count {rest t : List Char} (h : Kept w rest t) {a : Char} (ha : a ≠ '\\') (hn : a ≠ '\n') :
    t.count a = rest.count a := by
  induction h with
  | done => rfl
  | @escaped d rest t hd _ ih =>
    rw [count_append, count_cons_of_ne ha.symm, count_cons, ih]
    by_cases hnl : d = '\n'
    · simp [hnl, hn.symm]
    · simp [hnl, count_cons, Nat.add_comm]
  | @expansion c part rest rest' t hc hread _ ih =>
    rw [cons_append, count_cons, count_cons, count_append, ih, ← count_append,
      passed_append (read_suffix hread)]
  | malformed hc hread _ ih => rw [count_cons, count_cons, ih]
  | plain hc he _ ih => rw [count_cons, count_cons, ih]

theorem kept_nil_iff {rest : List Char} : Kept w rest [] ↔ Continued rest := by
  constructor
  · intro h
    generalize ht : ([] : List Char) = t at h
    induction h with
    | done => exact .nil
    | @escaped d rest t hd _ ih =>
      by_cases hnl : d = '\n'
      · subst hnl
        exact .pair (ih (by simpa using ht))
      · simp [hnl] at ht
    | expansion | malformed | plain => cases ht
  · intro h
    induction h with
    | nil => exact .done
    | pair _ ih => exact .escaped (by decide) ih

theorem backslash_not_opening : '\\' ∉ opening := by decide

theorem kept_escaped_iff {d : Char} {rest t : List Char} (hd : d ∈ escapable) :
    Kept w ('\\' :: d :: rest) ((if d ≠ '\n' then [d] else []) ++ t) ↔ Kept w rest t := by
  refine ⟨fun h => ?_, .escaped hd⟩
  generalize hu : (if d ≠ '\n' then [d] else []) ++ t = u at h
  cases h with
  | escaped _ h => rwa [append_cancel_left hu]
  | expansion hc | malformed hc => exact absurd hc backslash_not_opening
  | plain _ he => exact absurd ⟨rfl, d, rfl, hd⟩ he

theorem readable_escaped_iff {d : Char} {rest : List Char} (hd : d ∈ escapable) :
    Readable w ('\\' :: d :: rest) ↔ Readable w rest := by
  refine ⟨fun h => ?_, .escaped hd⟩
  cases h with
  | escaped _ h => exact h
  | expansion hc => exact absurd hc backslash_not_opening
  | plain _ he => exact absurd ⟨rfl, d, rfl, hd⟩ he

section Opening

variable {c : Char} {part : WordPart ω} {rest rest' t : List Char} (hc : c ∈ opening)
include hc

theorem kept_expansion_iff (hread : read w c rest = (some part, rest')) :
    Kept w (c :: rest) (c :: passed rest rest' ++ t) ↔ Kept w rest' t := by
  refine ⟨fun h => ?_, .expansion hc hread⟩
  generalize hu : c :: passed rest rest' ++ t = u at h
  cases h with
  | escaped => exact absurd hc backslash_not_opening
  | expansion _ hread' h =>
    rw [hread] at hread'
    cases hread'
    rwa [append_cancel_left hu]
  | malformed _ hread' =>
    rw [hread] at hread'
    cases hread'
  | plain hn => exact absurd hc hn

theorem kept_malformed_iff (hread : read w c rest = (none, rest')) :
    Kept w (c :: rest) (c :: t) ↔ Kept w rest t := by
  refine ⟨fun h => ?_, .malformed hc hread⟩
  generalize hu : c :: t = u at h
  cases h with
  | escaped => exact absurd hc backslash_not_opening
  | expansion _ hread' =>
    rw [hread] at hread'
    cases hread'
  | malformed _ _ h =>
    cases hu
    exact h
  | plain hn => exact absurd hc hn

theorem readable_expansion_iff (hread : read w c rest = (some part, rest')) :
    Readable w (c :: rest) ↔ Readable w rest' := by
  refine ⟨fun h => ?_, .expansion hc hread⟩
  cases h with
  | escaped => exact absurd hc backslash_not_opening
  | expansion _ hread' h =>
    rw [hread] at hread'
    cases hread'
    exact h
  | unclosed hnone =>
    have := congrArg Prod.fst hread
    simp [read, backquote, hnone] at this
  | plain hn => exact absurd hc hn

end Opening

theorem kept_plain_iff {c : Char} {rest t : List Char} (hc : c ∉ opening)
    (he : ¬ Escapes c rest) :
    Kept w (c :: rest) (c :: t) ↔ Kept w rest t := by
  refine ⟨fun h => ?_, .plain hc he⟩
  generalize hu : c :: t = u at h
  cases h with
  | escaped hd => exact absurd ⟨rfl, _, rfl, hd⟩ he
  | expansion hc' | malformed hc' => exact absurd hc' hc
  | plain _ _ h =>
    cases hu
    exact h

theorem readable_plain_iff {c : Char} {rest : List Char} (hc : c ∉ opening)
    (he : ¬ Escapes c rest) :
    Readable w (c :: rest) ↔ Readable w rest := by
  refine ⟨fun h => ?_, .plain hc he⟩
  cases h with
  | escaped hd => exact absurd ⟨rfl, _, rfl, hd⟩ he
  | expansion hc' => exact absurd hc' hc
  | unclosed => exact absurd (by decide) hc
  | plain _ _ h => exact h

/-- Where a reader has failed, the text behind it is lost: a bracket after a `$`, and
after a backquote everything. -/
theorem malformed_iff {c : Char} {rest rest' t : List Char} (hc : c ∈ opening)
    (hread : read w c rest = (none, rest')) (hcount : ∀ a, t.count a ≤ rest'.tail.count a) :
    Kept w (c :: rest) (c :: t) ↔ Readable w (c :: rest) := by
  rw [kept_malformed_iff hc hread]
  by_cases hd : c = '$'
  · subst hd
    have hfail : readDollar w rest = (none, rest') := hread
    obtain ⟨a, r, rfl, ha, hn, hsuf⟩ := readDollar_none hfail
    constructor
    · intro h
      have hsame := h.count ha hn
      have htail := ((tail_suffix rest').trans hsuf).sublist.count_le a
      have hle := hcount a
      rw [count_cons_self] at hsame
      omega
    · intro h
      cases h with
      | expansion _ hread' =>
        rw [hread] at hread'
        cases hread'
      | plain hn => exact absurd hc hn
  · have hb : c = backquote := by
      simp only [opening, mem_cons, not_mem_nil, or_false] at hc
      exact hc.resolve_left hd
    subst hb
    have hnone : (readBacktick rest []).1 = none := by
      have := congrArg Prod.fst hread
      simpa [read, hd] using this
    have hend : rest' = [] := by
      have hrest : (read w backquote rest).2 = rest' := by rw [hread]
      rw [← hrest, read, if_neg hd]
      exact readBacktick_none rest [] hnone
    have ht : t = [] := by
      apply eq_nil_iff_forall_not_mem.mpr
      intro a ha
      have := count_pos_iff.mpr ha
      have := hcount a
      simp [hend] at this
      omega
    rw [ht, kept_nil_iff]
    constructor
    · exact .unclosed hnone
    · intro h
      cases h with
      | expansion _ hread' =>
        rw [hread] at hread'
        cases hread'
      | unclosed _ h => exact h
      | plain hn => exact absurd hc hn

theorem text_flush (lit : List Char) (parts : List (Piece ω)) :
    text (flush lit parts) = text parts ++ lit := by
  unfold flush
  split_ifs with h
  · simp [h]
  · simp [text]

theorem text_concat (parts : List (Piece ω)) (p : Piece ω) :
    text (parts ++ [p]) = text parts ++ p.source := by
  simp [text]

/-- What the loop adds for the rest of the body is what is to be kept of it if and only if
the rest is readable; no character comes up more often than in the body. -/
theorem loop_spec (n : Nat) : ∀ (rest lit : List Char) (parts : List (Piece ω)), rest.length < n →
    ∃ ps t, loop w n parts lit rest = some ps ∧ text ps = text parts ++ lit ++ t ∧
      (Kept w rest t ↔ Readable w rest) ∧ ∀ a, t.count a ≤ rest.count a := by
  induction n with
  | zero =>
    intro rest lit parts h
    omega
  | succ n ih =>
    intro rest lit parts hlen
    cases rest with
    | nil =>
      refine ⟨_, [], rfl, ?_, iff_of_true .done .done, fun a => le_rfl⟩
      rw [text_flush, append_nil]
    | cons c rest =>
      have hlen : rest.length < n := by simpa using hlen
      rw [loop]
      split_ifs with he hc
      · -- an escaped character
        obtain ⟨rfl, d, hd, hesc⟩ := he
        obtain ⟨rest, rfl⟩ : ∃ r, rest = d :: r := by
          cases rest with
          | nil => cases hd
          | cons x r =>
            cases hd
            exact ⟨r, rfl⟩
        obtain ⟨ps, t, hloop, htext, hiff, hcount⟩ := ih rest
          (if d ≠ '\n' then lit ++ [d] else lit) parts (by simp at hlen; omega)
        refine ⟨ps, _, hloop, ?_, (kept_escaped_iff hesc).trans
          (hiff.trans (readable_escaped_iff hesc).symm), fun a => ?_⟩
        · rw [htext]
          split_ifs <;> simp
        · have := hcount a
          split_ifs <;> simp [count_cons] <;> omega
      · -- an expansion
        cases hread : read w c rest with
        | mk part rest' =>
        have hsuf := read_suffix hread
        cases part with
        | some part =>
          obtain ⟨ps, t, hloop, htext, hiff, hcount⟩ := ih rest' []
            (flush lit parts ++ [⟨part, c :: passed rest rest'⟩]) (hsuf.length_le.trans_lt hlen)
          refine ⟨ps, _, hloop, ?_, (kept_expansion_iff hc hread).trans
            (hiff.trans (readable_expansion_iff hc hread).symm), fun a => ?_⟩
          · rw [htext, text_concat, text_flush]
            simp
          · have := hcount a
            nth_rewrite 2 [← passed_append hsuf]
            simp only [cons_append, count_cons, count_append]
            omega
        | none =>
          have htail := (tail_suffix rest').trans hsuf
          obtain ⟨ps, t, hloop, htext, -, hcount⟩ := ih rest'.tail [c] (flush lit parts)
            (htail.length_le.trans_lt hlen)
          refine ⟨ps, c :: t, hloop, ?_, malformed_iff hc hread hcount, fun a => ?_⟩
          · rw [htext, text_flush]
            simp
          · have := hcount a
            have := htail.sublist.count_le a
            simp only [count_cons]
            omega
      · -- a literal character
        obtain ⟨ps, t, hloop, htext, hiff, hcount⟩ := ih rest (lit ++ [c]) parts hlen
        refine ⟨ps, c :: t, hloop, ?_, (kept_plain_iff hc he).trans
          (hiff.trans (readable_plain_iff hc he).symm), fun a => ?_⟩
        · rw [htext]
          simp
        · have := hcount a
          simp only [count_cons]
          omega

def noWord : WordReader Unit := ⟨fun _ rest => (none, rest), fun _ _ => suffix_rfl⟩

end Fastros.Heredoc
