import Mathlib

/-!
# Pipelines

`run_multi` and `spawn_stage` of the shell. A simple command is expanded in the
invoking shell, to find out what it runs, and again in a subshell unless it runs a
native command or a script or is missing. How words are expanded is left open.
-/

namespace Fastros.Shell

/-- A computation of a shell: its result, the variables it leaves, and the side
effects of the expansions it made. -/
def Run (V F α : Type) := V → Except String α × V × List F

variable {W V F α β : Type}

instance : Monad (Run V F) where
  pure a := fun v => (.ok a, v, [])
  bind x f := fun v =>
    match x v with
    | (.ok a, v, fs) => ((f a v).1, (f a v).2.1, fs ++ (f a v).2.2)
    | (.error e, v, fs) => (.error e, v, fs)

theorem bind_ok {x : Run V F α} {f : α → Run V F β} {v v' : V} {a : α} {fs : List F}
    (h : x v = (.ok a, v', fs)) : (x >>= f) v = ((f a v').1, (f a v').2.1, fs ++ (f a v').2.2) := by
  show (match x v with
    | (.ok a, v, fs) => ((f a v).1, (f a v).2.1, fs ++ (f a v).2.2)
    | (.error e, v, fs) => (.error e, v, fs)) = _
  rw [h]

inductive Target where
  | builtin | function | native | script | notFound | notExecutable

structure Simple (W : Type) where
  assigns : List (String × W) := []
  words : List W
  redirs : List W := []

inductive Command (W V F : Type) where
  | simple (c : Simple W)
  /-- Any other command, as what it does. -/
  | other (run : Run V F Unit)

/-- What an effect comes from: words and assignments, redirections, or the command at work. -/
inductive Part where
  | words | redirs | body

def tag (p : Part) (x : Run V F α) : Run V (Part × F) α :=
  fun v => ((x v).1, (x v).2.1, (x v).2.2.map (p, ·))

/-- What a stage uses of the shell; `applyRedirs` expands words and opens files, and
`call` is a builtin or a function at work. -/
structure Ops (W V F : Type) where
  expandWords : List W → Run V F (List String)
  expandOne : W → Run V F String
  applyRedirs : List W → Run V F Unit
  resolve : V → String → Target
  setVar : String × String → Run V F Unit
  call : List String → Run V F Unit

variable (sh : Ops W V F)

/-- What `run_simple` and `spawn_stage` begin with. -/
def expandCommand (c : Simple W) : Run V (Part × F) (List String × List (String × String)) :=
  tag .words do
    let argv ← sh.expandWords c.words
    let values ← c.assigns.mapM fun a => do return (a.1, ← sh.expandOne a.2)
    return (argv, values)

/-- What the command line runs, if it is not empty. -/
def target (argv : List String) : Run V (Part × F) (Option Target) :=
  fun v => (.ok (argv.head?.map (sh.resolve v)), v, [])

/-- What is done once it is known what runs; `missing` for a command that cannot be run. -/
def runTarget (missing : Run V (Part × F) Unit) (c : Simple W) (argv : List String)
    (values : List (String × String)) : Option Target → Run V (Part × F) Unit
  | none => do
    tag .body (values.forM sh.setVar)
    tag .redirs (sh.applyRedirs c.redirs)
  | some .builtin => do
    -- a variable that cannot be set is passed over
    tag .body (values.forM fun a v => (.ok (), (sh.setVar a v).2))
    tag .redirs (sh.applyRedirs c.redirs)
    tag .body (sh.call argv)
  | some .function => do
    tag .redirs (sh.applyRedirs c.redirs)
    tag .body (sh.call argv)
  | some .native | some .script => tag .redirs (sh.applyRedirs c.redirs)
  | some .notFound | some .notExecutable => missing

/-- `run_simple` in a subshell. -/
def runSimpleOr (missing : Run V (Part × F) Unit) (c : Simple W) : Run V (Part × F) Unit := do
  let (argv, values) ← expandCommand sh c
  runTarget sh missing c argv values (← target sh argv)

/-- The redirections of a missing command are not looked at. -/
def runSimple (c : Simple W) : Run V (Part × F) Unit := runSimpleOr sh (pure ()) c

/-- The effects of a command in a copy of the shell. -/
def subshell (v : V) : Command W V F → List (Part × F)
  | .simple c => (runSimple sh c v).2.2
  | .other run => (tag .body run v).2.2

/-- The effects of a command whose words, assignments and redirections are all expanded
once, in a copy of the shell. -/
def once (v : V) : Command W V F → List (Part × F)
  | .simple c => (runSimpleOr sh (tag .redirs (sh.applyRedirs c.redirs)) c v).2.2
  | .other run => (tag .body run v).2.2

/-- A stage of a pipeline; returns the effects of the child. -/
def spawnStage (c : Command W V F) : Run V (Part × F) (List (Part × F)) :=
  let spawnSubshell : Run V (Part × F) (List (Part × F)) := fun v => (.ok (subshell sh v c), v, [])
  match c with
  | .other _ => spawnSubshell
  | .simple s => do
    let (argv, _) ← expandCommand sh s
    match ← target sh argv with
    | some .native | some .script =>
      tag .redirs (sh.applyRedirs s.redirs)
      return []
    | some .notFound => return []
    | _ => spawnSubshell

/-- For each stage all its effects, and the variables of the invoking shell after it. -/
def runMulti : List (Command W V F) → V → List (List (Part × F) × V)
  | [], _ => []
  | c :: cs, v =>
    let (r, v, fs) := spawnStage sh c v
    (fs ++ r.toOption.getD [], v) :: runMulti cs v

/-- The effects of the redirections of a command. -/
def redirEffects (c : Simple W) (v : V) : List F := (sh.applyRedirs c.redirs v).2.2

/-- What the invoking shell expands leaves its variables alone, and it has no effects where
a subshell expands it again. A missing command has redirections without effects. -/
def Clean (v : V) : Command W V F → Prop
  | .other _ => True
  | .simple c =>
    match expandCommand sh c v with
    | (.error _, v', _) => v' = v
    | (.ok (argv, _), v', fs) =>
      match argv.head?.map (sh.resolve v') with
      | some .native | some .script => (sh.applyRedirs c.redirs v').2.1 = v
      | some .notFound => v' = v ∧ redirEffects sh c v = []
      | some .notExecutable => v' = v ∧ fs = [] ∧ redirEffects sh c v = []
      | _ => v' = v ∧ fs = []

variable {sh} {v v' : V} {c : Command W V F} {cs : List (Command W V F)}

theorem bind_error {x : Run V F α} {f : α → Run V F β} {e : String} {fs : List F}
    (h : x v = (.error e, v', fs)) : (x >>= f) v = (.error e, v', fs) := by
  show (match x v with
    | (.ok a, v, fs) => ((f a v).1, (f a v).2.1, fs ++ (f a v).2.2)
    | (.error e, v, fs) => (.error e, v, fs)) = _
  rw [h]

theorem bind_nil (x : Run V F α) :
    ((x >>= fun _ => (pure [] : Run V F (List β))) v).2 = (x v).2 ∧
      ((x >>= fun _ => (pure [] : Run V F (List β))) v).1.toOption.getD [] = [] := by
  rcases hx : x v with ⟨r, v', fs⟩
  cases r with
  | ok a => rw [bind_ok hx]; simp [pure, Except.toOption]
  | error e => rw [bind_error hx]; simp [Except.toOption]

theorem runSimpleOr_ok {missing : Run V (Part × F) Unit} {s : Simple W} {argv values}
    {fs : List (Part × F)} (h : expandCommand sh s v = (.ok (argv, values), v', fs)) :
    (runSimpleOr sh missing s v).2.2 = fs ++
      (runTarget sh missing s argv values (argv.head?.map (sh.resolve v')) v').2.2 := by
  have htarget : target sh argv v' = (.ok (argv.head?.map (sh.resolve v')), v', []) := rfl
  simp only [runSimpleOr, bind_ok h, bind_ok htarget, List.nil_append]

theorem tag_words {s : Simple W} {r} {fs : List (Part × F)}
    (h : expandCommand sh s v = (r, v', fs)) : ∀ x ∈ fs, x.1 = .words := by
  obtain rfl : (expandCommand sh s v).2.2 = fs := by rw [h]
  simp [expandCommand, tag]

/-- Words that are expanded twice, with the redirections left out, are as good as both
expanded once only if neither has effects. -/
theorem twice_iff {fs : List (Part × F)} (gs : List F) (h : ∀ x ∈ fs, x.1 = .words) :
    fs ++ fs = fs ++ gs.map (.redirs, ·) ↔ fs = [] ∧ gs = [] := by
  rw [List.append_cancel_left_eq]
  constructor
  · rintro rfl
    cases gs with
    | nil => exact ⟨rfl, rfl⟩
    | cons g gs => exact nomatch h _ List.mem_cons_self
  · rintro ⟨rfl, rfl⟩
    rfl

/-- One stage is expanded once and leaves the variables alone exactly if it is clean. -/
theorem spawnStage_iff :
    ((spawnStage sh c v).2.2 ++ (spawnStage sh c v).1.toOption.getD [], (spawnStage sh c v).2.1) =
      (once sh v c, v) ↔ Clean sh v c := by
  cases c with
  | other run => exact iff_of_true rfl trivial
  | simple s =>
    rcases hx : expandCommand sh s v with ⟨r, v', fs⟩
    cases r with
    | error e =>
      simp only [spawnStage, once, runSimpleOr, Clean, hx, bind_error hx]
      simp [Except.toOption]
    | ok out =>
      obtain ⟨argv, values⟩ := out
      have htarget : target sh argv v' = (.ok (argv.head?.map (sh.resolve v')), v', []) := rfl
      have hwords := tag_words hx
      simp only [spawnStage, once, Clean, hx, bind_ok hx, bind_ok htarget, runSimpleOr_ok hx,
        List.nil_append, Prod.mk.injEq]
      -- the words are the same again in a subshell that starts with the same variables
      have hsub : v' = v → subshell sh v' (.simple s) = fs ++
          (runTarget sh (pure ()) s argv values (argv.head?.map (sh.resolve v')) v').2.2 := by
        rintro rfl
        exact runSimpleOr_ok hx
      cases ht : argv.head?.map (sh.resolve v') with
      | none =>
        rw [ht] at hsub
        rw [and_comm]
        refine and_congr_right fun hv => ?_
        simp [Except.toOption, hsub hv, runTarget]
      | some t =>
        rw [ht] at hsub
        cases t with
        | builtin | function =>
          rw [and_comm]
          refine and_congr_right fun hv => ?_
          simp [Except.toOption, hsub hv, runTarget]
        | notExecutable =>
          rw [and_comm]
          refine and_congr_right fun hv => ?_
          have := twice_iff (redirEffects sh s v) hwords
          subst hv
          simpa [Except.toOption, hsub rfl, runTarget, pure, tag, redirEffects] using this
        | native | script =>
          obtain ⟨hbind, hnil⟩ := bind_nil (β := Part × F) (v := v') (tag .redirs (sh.applyRedirs s.redirs))
          simp [hbind, hnil, runTarget, tag]
        | notFound =>
          rw [and_comm]
          refine and_congr_right fun hv => ?_
          subst hv
          simp [Except.toOption, runTarget, pure, tag, redirEffects]

/-- **Every stage is expanded once, as in a copy of the shell, and none changes the
variables of the invoking shell, exactly if the stages are clean.** -/
theorem pipeline_once_iff :
    runMulti sh cs v = cs.map (fun c => (once sh v c, v)) ↔ ∀ c ∈ cs, Clean sh v c := by
  induction cs with
  | nil => simp [runMulti]
  | cons c cs ih =>
    rw [List.forall_mem_cons, ← spawnStage_iff, ← ih, List.map_cons, runMulti, List.cons.injEq]
    refine and_congr_right fun h => ?_
    have hv : (spawnStage sh c v).2.1 = v := (Prod.ext_iff.1 h).2
    rw [hv]

/-- Text, `$(date)` or `${x:=1}`. -/
inductive Piece where
  | text (s : String)
  | date
  | assign

def Piece.expand : Piece → Run (Option String) String String
  | .text s => pure s
  | .date => fun x => (.ok "Sun", x, ["date"])
  | .assign => fun x => (.ok (x.getD "1"), some (x.getD "1"), if x = none then ["x=1"] else [])

/-- A shell with one variable, whose only builtin is `echo`. -/
def sample : Ops Piece (Option String) String where
  expandWords ws := ws.mapM Piece.expand
  expandOne := Piece.expand
  applyRedirs ws := ws.forM fun w => do let _ ← w.expand
  resolve _ name := if name = "echo" then .builtin else .native
  setVar a := fun _ => (.ok (), some a.2, [])
  call _ := pure ()

/-- `echo $(date) | cat` runs `date` twice, and `ls ${x:=1} | cat` sets a variable of the
invoking shell. -/
theorem pipeline_expands_again :
    let echo : Command Piece (Option String) String := .simple { words := [.text "echo", .date] }
    let ls : Command Piece (Option String) String := .simple { words := [.text "ls", .assign] }
    let cat : Command Piece (Option String) String := .simple { words := [.text "cat"] }
    runMulti sample [echo, cat] none = [([(.words, "date"), (.words, "date")], none), ([], none)] ∧
      once sample none echo = [(.words, "date")] ∧
      runMulti sample [ls, cat] none = [([(.words, "x=1")], some "1"), ([], some "1")] :=
  ⟨rfl, rfl, rfl⟩

end Fastros.Shell
