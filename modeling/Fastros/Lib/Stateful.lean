import Mathlib

/-!
# Computations that keep their state when they stop

A computation in `EStateM ε σ` either returns or stops with an `ε`; in both cases
it leaves a state behind. `Triple` is the total statement about both exits, so an
invariant proved with it also holds in the states an error path abandons.
-/

namespace Fastros.Lib.Stateful

variable {ε σ α β : Type}

theorem run_bind (x : EStateM ε σ α) (f : α → EStateM ε σ β) (s : σ) :
    (x >>= f) s = match x s with
      | .ok a s' => f a s'
      | .error e s' => .error e s' := rfl

theorem run_pure (a : α) (s : σ) : (pure a : EStateM ε σ α) s = .ok a s := rfl

theorem run_throw (e : ε) (s : σ) : (throw e : EStateM ε σ α) s = .error e s := rfl

theorem run_get (s : σ) : (get : EStateM ε σ σ) s = .ok s s := rfl

theorem run_modify (f : σ → σ) (s : σ) : (modify f : EStateM ε σ PUnit) s = .ok ⟨⟩ (f s) := rfl

theorem run_ite (c : Prop) [Decidable c] (x y : EStateM ε σ α) (s : σ) :
    (if c then x else y) s = if c then x s else y s := by
  split <;> rfl

variable {x y : EStateM ε σ α} {f : α → EStateM ε σ β} {s : σ} {e : ε} {P : σ → Prop}
  {Q : α → σ → Prop} {E : ε → σ → Prop} {c : Prop} {S : ε → Prop}
variable {E' : ε → σ → Prop} {Q' R : α → σ → Prop} {a : α} {s' s'' : σ}

theorem bind_ok (h : x s = .ok a s') : (x >>= f) s = f a s' := by
  rw [run_bind, h]

theorem bind_error (h : x s = .error e s') : (x >>= f) s = .error e s' := by
  rw [run_bind, h]

theorem bind_eq_ok {b : β} :
    (x >>= f) s = .ok b s'' ↔ ∃ a s', x s = .ok a s' ∧ f a s' = .ok b s'' := by
  rw [run_bind]
  cases x s with
  | ok a s' => simp [and_assoc]
  | error e s' => simp

/-- A bind stops in its first half, or in its second after the first returned. -/
theorem bind_eq_error : (x >>= f) s = .error e s'' ↔
      x s = .error e s'' ∨ ∃ a s', x s = .ok a s' ∧ f a s' = .error e s'' := by
  rw [run_bind]
  cases x s with
  | ok a s' => simp [and_assoc]
  | error e s' => simp

/-- The state a computation leaves behind, whichever way it ends. -/
def stateOf : EStateM.Result ε σ α → σ
  | .ok _ s => s
  | .error _ s => s

/-- A computation run for its effect. -/
def effect (x : EStateM ε σ α) : EStateM ε σ Unit := do
  let _ ← x
  return ()

theorem stateOf_effect (x : EStateM ε σ α) (s : σ) : stateOf (effect x s) = stateOf (x s) := by
  unfold effect
  rw [run_bind]
  cases x s <;> rfl

/-- From `P`, a return satisfies `Q` and a stop satisfies `E`. -/
structure Triple (P : σ → Prop) (x : EStateM ε σ α) (Q : α → σ → Prop) (E : ε → σ → Prop) :
    Prop where
  ok : ∀ {s a s'}, P s → x s = .ok a s' → Q a s'
  error : ∀ {s e s'}, P s → x s = .error e s' → E e s'

/-- A return leaves `P` as it was; a stop satisfies `E`. -/
abbrev Keeping (P : σ → Prop) (x : EStateM ε σ α) (E : ε → σ → Prop) : Prop :=
  Triple P x (fun _ => P) E

/-- What an end of a computation satisfies: `Q` of a return, `E` of a stop. -/
inductive Ends (Q : α → σ → Prop) (E : ε → σ → Prop) : EStateM.Result ε σ α → Prop
  | ok : ∀ {a s}, Q a s → Ends Q E (.ok a s)
  | error : ∀ {e s}, E e s → Ends Q E (.error e s)

/-- What a triple says about one run. -/
theorem Triple.ends (h : Triple P x Q E) (hs : P s) : Ends Q E (x s) := by
  cases hr : x s with
  | ok a s' => exact .ok (h.ok hs hr)
  | error e s' => exact .error (h.error hs hr)

theorem Triple.intro (h : ∀ s, P s → Ends Q E (x s)) : Triple P x Q E := by
  constructor
  · intro s a s' hs hr
    have hend := h s hs
    rw [hr] at hend
    cases hend with
    | ok h => exact h
  · intro s e s' hs hr
    have hend := h s hs
    rw [hr] at hend
    cases hend with
    | error h => exact h

protected theorem Triple.pure (h : ∀ s, P s → Q a s) : Triple P (pure a : EStateM ε σ α) Q E :=
  .intro fun s hs => .ok (h s hs)

theorem Triple.skip : Keeping P (pure a : EStateM ε σ α) E := .pure fun _ => id

protected theorem Triple.throw (h : ∀ s, P s → E e s) : Triple P (throw e : EStateM ε σ α) Q E :=
  .intro fun s hs => .error (h s hs)

protected theorem Triple.get {Q : σ → σ → Prop} (h : ∀ s, P s → Q s s) : Triple P (get : EStateM ε σ σ) Q E :=
  .intro fun s hs => .ok (h s hs)

protected theorem Triple.modify {Q : PUnit → σ → Prop} {f : σ → σ}
    (h : ∀ s, P s → Q ⟨⟩ (f s)) : Triple P (modify f : EStateM ε σ PUnit) Q E :=
  .intro fun s hs => .ok (h s hs)

/-- The rule of sequence. -/
theorem Triple.bind {Q : β → σ → Prop}
    (hx : Triple P x R E) (hf : ∀ a, Triple (R a) (f a) Q E) : Triple P (x >>= f) Q E := by
  refine ⟨fun hs hr => ?_, fun hs hr => ?_⟩
  · obtain ⟨a, s', h1, h2⟩ := bind_eq_ok.mp hr
    exact (hf a).ok (hx.ok hs h1) h2
  · rcases bind_eq_error.mp hr with h1 | ⟨a, s', h1, h2⟩
    · exact hx.error hs h1
    · exact (hf a).error (hx.ok hs h1) h2

/-- The rule of consequence. -/
theorem Triple.mono {P' : σ → Prop} (h : Triple P x Q E) (hp : ∀ s, P' s → P s)
    (hq : ∀ a s, Q a s → Q' a s) (he : ∀ e s, E e s → E' e s) : Triple P' x Q' E' :=
  ⟨fun hs hr => hq _ _ (h.ok (hp _ hs) hr), fun hs hr => he _ _ (h.error (hp _ hs) hr)⟩

theorem Triple.pre {P' : σ → Prop} (h : Triple P x Q E) (hp : ∀ s, P' s → P s) : Triple P' x Q E :=
  .mono h hp (fun _ _ => id) fun _ _ => id

theorem Triple.stop (h : Triple P x Q E) (he : ∀ e s, E e s → E' e s) : Triple P x Q E' :=
  .mono h (fun _ => id) (fun _ _ => id) he

theorem Triple.ite [Decidable c] (hx : c → Triple P x Q E) (hy : ¬ c → Triple P y Q E) :
    Triple P (if c then x else y) Q E := by
  by_cases h : c
  · rw [if_pos h]; exact hx h
  · rw [if_neg h]; exact hy h

/-- Two triples of one program hold together. -/
theorem Triple.and {P' : σ → Prop} (h : Triple P x Q E) (h' : Triple P' x Q' E') :
    Triple (fun s => P s ∧ P' s) x (fun a s => Q a s ∧ Q' a s) (fun e s => E e s ∧ E' e s) :=
  ⟨fun hs hr => ⟨h.ok hs.1 hr, h'.ok hs.2 hr⟩, fun hs hr => ⟨h.error hs.1 hr, h'.error hs.2 hr⟩⟩

theorem Triple.total (h : ∀ s, P s → ∃ a s', x s = .ok a s' ∧ Q a s') : Triple P x Q E := by
  refine .intro fun s hs => ?_
  obtain ⟨a, s', heq, hq⟩ := h s hs
  rw [heq]
  exact .ok hq

theorem triple_absurd (h : ∀ s, ¬ P s) : Triple P x Q E := .intro fun s hs => absurd hs (h s)

/-- A precondition that does not mention the state is a hypothesis. -/
theorem Triple.fact (h : c → Triple P x Q E) : Triple (fun s => P s ∧ c) x Q E :=
  ⟨fun hs hr => (h hs.2).ok hs.1 hr, fun hs hr => (h hs.2).error hs.1 hr⟩

/-- `P` survives `x`, on either exit. -/
abbrev Keeps (P : σ → Prop) (x : EStateM ε σ α) : Prop := Triple P x (fun _ => P) (fun _ => P)

protected theorem Keeping.throw (e : ε) : Keeps P (throw e : EStateM ε σ α) := .throw fun _ => id

/-! The steps that do not stop of themselves keep `P` whatever the other stops satisfy. -/

protected theorem Keeping.pure (a : α) : Keeping P (pure a : EStateM ε σ α) E := .skip

protected theorem Keeping.get : Keeping P (get : EStateM ε σ σ) E := Triple.get fun _ => id

protected theorem Keeping.modify {f : σ → σ} (h : ∀ s, P s → P (f s)) :
    Keeping P (modify f : EStateM ε σ PUnit) E :=
  Triple.modify h

theorem Keeping.bind (hx : Keeping P x E) (hf : ∀ a, Keeping P (f a) E) : Keeping P (x >>= f) E :=
  Triple.bind hx hf

theorem Keeping.ite [Decidable c] (hx : c → Keeping P x E)
    (hy : ¬ c → Keeping P y E) : Keeping P (if c then x else y) E :=
  Triple.ite hx hy

theorem Keeping.unless [Decidable c] (hy : Keeps P y) : Keeps P (if c then throw e else y) :=
  Keeping.ite (fun _ => .throw e) fun _ => hy

theorem keeps_and {Q : σ → Prop} (hp : Keeps P x) (hq : Keeps Q x) : Keeps (fun s => P s ∧ Q s) x :=
  .and hp hq

theorem Triple.state {Q : σ → Prop}
    (h : Triple P x (fun _ => Q) (fun _ => Q)) (hs : P s) : Q (stateOf (x s)) := by
  cases hr : x s with
  | ok a s' => exact h.ok hs hr
  | error e s' => exact h.error hs hr

/-- A computation that can neither break nor establish `P`. -/
theorem state_iff (h : Keeps P x)
    (hn : Keeps (fun s => ¬ P s) x) (s : σ) : P (stateOf (x s)) ↔ P s := by
  constructor
  · intro hp
    exact Classical.byContradiction fun hs => hn.state hs hp
  · exact h.state

/-- A computation described by the states it leaves. -/
theorem Triple.of_state {Q : σ → Prop}
    (h : ∀ s, P s → Q (stateOf (x s))) (he : ∀ e s, Q s → E e s) : Triple P x (fun _ => Q) E := by
  refine .intro fun s hs => ?_
  have hq := h s hs
  cases hr : x s with
  | ok a s' =>
    rw [hr] at hq
    exact .ok hq
  | error e s' =>
    rw [hr] at hq
    exact .error (he e s' hq)

/-- To keep a property is to keep it whatever the outcome. -/
theorem keeps_state (h : ∀ s, P s → P (stateOf (x s))) : Keeps P x := .of_state h fun _ _ => id

/-- Every stop of `x` satisfies `S`, from whatever state. -/
structure Raises (S : ε → Prop) (x : EStateM ε σ α) : Prop where
  error : ∀ {s e s'}, x s = .error e s' → S e

protected theorem Raises.pure (a : α) : Raises S (pure a : EStateM ε σ α) := ⟨fun h => by cases h⟩

protected theorem Raises.modify (f : σ → σ) : Raises S (modify f : EStateM ε σ PUnit) :=
  ⟨fun h => by cases h⟩

theorem Raises.bind (hx : Raises S x) (hf : ∀ a, Raises S (f a)) : Raises S (x >>= f) := by
  refine ⟨fun h => ?_⟩
  rcases bind_eq_error.mp h with h | ⟨a, s', -, h⟩
  · exact hx.error h
  · exact (hf a).error h

theorem Raises.of_triple (h : Triple (fun _ => True) x (fun _ _ => True) fun e _ => S e) : Raises S x :=
  ⟨fun hr => h.error trivial hr⟩

/-- Every result of `x` satisfies `Q`, from whatever state. -/
structure Yields (Q : α → Prop) (x : EStateM ε σ α) : Prop where
  ok : ∀ {s a s'}, x s = .ok a s' → Q a

protected theorem Yields.pure {Q : α → Prop} (h : Q a) : Yields Q (pure a : EStateM ε σ α) :=
  ⟨fun hr => by cases hr; exact h⟩

protected theorem Yields.throw {Q : α → Prop} (e : ε) : Yields Q (throw e : EStateM ε σ α) :=
  ⟨fun hr => by cases hr⟩

theorem Yields.bind {Q : β → Prop} (hf : ∀ a, Yields Q (f a)) : Yields Q (x >>= f) := by
  refine ⟨fun h => ?_⟩
  obtain ⟨a, s', -, h⟩ := bind_eq_ok.mp h
  exact (hf a).ok h

theorem Yields.ite {Q : α → Prop} [Decidable c]
    (hx : c → Yields Q x) (hy : ¬ c → Yields Q y) : Yields Q (if c then x else y) := by
  by_cases h : c
  · rw [if_pos h]; exact hx h
  · rw [if_neg h]; exact hy h

end Fastros.Lib.Stateful
