import Mathlib

/-!
# Runs of a deterministic machine

A machine answers each input with a new state. If the inputs that keep an
invariant are known, the runs that keep it in all their states are exactly
those that only take such inputs. A machine that can stop has no state after
the input that stops it.
-/

namespace Fastros.Lib.Run

open List

variable {σ ι : Type} (step : ι → σ → σ) (Fits : σ → ι → Prop)

/-- The state after a list of inputs. -/
def run : List ι → σ → σ
  | [], s => s
  | i :: is, s => run is (step i s)

/-- Every input fits the state it meets. -/
def Along : List ι → σ → Prop
  | [], _ => True
  | i :: is, s => Fits s i ∧ Along is (step i s)

variable {step Fits}

variable {P : σ → Prop} {is : List ι}

/-- The runs that keep the invariant in every state are those whose inputs fit. -/
theorem along_iff (h : ∀ s i, P s → (P (step i s) ↔ Fits s i)) (is : List ι) :
    ∀ s, P s → ((∀ n, P (run step (is.take n) s)) ↔ Along step Fits is s) := by
  induction is with
  | nil => exact fun s hs => ⟨fun _ => trivial, fun _ n => by rw [take_nil]; exact hs⟩
  | cons i is ih =>
    intro s hs
    constructor
    · intro hall
      have h1 : P (step i s) := hall 1
      exact ⟨(h s i hs).mp h1, (ih _ h1).mp fun n => hall (n + 1)⟩
    · rintro ⟨hf, ha⟩ n
      cases n with
      | zero => exact hs
      | succ n => exact (ih _ ((h s i hs).mpr hf)).mpr ha n

theorem run_append (is js : List ι) (s : σ) :
    run step (is ++ js) s = run step js (run step is s) := by
  induction is generalizing s with
  | nil => rfl
  | cons i is ih => exact ih _

theorem along_of_forall {F : ι → Prop} (h : ∀ i ∈ is, F i) (s : σ) :
    Along step (fun _ i => F i) is s := by
  induction is generalizing s with
  | nil => trivial
  | cons i is ih =>
    exact ⟨h i mem_cons_self, ih (fun j hj => h j (mem_cons_of_mem _ hj)) _⟩

/-- What every fitting input keeps holds in every state of a fitting run. -/
theorem along_invariant (h : ∀ s i, P s → Fits s i → P (step i s)) (is : List ι) :
    ∀ s, P s → Along step Fits is s → ∀ n, P (run step (is.take n) s) := by
  induction is with
  | nil =>
    intro s hs _ n
    rw [take_nil]
    exact hs
  | cons i is ih =>
    rintro s hs ⟨hf, ha⟩ n
    cases n with
    | zero => exact hs
    | succ n => exact ih _ (h s i hs hf) ha n

section

variable (step : ι → σ → Option σ) (Fits : σ → ι → Prop)

/-- The state after a list of inputs, if the machine is still going. -/
def runs : List ι → σ → Option σ
  | [], s => some s
  | i :: is, s => (step i s).bind (runs is)

/-- Every input the machine takes fits the state it meets. -/
def Throughout : List ι → σ → Prop
  | [], _ => True
  | i :: is, s => Fits s i ∧ ∀ s', step i s = some s' → Throughout is s'

variable {step Fits}

/-- What every fitting input keeps holds in every state of a fitting run. -/
theorem throughout_invariant
    (h : ∀ s i s', P s → Fits s i → step i s = some s' → P s') (is : List ι) :
    ∀ s, P s → Throughout step Fits is s → ∀ n s', runs step (is.take n) s = some s' → P s' := by
  induction is with
  | nil =>
    intro s hs _ n s' hr
    rw [take_nil] at hr
    cases hr
    exact hs
  | cons i is ih =>
    intro s hs ht n s' hr
    cases n with
    | zero =>
      cases hr
      exact hs
    | succ n =>
      obtain ⟨s1, hs1, hr'⟩ := Option.bind_eq_some_iff.mp hr
      exact ih s1 (h s i s1 hs ht.1 hs1) (ht.2 s1 hs1) n s' hr'

theorem throughout_drop {js : List ι} : ∀ {s s' : σ}, Throughout step Fits (is ++ js) s →
    runs step is s = some s' → Throughout step Fits js s' := by
  induction is with
  | nil =>
    intro s s' ht hr
    cases hr
    exact ht
  | cons i is ih =>
    intro s s' ht hr
    obtain ⟨s1, hs1, hr'⟩ := Option.bind_eq_some_iff.mp hr
    exact ih (ht.2 s1 hs1) hr'

theorem throughout_left {js : List ι} : ∀ {s : σ}, Throughout step Fits (is ++ js) s →
    Throughout step Fits is s := by
  induction is with
  | nil => exact fun _ => trivial
  | cons i is ih => exact fun ht => ⟨ht.1, fun s1 hs1 => ih (ht.2 s1 hs1)⟩

theorem throughout_and {Fits' : σ → ι → Prop} : ∀ {s : σ}, Throughout step Fits is s →
    Throughout step Fits' is s → Throughout step (fun t i => Fits t i ∧ Fits' t i) is s := by
  induction is with
  | nil => exact fun _ _ => trivial
  | cons i is ih =>
    exact fun ht ht' => ⟨⟨ht.1, ht'.1⟩, fun s1 hs1 => ih (ht.2 s1 hs1) (ht'.2 s1 hs1)⟩

theorem throughout_mono {Fits' : σ → ι → Prop} (h : ∀ s i, Fits s i → Fits' s i) :
    ∀ {s : σ}, Throughout step Fits is s → Throughout step Fits' is s := by
  induction is with
  | nil => exact fun _ => trivial
  | cons i is ih => exact fun ht => ⟨h _ i ht.1, fun s1 hs1 => ih (ht.2 s1 hs1)⟩

theorem Throughout.of_forall {F : ι → Prop} (h : ∀ i ∈ is, F i) (s : σ) :
    Throughout step (fun _ i => F i) is s := by
  induction is generalizing s with
  | nil => trivial
  | cons i is ih =>
    exact ⟨h i mem_cons_self, fun s1 _ => ih (fun j hj => h j (mem_cons_of_mem _ hj)) s1⟩

/-- What every fitting input keeps holds where a fitting run ends. -/
theorem throughout_last (h : ∀ s i s', P s → Fits s i → step i s = some s' → P s')
    {s s' : σ} (hs : P s) (ht : Throughout step Fits is s)
    (hr : runs step is s = some s') : P s' := by
  refine throughout_invariant h is s hs ht is.length s' ?_
  rwa [take_length]

/-- What every input keeps holds wherever the machine gets. -/
theorem runs_invariant (h : ∀ s i s', P s → step i s = some s' → P s')
    (is : List ι) : ∀ s s', P s → runs step is s = some s' → P s' := by
  induction is with
  | nil =>
    intro s s' hs hr
    cases hr
    exact hs
  | cons i is ih =>
    intro s s' hs hr
    obtain ⟨s1, hs1, hr'⟩ := Option.bind_eq_some_iff.mp hr
    exact ih s1 s' (h s i s1 hs hs1) hr'

theorem runs_total (h : ∀ s i, P s → ∃ s', step i s = some s' ∧ P s')
    (is : List ι) : ∀ s, P s → ∃ s', runs step is s = some s' ∧ P s' := by
  induction is with
  | nil => exact fun s hs => ⟨s, rfl, hs⟩
  | cons i is ih =>
    intro s hs
    obtain ⟨s1, hs1, hp⟩ := h s i hs
    obtain ⟨s', hr, hp'⟩ := ih s1 hp
    exact ⟨s', Option.bind_eq_some_iff.mpr ⟨s1, hs1, hr⟩, hp'⟩

/-- A fitting run goes on fitting with one more input that fits where it ends. -/
theorem throughout_concat {i : ι} : ∀ {s s' : σ}, Throughout step Fits is s →
    runs step is s = some s' → Fits s' i → Throughout step Fits (is ++ [i]) s := by
  induction is with
  | nil =>
    intro s s' _ hr hf
    cases hr
    exact ⟨hf, fun _ _ => trivial⟩
  | cons j is ih =>
    intro s s' ht hr hf
    obtain ⟨s1, hs1, hr'⟩ := Option.bind_eq_some_iff.mp hr
    refine ⟨ht.1, fun s2 hs2 => ?_⟩
    rw [hs1] at hs2
    cases hs2
    exact ih (ht.2 s1 hs1) hr' hf

theorem runs_append (is js : List ι) (s : σ) :
    runs step (is ++ js) s = (runs step is s).bind (runs step js) := by
  induction is generalizing s with
  | nil => rfl
  | cons i is ih =>
    show (step i s).bind (runs step (is ++ js)) = ((step i s).bind (runs step is)).bind _
    cases step i s with
    | none => rfl
    | some s1 => exact ih s1

theorem runs_concat {i : ι} {s s' : σ} :
    runs step (is ++ [i]) s = some s' ↔ ∃ s1, runs step is s = some s1 ∧ step i s1 = some s' := by
  rw [runs_append, Option.bind_eq_some_iff]
  simp [runs]

/-- Something that does not hold at first and holds in the end was made by a
step of the run, and every later step kept it. `I` is what holds all along. -/
theorem runs_since {I H : σ → Prop} {Made Kept : σ → ι → σ → Prop}
    (hI : ∀ s i s', I s → step i s = some s' → I s')
    (hstep : ∀ s i s', I s → step i s = some s' → H s' → Made s i s' ∨ H s ∧ Kept s i s')
    (is : List ι) :
    ∀ {s s' : σ}, I s → ¬ H s → runs step is s = some s' → H s' →
      ∃ pre i post s1 s2, is = pre ++ i :: post ∧ runs step pre s = some s1 ∧
        step i s1 = some s2 ∧ runs step post s2 = some s' ∧ Made s1 i s2 ∧ H s2 ∧
        Throughout step (fun u j => ∀ u', step j u = some u' → Kept u j u') post s2 := by
  induction is using reverseRecOn with
  | nil =>
    intro s s' _ hs hr h
    cases hr
    exact absurd h hs
  | append_singleton is i ih =>
    intro s s' hi hs hr h
    obtain ⟨t, ht, hlast⟩ := runs_concat.mp hr
    have hit : I t := runs_invariant hI is s t hi ht
    rcases hstep t i s' hit hlast h with hmade | ⟨hbefore, hkept⟩
    · exact ⟨is, i, [], t, s', rfl, ht, hlast, rfl, hmade, h, trivial⟩
    obtain ⟨pre, j, post, s1, s2, rfl, hpre, hj, hpost, hmade, h2, hall⟩ := ih hi hs ht hbefore
    refine ⟨pre, j, post ++ [i], s1, s2, by simp, hpre, hj, runs_concat.mpr ⟨t, hpost, hlast⟩,
      hmade, h2, throughout_concat hall hpost fun u' hu' => ?_⟩
    rw [hlast] at hu'
    cases hu'
    exact hkept

end

end Fastros.Lib.Run
