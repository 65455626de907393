import Fastros.Seccomp.Filters

/-!
# Do more filters tighten?

Installing programs and going strict should only ever make the verdict on a call
more severe. What `decide` answers is determined by two facts about the return
values of the programs: whether one of them is exactly `RET_KILL_PROCESS`, and
which action class is numerically the least. From that the calls on which a
longer stack is at least as severe are read off exactly.
-/

namespace Fastros.Seccomp

open Lib.Bytes (toLeBytes)

open List

/-- KILL_PROCESS > KILL_THREAD > TRAP > ERRNO > TRACE > LOG > ALLOW. -/
def classSeverity (c : UInt32) : Nat :=
  if c = retKillProcess then 6
  else if c = retKillThread then 5
  else if c = retTrap then 4
  else if c = retErrno then 3
  else if c = retTrace then 2
  else if c = retLog then 1
  else 0

def Action.class : Action → UInt32
  | .allow => retAllow
  | .errno _ => retErrno
  | .trap => retTrap
  | .killThread => retKillThread
  | .killProcess => retKillProcess

def Action.severity (a : Action) : Nat := classSeverity a.class

/-- The classes for which `classify` does anything but allow. -/
def Restrictive (c : UInt32) : Prop :=
  c = retKillProcess ∨ c = retKillThread ∨ c = retTrap ∨ c = retErrno

instance (c : UInt32) : Decidable (Restrictive c) := inferInstanceAs (Decidable (_ ∨ _))

/-- A return value of a kill class. -/
def Kills (r : UInt32) : Prop := actionClass r = retKillProcess ∨ actionClass r = retKillThread

instance (r : UInt32) : Decidable (Kills r) := inferInstanceAs (Decidable (_ ∨ _))

/-- What the installed programs return for a call, in the order of installation. -/
def Filters.returns (f : Filters) (c : Call) : List UInt32 := f.progs.map fun p => runProg p c.data

/-- The verdict on a list of return values. -/
def verdict : List UInt32 → Action
  | [] => .allow
  | r :: rs => classify (rs.foldl moreSevere r)

theorem foldl_track (c : Call) (progs : List (List SockFilter)) (r : UInt32) :
    progs.foldl (track c) (some r) =
      some ((progs.map fun p => runProg p c.data).foldl moreSevere r) := by
  induction progs generalizing r with
  | nil => rfl
  | cons p ps ih => exact ih _

theorem decide_eq (f : Filters) (c : Call) :
    f.decide c =
      if f.strict then if c.nr ∈ strictCalls then .allow else .killProcess
      else verdict (f.returns c) := by
  unfold Filters.decide Filters.returns
  by_cases hs : f.strict = true
  · rw [if_pos hs, if_pos hs]
  rw [if_neg hs, if_neg hs]
  cases hp : f.progs with
  | nil => rfl
  | cons p ps =>
    have hfold : (p :: ps).foldl (track c) none = _ := foldl_track c ps (runProg p c.data)
    rw [hfold]
    rfl

/-- `c` is the least class among the return values. -/
def Least (rs : List UInt32) (c : UInt32) : Prop :=
  (∃ r ∈ rs, actionClass r = c) ∧ ∀ r ∈ rs, c ≤ actionClass r

instance (rs : List UInt32) (c : UInt32) : Decidable (Least rs c) := inferInstanceAs (Decidable (_ ∧ _))

variable {rs : List UInt32} {c : UInt32}

theorem Least.unique {c' : UInt32} (h : Least rs c) (h' : Least rs c') : c = c' := by
  obtain ⟨⟨r, hr, rfl⟩, hle⟩ := h
  obtain ⟨⟨r', hr', rfl⟩, hle'⟩ := h'
  exact UInt32.le_antisymm (hle r' hr') (hle' r hr)

theorem foldl_exact (rs : List UInt32) (r : UInt32) (h : retKillProcess ∈ r :: rs) :
    rs.foldl moreSevere r = retKillProcess := by
  induction rs generalizing r with
  | nil => exact (mem_singleton.mp h).symm
  | cons q rs ih =>
    apply ih
    rcases mem_cons.mp h with h | h
    · exact mem_cons.mpr (.inl (by rw [moreSevere, if_pos (.inl h.symm)]))
    · rcases mem_cons.mp h with h | h
      · exact mem_cons.mpr (.inl (by rw [moreSevere, if_pos (.inr h.symm)]))
      · exact mem_cons_of_mem _ h

theorem foldl_least (rs : List UInt32) (r : UInt32) (h : retKillProcess ∉ r :: rs) :
    rs.foldl moreSevere r ∈ r :: rs ∧
      ∀ q ∈ r :: rs, actionClass (rs.foldl moreSevere r) ≤ actionClass q := by
  induction rs generalizing r with
  | nil => simp
  | cons q rs ih =>
    have hr : r ≠ retKillProcess := fun he => h (by simp [he])
    have hq : q ≠ retKillProcess := fun he => h (by simp [he])
    have hrs : retKillProcess ∉ rs := fun hm => h (by simp [hm])
    have hm : moreSevere r q = if actionClass r ≤ actionClass q then r else q := by
      rw [moreSevere, if_neg (by simp [hr, hq])]
    have hnot : retKillProcess ∉ moreSevere r q :: rs := by
      rw [hm]
      split <;> simp [hrs, Ne.symm hr, Ne.symm hq]
    obtain ⟨hmem, hle⟩ := ih (moreSevere r q) hnot
    rw [foldl_cons]
    have hboth : actionClass (moreSevere r q) ≤ actionClass r ∧
        actionClass (moreSevere r q) ≤ actionClass q := by
      rw [hm]
      split
      · exact ⟨UInt32.le_refl _, by assumption⟩
      · exact ⟨UInt32.le_of_lt (UInt32.not_le.mp (by assumption)), UInt32.le_refl _⟩
    have hhead := hle _ mem_cons_self
    constructor
    · rcases mem_cons.mp hmem with he | hin
      · rw [he, hm]
        split <;> simp
      · simp [hin]
    intro p hp
    rcases mem_cons.mp hp with rfl | hp
    · exact UInt32.le_trans hhead hboth.1
    · rcases mem_cons.mp hp with rfl | hp
      · exact UInt32.le_trans hhead hboth.2
      · exact hle p (mem_cons_of_mem _ hp)

theorem severity_classify (r : UInt32) :
    (classify r).severity =
      if Restrictive (actionClass r) then classSeverity (actionClass r) else 0 := by
  unfold classify Restrictive
  split_ifs <;> simp_all [Action.severity, Action.class]
  rfl

theorem classify_eq_allow (r : UInt32) : classify r = .allow ↔ ¬ Restrictive (actionClass r) := by
  unfold classify Restrictive
  split_ifs <;> simp_all

theorem verdict_exact (h : retKillProcess ∈ rs) : verdict rs = .killProcess := by
  cases rs with
  | nil => cases h
  | cons r rs =>
    rw [verdict, foldl_exact rs r h]
    decide

section

variable (hn : retKillProcess ∉ rs)
include hn

/-- Without an exact `RET_KILL_PROCESS` the least class decides. -/
theorem verdict_least (hc : Least rs c) : ∃ r, actionClass r = c ∧ verdict rs = classify r := by
  cases rs with
  | nil => obtain ⟨⟨r, hr, -⟩, -⟩ := hc; cases hr
  | cons r rs =>
    have hl := foldl_least rs r hn
    exact ⟨_, Least.unique ⟨⟨_, hl.1, rfl⟩, hl.2⟩ hc, rfl⟩

theorem exists_least (hne : rs ≠ []) : ∃ c, Least rs c := by
  cases rs with
  | nil => exact absurd rfl hne
  | cons r rs =>
    have hl := foldl_least rs r hn
    exact ⟨_, ⟨_, hl.1, rfl⟩, hl.2⟩

theorem severity_least (hc : Least rs c) :
    (verdict rs).severity = if Restrictive c then classSeverity c else 0 := by
  obtain ⟨r, rfl, hv⟩ := verdict_least hn hc
  rw [hv, severity_classify]

theorem verdict_eq_allow (hc : Least rs c) : verdict rs = .allow ↔ ¬ Restrictive c := by
  obtain ⟨r, rfl, hv⟩ := verdict_least hn hc
  rw [hv, classify_eq_allow]

end

theorem severity_le (a : Action) : a.severity ≤ Action.killProcess.severity := by
  cases a with
  | errno e => exact (by decide : classSeverity retErrno ≤ classSeverity retKillProcess)
  | _ => decide

theorem severity_allow : Action.allow.severity = 0 := by decide

/-- The least class `c'` of the later programs lies below the least class `c` of
the earlier ones, and stands for a milder action. -/
def Undercuts (c c' : UInt32) : Prop :=
  c' < c ∧ (c = retKillProcess ∨ (Restrictive c ∧ ¬ Restrictive c'))

theorem Least.append {ns : List UInt32} {c' : UInt32} (h : Least rs c) (h' : Least ns c') :
    Least (rs ++ ns) (if c' < c then c' else c) := by
  obtain ⟨⟨r, hr, hrc⟩, hle⟩ := h
  obtain ⟨⟨r', hr', hrc'⟩, hle'⟩ := h'
  by_cases hlt : c' < c
  · rw [if_pos hlt]
    refine ⟨⟨r', mem_append_right _ hr', hrc'⟩, fun q hq => ?_⟩
    rcases mem_append.mp hq with hq | hq
    · exact UInt32.le_trans (UInt32.le_of_lt hlt) (hle q hq)
    · exact hle' q hq
  · rw [if_neg hlt]
    refine ⟨⟨r, mem_append_left _ hr, hrc⟩, fun q hq => ?_⟩
    rcases mem_append.mp hq with hq | hq
    · exact hle q hq
    · exact UInt32.le_trans (UInt32.not_lt.mp hlt) (hle' q hq)

/-- Among classes, a numerically smaller one is at least as severe except where
it undercuts. -/
theorem severity_lower_iff (c c' : UInt32) (hlt : c' < c) :
    (if Restrictive c then classSeverity c else 0) ≤
      (if Restrictive c' then classSeverity c' else 0) ↔ ¬ Undercuts c c' := by
  unfold Undercuts
  by_cases hc : Restrictive c
  · by_cases hc' : Restrictive c'
    · rcases hc with rfl | rfl | rfl | rfl <;> rcases hc' with rfl | rfl | rfl | rfl <;> revert hlt <;>
        decide
    · rcases hc with rfl | rfl | rfl | rfl <;> simp [hlt, hc'] <;> decide
  · have hk : c ≠ retKillProcess := fun he => hc (.inl he)
    simp [hc, hk]

/-- Appending return values makes the verdict at least as severe unless they
undercut. -/
theorem severity_append_iff (rs ns : List UInt32) :
    (verdict rs).severity ≤ (verdict (rs ++ ns)).severity ↔
      retKillProcess ∈ rs ++ ns ∨ ∀ c c', Least rs c → Least ns c' → ¬ Undercuts c c' := by
  by_cases hk : retKillProcess ∈ rs ++ ns
  · have hle := severity_le (verdict rs)
    rw [verdict_exact hk]
    exact iff_of_true hle (.inl hk)
  have hrs : retKillProcess ∉ rs := fun hm => hk (mem_append_left _ hm)
  have hns : retKillProcess ∉ ns := fun hm => hk (mem_append_right _ hm)
  rcases eq_nil_or_concat rs with rfl | hne
  · have h0 : (verdict []).severity = 0 := severity_allow
    refine iff_of_true (by rw [h0]; exact Nat.zero_le _) (.inr ?_)
    rintro c c' ⟨⟨r, hr, -⟩, -⟩
    cases hr
  rcases eq_nil_or_concat ns with rfl | hne'
  · rw [append_nil]
    refine iff_of_true .refl (.inr ?_)
    rintro c c' - ⟨⟨r, hr, -⟩, -⟩
    cases hr
  obtain ⟨c, hc⟩ := exists_least hrs (by rintro rfl; simp at hne)
  obtain ⟨c', hc'⟩ := exists_least hns (by rintro rfl; simp at hne')
  have hcond : (retKillProcess ∈ rs ++ ns ∨ ∀ c c', Least rs c → Least ns c' → ¬ Undercuts c c') ↔
      ¬ Undercuts c c' := by
    constructor
    · rintro (h | h)
      · exact absurd h hk
      · exact h c c' hc hc'
    · intro h
      refine .inr fun d d' hd hd' => ?_
      rw [hd.unique hc, hd'.unique hc']
      exact h
  rw [hcond, severity_least hrs hc, severity_least hk (hc.append hc')]
  by_cases hlt : c' < c
  · rw [if_pos hlt]
    exact severity_lower_iff c c' hlt
  · rw [if_neg hlt]
    exact iff_of_true .refl fun hu => hlt hu.1

/-- The old programs answer the call with something other than allowing it. -/
def Restricts (rs : List UInt32) : Prop := retKillProcess ∈ rs ∨ ∃ c, Least rs c ∧ Restrictive c

theorem verdict_ne_allow (rs : List UInt32) : verdict rs ≠ .allow ↔ Restricts rs := by
  by_cases hk : retKillProcess ∈ rs
  · rw [verdict_exact hk]
    exact iff_of_true (by decide) (.inl hk)
  cases rs with
  | nil =>
    refine iff_of_false (fun h => h rfl) ?_
    rintro (h | ⟨c, ⟨⟨r, hr, -⟩, -⟩, -⟩)
    · exact hk h
    · cases hr
  | cons r rs =>
    obtain ⟨c, hc⟩ := exists_least hk (cons_ne_nil _ _)
    rw [Ne, verdict_eq_allow hk hc, not_not]
    constructor
    · exact fun h => .inr ⟨c, hc, h⟩
    · rintro (h | ⟨d, hd, hr⟩)
      · exact absurd h hk
      · rwa [hc.unique hd]

theorem severity_eq_zero (a : Action) : a.severity ≤ 0 ↔ a = .allow := by
  cases a with
  | errno e => exact iff_of_false (by decide : ¬ classSeverity retErrno ≤ 0) (by simp)
  | _ => decide

/-- When the filters `f'`, an extension of `f`, treat a call at least as severely
as `f`, and do not allow it if one of their programs kills it. In strict mode the
five permitted calls must not be restricted by a program. Otherwise some program
returns exactly `RET_KILL_PROCESS`, or the later programs do not undercut the
earlier ones and no kill class is outbid by a class that stands for allowing. -/
def Tightening (f f' : Filters) (c : Call) : Prop :=
  if f'.strict then
    c.nr ∈ strictCalls → (f.strict ∨ ¬ Restricts (f.returns c)) ∧ ∀ r ∈ f'.returns c, ¬ Kills r
  else
    retKillProcess ∈ f'.returns c ∨
      ((∀ c₀ c₁, Least (f.returns c) c₀ → Least ((f'.returns c).drop f.progs.length) c₁ →
          ¬ Undercuts c₀ c₁) ∧
        ((∃ r ∈ f'.returns c, Kills r) → Restricts (f'.returns c)))

theorem extends_returns {f f' : Filters} (h : Extends f f') (c : Call) :
    f'.returns c = f.returns c ++ (f'.returns c).drop f.progs.length := by
  obtain ⟨added, ha⟩ := h.progs
  have hlen : f.progs.length = (f.returns c).length := by rw [Filters.returns, length_map]
  have hret : f'.returns c = f.returns c ++ added.map fun p => runProg p c.data := by
    rw [Filters.returns, ha, map_append]
    rfl
  rw [hlen, hret, drop_left]

/-- A severity comparison between two stacks of filters, one extending the other. -/
theorem extends_severity_iff {f f' : Filters} (h : Extends f f') (c : Call) :
    ((f.decide c).severity ≤ (f'.decide c).severity ∧
      ∀ prog ∈ f'.progs, Kills (runProg prog c.data) → f'.decide c ≠ .allow) ↔ Tightening f f' c := by
  have hkill : (∀ prog ∈ f'.progs, Kills (runProg prog c.data) → f'.decide c ≠ .allow) ↔
      ((∃ r ∈ f'.returns c, Kills r) → f'.decide c ≠ .allow) := by
    simp [Filters.returns]
  rw [hkill]
  unfold Tightening
  by_cases hs' : f'.strict = true
  · rw [if_pos hs']
    have hd' : f'.decide c = if c.nr ∈ strictCalls then .allow else .killProcess := by
      rw [decide_eq, if_pos hs']
    by_cases hnr : c.nr ∈ strictCalls
    · rw [hd', if_pos hnr, severity_allow, severity_eq_zero]
      have hd : f.decide c = .allow ↔ f.strict = true ∨ ¬ Restricts (f.returns c) := by
        rw [decide_eq, if_pos hnr, ← verdict_ne_allow, not_not]
        by_cases hs : f.strict = true <;> simp [hs]
      simp [hd, hnr]
    · rw [hd', if_neg hnr]
      exact iff_of_true ⟨severity_le _, fun _ => by decide⟩ fun hm => absurd hm hnr
  have hs : ¬ f.strict = true := fun hs => hs' (h.strict hs)
  have hd : f.decide c = verdict (f.returns c) := by rw [decide_eq, if_neg hs]
  have hd' : f'.decide c = verdict (f'.returns c) := by rw [decide_eq, if_neg hs']
  rw [if_neg hs', hd, hd', verdict_ne_allow]
  have happ := extends_returns h c
  have hsev := severity_append_iff (f.returns c) ((f'.returns c).drop f.progs.length)
  rw [← happ] at hsev
  rw [hsev]
  constructor
  · rintro ⟨hk | hu, hr⟩
    · exact .inl hk
    · exact .inr ⟨hu, hr⟩
  · rintro (hk | ⟨hu, hr⟩)
    · exact ⟨.inl hk, fun _ => .inl hk⟩
    · exact ⟨.inr hu, hr⟩

/-- After any sequence of installs and strict-mode requests the verdict on a call
is at least as severe as before, and a call that an installed program kills is
not allowed, exactly when the stack is tightening for that call. -/
theorem run_severity_iff (p : Process) (qs : List Request) (c : Call) :
    ((p.filters.decide c).severity ≤ ((p.run qs).filters.decide c).severity ∧
      ∀ prog ∈ (p.run qs).filters.progs, Kills (runProg prog c.data) →
        (p.run qs).filters.decide c ≠ .allow) ↔
    Tightening p.filters (p.run qs).filters c :=
  extends_severity_iff (run_extends qs p) c

/-- A process allowed to install filters, whose one program always returns `r`. -/
def returning (r : UInt32) : Process :=
  { noNewPrivs := true, seccomp := some { progs := [[⟨6, 0, 0, r⟩]] }, seccompActive := true }

/-- User memory that holds at 0x10000 a `sock_fprog` for one instruction, which
returns `r`. -/
def fprogMem (r : UInt32) : UserMem := fun addr =>
  (toLeBytes 8 1 ++ toLeBytes 8 0x10010 ++ toLeBytes 2 6 ++ [0, 0] ++ toLeBytes 4 r.toNat)[addr - 0x10000]?

def readCall : Call := { nr := 0, ip := 0x400000, args := fun _ => 0 }

/-- A kill whose return value has data bits loses to a later program that allows;
a trap loses to a later program that returns an undefined class; strict mode
permits the `read` that a program kills. -/
theorem run_loosens :
    ((returning 0x80000001).filters.decide readCall = .killProcess ∧
      ((returning 0x80000001).run [.installFilter (fprogMem retAllow) 0x10000]).filters.decide
        readCall = .allow) ∧
    ((returning retTrap).filters.decide readCall = .trap ∧
      ((returning retTrap).run [.installFilter (fprogMem 0x00010000) 0x10000]).filters.decide
        readCall = .allow) ∧
    ((returning retKillProcess).filters.decide readCall = .killProcess ∧
      ((returning retKillProcess).run [.setStrict]).filters.decide readCall = .allow) := by
  decide +kernel

end Fastros.Seccomp
