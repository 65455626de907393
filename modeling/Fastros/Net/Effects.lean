import Fastros.Net.Netfilter

/-!
# What a call does to flows and bans

Every call of the filter does one of three things to its tables. It drops
entries (`Wanes`), it drops entries and then bans one address (`Banned`), or it
accepts a packet and writes that packet's flow. `step_effect` says so for every
call; the results about connections and bans are case analyses over it.
-/

namespace Fastros.Net

open Lib.Checked List Firewall
open Option (bind_eq_some_iff filter_eq_some_iff map_eq_some_iff)
open Firewall (banLength)

/-- The settings no call of the filter changes. -/
def Firewall.settings (fw : Firewall) : Bool × Action × Nat × Protections :=
  (fw.enabled, fw.policyIn, fw.maxFlows, fw.protections)

/-- Nothing is added: flows and ban records are at most dropped, and the records
in `Kept` are not. -/
structure Wanes (Kept : Ip → Ban → Prop) (fw fw' : Firewall) : Prop where
  settings : fw'.settings = fw.settings
  flows : ∀ {k : FlowKey} {f : Flow}, fw'.flows[k]? = some f → fw.flows[k]? = some f
  size : fw'.flows.size ≤ fw.flows.size
  bans : ∀ {ip : Ip} {b : Ban}, fw'.bans[ip]? = some b → fw.bans[ip]? = some b
  kept : ∀ {ip : Ip} {b : Ban}, fw.bans[ip]? = some b → Kept ip b → fw'.bans[ip]? = some b

/-- `ip` is banned for `durationMs` from `now`, doubled for each earlier strike. -/
structure Banned (fw fw' : Firewall) (ip : Ip) (now durationMs : Nat) : Prop where
  settings : fw'.settings = fw.settings
  flows : ∀ {k : FlowKey} {f : Flow}, fw'.flows[k]? = some f → fw.flows[k]? = some f ∧ k.remoteEnd.1 ≠ ip
  size : fw'.flows.size ≤ fw.flows.size
  record : ∃ reason, fw'.bans[ip]? =
    some ⟨now + banLength durationMs (fw.bans[ip]?.elim 0 (·.strikes) + 1), reason,
      fw.bans[ip]?.elim 0 (·.strikes) + 1⟩
  others : ∀ {ip' : Ip}, ip' ≠ ip → fw'.bans[ip']? = fw.bans[ip']?

variable {Kept Kept' : Ip → Ban → Prop} {fw fw' fw'' : Firewall} {dir : Dir} {p : Packet}
  {now durationMs : Nat} {ip : Ip} {reason : String} {v : Verdict}
variable {fw0 : Firewall}

theorem Wanes.of_eq (hs : fw'.settings = fw.settings) (hf : fw'.flows = fw.flows)
    (hb : fw'.bans = fw.bans) : Wanes Kept fw fw' where
  settings := hs
  flows := by simp [hf]
  size := by simp [hf]
  bans := by simp [hb]
  kept h _ := by rwa [hb]

theorem Wanes.refl (fw : Firewall) : Wanes Kept fw fw := .of_eq rfl rfl rfl

theorem Wanes.trans (h : Wanes Kept fw fw') (h' : Wanes Kept fw' fw'') : Wanes Kept fw fw'' where
  settings := h'.settings.trans h.settings
  flows hf := h.flows (h'.flows hf)
  size := le_trans h'.size h.size
  bans hb := h.bans (h'.bans hb)
  kept hb hk := h'.kept (h.kept hb hk) hk

theorem Wanes.mono (h : Wanes Kept fw fw') (hk : ∀ ip b, Kept' ip b → Kept ip b) :
    Wanes Kept' fw fw' where
  settings := h.settings
  flows := h.flows
  size := h.size
  bans := h.bans
  kept hb hb' := h.kept hb (hk _ _ hb')

/-- The records that have not run out. -/
def Running (now : Nat) (_ : Ip) (b : Ban) : Prop := now < b.untilMs

theorem wanes_expire (fw : Firewall) (now : Nat) : Wanes (Running now) fw (fw.expire now) where
  settings := rfl
  flows hf := by
    simp only [expire, Std.TreeMap.getElem?_filter', filter_eq_some_iff] at hf
    exact hf.1
  size := Std.TreeMap.size_filter_le_size
  bans hb := by
    simp only [expire, Std.TreeMap.getElem?_filter', filter_eq_some_iff] at hb
    exact hb.1
  kept := by
    intro ip b hb hk
    simp [expire, filter_eq_some_iff, hb]
    exact hk

theorem wanes_erase_flow (fw : Firewall) (k : FlowKey) :
    Wanes Kept fw { fw with flows := fw.flows.erase k } where
  settings := rfl
  flows := by simp [Std.TreeMap.getElem?_erase]
  size := Std.TreeMap.size_erase_le
  bans := id
  kept hb _ := hb

theorem wanes_erase_ban (fw : Firewall) (hk : ∀ b, fw.bans[ip]? = some b → ¬ Kept ip b) :
    Wanes Kept fw { fw with bans := fw.bans.erase ip } where
  settings := rfl
  flows := id
  size := le_rfl
  bans := by simp [Std.TreeMap.getElem?_erase]
  kept := by
    intro ip' b hb hb'
    have hne : ip ≠ ip' := by
      rintro rfl
      exact hk b hb hb'
    simpa [Std.TreeMap.getElem?_erase, hne] using hb

theorem wanes_makeRoom (fw : Firewall) (now : Nat) : Wanes (Running now) fw (fw.makeRoom now) := by
  unfold makeRoom
  split
  · have he := wanes_expire fw now
    simp only
    split
    · split
      · exact he.trans (wanes_erase_flow _ _)
      · exact he
    · exact he
  · exact .refl fw

theorem stalest_mem {l : List (FlowKey × Flow)} {k : FlowKey} (h : stalest l = some k) :
    ∃ f, (k, f) ∈ l := by
  cases l with
  | nil => cases h
  | cons kf rest =>
    have hmem : ∀ (rest : List (FlowKey × Flow)) (m : FlowKey × Flow),
        rest.foldl (fun m x => if x.2.lastMs < m.2.lastMs then x else m) m ∈ m :: rest := by
      intro rest
      induction rest with
      | nil => simp
      | cons x rest ih =>
        intro m
        have hrest := ih (if x.2.lastMs < m.2.lastMs then x else m)
        simp only [foldl_cons]
        by_cases hx : x.2.lastMs < m.2.lastMs
        · simp only [hx, if_true] at hrest ⊢
          exact mem_cons_of_mem _ hrest
        simp only [hx, if_false] at hrest ⊢
        rcases mem_cons.mp hrest with h | h
        · rw [h]
          exact mem_cons_self
        · exact mem_cons_of_mem _ (mem_cons_of_mem _ h)
    cases h
    exact ⟨_, hmem rest kf⟩

theorem stalest_isSome {l : List (FlowKey × Flow)} (h : l ≠ []) : (stalest l).isSome := by
  cases l with
  | nil => exact absurd rfl h
  | cons kf rest => rfl

theorem makeRoom_size (fw : Firewall) (now : Nat) (hpos : 0 < fw.maxFlows)
    (hle : fw.flows.size ≤ fw.maxFlows) : (fw.makeRoom now).flows.size < fw.maxFlows := by
  unfold makeRoom
  split
  · have he : (fw.expire now).flows.size ≤ fw.maxFlows := le_trans (wanes_expire fw now).size hle
    have hm : (fw.expire now).maxFlows = fw.maxFlows := rfl
    simp only [hm]
    split
    · next hfull =>
      have hlen : (fw.expire now).flows.toList ≠ [] := by
        intro h0
        have := Std.TreeMap.length_toList (t := (fw.expire now).flows)
        simp only [h0, length_nil] at this
        omega
      split
      · next k hk =>
        obtain ⟨f, hf⟩ := stalest_mem hk
        have hin : (fw.expire now).flows.contains k = true := by
          rw [Std.TreeMap.contains_eq_isSome_getElem?,
            Std.TreeMap.mem_toList_iff_getElem?_eq_some.mp hf]
          rfl
        simp only [Std.TreeMap.size_erase, hin, if_true]
        omega
      · next hk =>
        have := stalest_isSome hlen
        simp [hk] at this
    · omega
  · omega

theorem ban_effect {dur : Nat} (h : fw.ban ip now durationMs reason = some (dur, fw')) :
    (fw.allowlisted ip ∨ ip ∈ fw.localIps) ∧ fw' = fw ∨
      ¬ (fw.allowlisted ip ∨ ip ∈ fw.localIps) ∧ Banned fw fw' ip now durationMs := by
  unfold ban at h
  split at h
  · next hr =>
    cases h
    exact .inl ⟨hr, rfl⟩
  next hr =>
  simp only [bind, bind_eq_some_iff, add_eq_some] at h
  obtain ⟨_, ⟨_, rfl⟩, _, ⟨_, rfl⟩, _, _, h⟩ := h
  cases h
  refine .inr ⟨hr, rfl, ?_, Std.TreeMap.size_filter_le_size, ⟨reason, by simp⟩, ?_⟩
  · intro k f hf
    simp only [Std.TreeMap.getElem?_filter', filter_eq_some_iff, bne_iff_ne] at hf
    exact hf
  · intro ip' hne
    simp [Std.TreeMap.getElem?_insert, Ne.symm hne]

/-- A refused packet is recorded, or its source is banned. -/
theorem noteRefused_effect (h : fw.noteRefused p now = some fw') :
    (fw'.settings = fw.settings ∧ fw'.flows = fw.flows ∧ fw'.bans = fw.bans) ∨
      fw.protections.scanPorts ≤ (fw.scanned p.src p.dport now).ports.length ∧
        Banned fw fw' p.src now fw.protections.scanBanMs := by
  unfold noteRefused at h
  split at h
  · cases h
    exact .inl ⟨rfl, rfl, rfl⟩
  simp only at h
  split at h
  · next hscan =>
    simp only [bind, bind_eq_some_iff] at h
    obtain ⟨detected, _, ⟨dur, fw1⟩, hban, h⟩ := h
    cases h
    rcases ban_effect hban with ⟨_, rfl⟩ | ⟨_, hb⟩
    · exact .inl ⟨rfl, rfl, rfl⟩
    · exact .inr ⟨hscan, hb.settings, hb.flows, hb.size, hb.record, hb.others⟩
  · cases h
    exact .inl ⟨rfl, rfl, rfl⟩

/-- Some rule that accepts matches the packet. -/
def Firewall.AcceptRule (fw : Firewall) (dir : Dir) (p : Packet) : Prop :=
  ∃ r ∈ fw.rules, r.matches dir p ∧ r.action = .accept

instance (fw : Firewall) (dir : Dir) (p : Packet) : Decidable (fw.AcceptRule dir p) :=
  inferInstanceAs (Decidable (∃ r ∈ fw.rules, r.matches dir p ∧ r.action = .accept))

/-- The default action of a direction. -/
def Firewall.policy (fw : Firewall) (dir : Dir) : Action :=
  if dir = .inbound then fw.policyIn else fw.policyOut

/-- The packet belongs to a flow that has not timed out. -/
def Firewall.Known (fw : Firewall) (dir : Dir) (p : Packet) (now : Nat) : Prop :=
  ∃ f, fw.flows[flowKey dir p]? = some f ∧ now - f.lastMs ≤ flowTimeout (flowKey dir p).proto f

/-- What deciding over a packet does. -/
inductive Outcome (fw : Firewall) (dir : Dir) (p : Packet) (now : Nat) : Verdict → Firewall → Prop
  | dropped {r fw'} (h : Wanes (Running now) fw fw') : Outcome fw dir p now (.drop r) fw'
  | punished {r mid fw'} (h : Wanes (Running now) fw mid) (hdir : dir = .inbound)
      (hrun : ∀ b, fw.bans[p.src]? = some b → b.untilMs ≤ now) (hnone : mid.bans[p.src]? = none)
      (hban : Banned mid fw' p.src now fw.protections.scanBanMs) :
      Outcome fw dir p now (.drop r) fw'
  | accepted {mid f fw'} (h : Wanes (Running now) fw mid)
      (hrun : ∀ b, fw.bans[Firewall.remoteIp dir p]? = some b → b.untilMs ≤ now)
      (hwhy : fw.Known dir p now ∨ fw.AcceptRule dir p ∨ fw.policy dir = .accept)
      (hroom : 0 < fw.maxFlows → fw.flows.size ≤ fw.maxFlows → mid.flows.size < fw.maxFlows ∨
        (mid.flows[flowKey dir p]?).isSome ∧ mid.flows.size ≤ fw.maxFlows)
      (hlast : f.lastMs = now) (hset : fw'.settings = mid.settings) (hbans : fw'.bans = mid.bans)
      (hflows : fw'.flows = mid.flows.insert (flowKey dir p) f) :
      Outcome fw dir p now .accept fw'

/-- Something that waned before the decision changes nothing about its outcome,
if it found no running ban of the remote address. -/
theorem Outcome.wanes (h0 : Wanes (Running now) fw0 fw)
    (hrules : fw.rules = fw0.rules) (hpol : fw.policyOut = fw0.policyOut)
    (hrun : ∀ b, fw0.bans[remoteIp dir p]? = some b → b.untilMs ≤ now)
    (h : Outcome fw dir p now v fw') : Outcome fw0 dir p now v fw' := by
  have hset := h0.settings
  simp only [settings, Prod.mk.injEq] at hset
  cases h with
  | dropped h => exact .dropped (h0.trans h)
  | punished h hdir _ hnone hban =>
    rw [hset.2.2.2] at hban
    refine .punished (h0.trans h) hdir ?_ hnone hban
    simpa [remoteIp, hdir] using hrun
  | accepted h _ hwhy hroom hlast hs hb hf =>
    refine .accepted (h0.trans h) hrun ?_ ?_ hlast hs hb hf
    · rcases hwhy with ⟨f, hf, ht⟩ | hrule | hpolicy
      · exact .inl ⟨f, h0.flows hf, ht⟩
      · exact .inr (.inl (by rwa [Firewall.AcceptRule, ← hrules]))
      · exact .inr (.inr (by rwa [policy, ← hset.2.1, ← hpol]))
    · rw [← hset.2.2.1]
      exact fun hpos hle => hroom hpos (le_trans h0.size hle)

theorem take_action {r r' : Rule} {ok : Bool} (h : r.take now = some (ok, r')) :
    r'.action = r.action := by
  unfold Rule.take at h
  split at h
  · cases h
    rfl
  · simp only [map_eq_some_iff, Prod.mk.injEq] at h
    obtain ⟨_, _, _, rfl⟩ := h
    rfl

theorem firstRule_accepts {i : Nat} {rules rules' : List Rule} {reason : Reason}
    (h : firstRule dir p now i rules = some (some (.accept, reason), rules')) :
    ∃ r ∈ rules, r.matches dir p ∧ r.action = .accept := by
  induction rules generalizing i rules' with
  | nil => cases h
  | cons r rs ih =>
    unfold firstRule at h
    split at h
    · next hm =>
      simp only [bind, bind_eq_some_iff] at h
      obtain ⟨⟨ok, r1⟩, htake, h⟩ := h
      split at h
      · simp only [bind_eq_some_iff] at h
        obtain ⟨_, _, _, _, h⟩ := h
        simp only [Option.some.injEq, Prod.mk.injEq] at h
        exact ⟨r, by simp, hm, (take_action htake).symm.trans h.1.1⟩
      · simp only [bind_eq_some_iff] at h
        obtain ⟨⟨d, rest⟩, hrest, h⟩ := h
        cases h
        obtain ⟨r', hr', hacc⟩ := ih hrest
        exact ⟨r', mem_cons_of_mem _ hr', hacc⟩
    · simp only [bind, bind_eq_some_iff] at h
      obtain ⟨⟨d, rest⟩, hrest, h⟩ := h
      cases h
      obtain ⟨r', hr', hacc⟩ := ih hrest
      exact ⟨r', mem_cons_of_mem _ hr', hacc⟩

/-- An accepted packet of no known flow opens one. -/
theorem outcome_track (h0 : Wanes (Running now) fw0 fw)
    (hrun : ∀ b, fw0.bans[remoteIp dir p]? = some b → b.untilMs ≤ now)
    (hwhy : fw0.AcceptRule dir p ∨ fw0.policy dir = .accept) :
    Outcome fw0 dir p now .accept (fw.track (flowKey dir p) dir p now) := by
  refine .accepted (h0.trans (wanes_makeRoom fw now)) hrun (.inr hwhy) ?_ rfl rfl rfl rfl
  intro hpos hle
  have hm : fw.maxFlows = fw0.maxFlows := congrArg (·.2.2.1) h0.settings
  rw [← hm] at hpos hle ⊢
  exact .inl (makeRoom_size fw now hpos (le_trans h0.size hle))

theorem admitNew_effect (h0 : Wanes (Running now) fw0 fw)
    (hrun : ∀ b, fw0.bans[remoteIp dir p]? = some b → b.untilMs ≤ now)
    (hwhy : fw0.AcceptRule dir p ∨ fw0.policy dir = .accept)
    (h : fw.admitNew dir p now = some (v, fw')) : Outcome fw0 dir p now v fw' := by
  unfold admitNew at h
  split at h
  · simp only [bind, bind_eq_some_iff] at h
    obtain ⟨taken, _, h⟩ := h
    split at h
    · cases h
      exact outcome_track (h0.trans (.of_eq rfl rfl rfl)) hrun hwhy
    simp only [bind_eq_some_iff] at h
    obtain ⟨n, _, h⟩ := h
    cases h
    exact .dropped (h0.trans (.of_eq rfl rfl rfl))
  · cases h
    exact outcome_track h0 hrun hwhy

theorem decideNew_effect (hnone : fw.bans[remoteIp dir p]? = none)
    (h : fw.decideNew dir p now = some (v, fw')) : Outcome fw dir p now v fw' := by
  unfold decideNew at h
  split at h
  · cases h
    exact .dropped (.refl fw)
  simp only [bind, bind_eq_some_iff] at h
  obtain ⟨⟨found, rules⟩, hfound, h⟩ := h
  split at h
  · split at h
    · next hdir =>
      simp only [bind_eq_some_iff] at h
      obtain ⟨fw1, hnote, h⟩ := h
      cases h
      have hsrc : fw.bans[p.src]? = none := by simpa [remoteIp, hdir] using hnone
      rcases noteRefused_effect hnote with ⟨hs, hf, hb⟩ | ⟨hscan, hban⟩
      · exact .dropped (.of_eq hs hf hb)
      · have hw : Wanes (Running now) fw { fw with rules } := .of_eq rfl rfl rfl
        exact .punished hw hdir (by simp [hsrc]) hsrc hban
    · cases h
      exact .dropped (.of_eq rfl rfl rfl)
  · next hacc =>
    have hwhy : fw.AcceptRule dir p ∨ fw.policy dir = .accept := by
      cases found with
      | none => exact .inr hacc
      | some d =>
        obtain ⟨action, reason⟩ := d
        cases (show action = .accept from hacc)
        exact .inl (firstRule_accepts hfound)
    have hw : Wanes (Running now) fw { fw with rules } := .of_eq rfl rfl rfl
    exact admitNew_effect hw (by simp [hnone]) hwhy h

theorem decideFlow_effect (hnone : fw.bans[remoteIp dir p]? = none)
    (h : fw.decideFlow dir p now = some (v, fw')) : Outcome fw dir p now v fw' := by
  unfold decideFlow at h
  split at h
  · next f hf =>
    split at h
    · next ht =>
      simp only [bind, bind_eq_some_iff] at h
      obtain ⟨f', hf', h⟩ := h
      cases h
      have hlast : f'.lastMs = now := by
        simp only [refresh, bind, bind_eq_some_iff] at hf'
        obtain ⟨_, _, _, _, hf'⟩ := hf'
        cases hf'
        rfl
      refine .accepted (.refl fw) (by simp [hnone]) (.inl ⟨f, hf, ht⟩) ?_ hlast rfl rfl rfl
      exact fun _ hle => .inr ⟨by simp [hf], hle⟩
    · have ho : Outcome { fw with flows := fw.flows.erase (flowKey dir p) } dir p now v fw' :=
        decideNew_effect hnone h
      exact ho.wanes (wanes_erase_flow fw _) rfl rfl (by simp [hnone])
  · exact decideNew_effect hnone h

/-- What `decide` does when the filter is on. -/
theorem decide_effect (hon : fw.enabled = true) (h : fw.decide dir p now = some (v, fw')) :
    Outcome fw dir p now v fw' := by
  unfold Firewall.decide at h
  rw [if_neg (by simp [hon])] at h
  split at h
  · split at h
    · simp only [bind, bind_eq_some_iff] at h
      obtain ⟨n, _, h⟩ := h
      cases h
      exact .dropped (.of_eq rfl rfl rfl)
    · cases h
      exact .dropped (.refl fw)
  split at h
  · next b hb =>
    split at h
    · simp only [bind, bind_eq_some_iff] at h
      obtain ⟨n, _, h⟩ := h
      cases h
      exact .dropped (.of_eq rfl rfl rfl)
    next hout =>
    -- the record has run out and is thrown away
    have hover : ∀ b', fw.bans[Firewall.remoteIp dir p]? = some b' → b'.untilMs ≤ now := by
      intro b' hb'
      rw [hb] at hb'
      cases hb'
      omega
    refine (decideFlow_effect (by simp) h).wanes (wanes_erase_ban fw ?_) rfl rfl hover
    intro b' hb' hrun
    have := hover b' hb'
    unfold Running at hrun
    omega
  · next hnone => exact decideFlow_effect hnone h

/-- Counting and logging leave the tables alone. -/
theorem check_effect (hon : fw.enabled = true) (h : fw.check dir p now = some (v, fw')) :
    Outcome fw dir p now v fw' := by
  simp only [check, bind, bind_eq_some_iff] at h
  obtain ⟨⟨v1, fw1⟩, hd, h⟩ := h
  have ho := decide_effect hon hd
  cases v1 with
  | accept =>
    simp only [bind_eq_some_iff] at h
    obtain ⟨counters, _, h⟩ := h
    cases h
    cases ho with
    | accepted h hrun hwhy hroom hlast hs hb hf =>
      exact .accepted h hrun hwhy hroom hlast hs hb hf
  | drop r =>
    simp only [bind_eq_some_iff] at h
    obtain ⟨counters, _, h⟩ := h
    cases h
    cases ho with
    | dropped h => exact .dropped (h.trans (.of_eq rfl rfl rfl))
    | punished h hdir hrun hnone hban =>
      exact .punished h hdir hrun hnone
        ⟨hban.settings, hban.flows, hban.size, hban.record, hban.others⟩

/-- The packet a call brings. -/
def Call.packet : Call → Option (Dir × Packet × Nat)
  | .check dir p now => some (dir, p, now)
  | .checkFrame dir frame now =>
    match parseEthernet frame with
    | .ipv4 p => some (dir, p, now)
    | _ => none
  | _ => none

/-- The call brings a packet of the flow `k` at time `t`, and it is accepted. -/
def Call.Accepts (c : Call) (s : System) (k : FlowKey) (t : Nat) : Prop :=
  ∃ dir p fw', c.packet = some (dir, p, t) ∧ flowKey dir p = k ∧
    s.fw.check dir p t = some (.accept, fw')

/-- The ban a call asks for, from a record of offences that has come to its limit
or on request: when, on whom and for how long. -/
def System.sentence (s : System) : Call → Option (Nat × Ip × Nat)
  | .ban ip now durationMs _ => some (now, ip, durationMs)
  | .noteRefused p now =>
    if s.fw.protections.scanPorts ≤ (s.fw.scanned p.src p.dport now).ports.length then
      some (now, p.src, s.fw.protections.scanBanMs)
    else none
  | .authFailure ip now later =>
    if (s.authEntry ip now).any (authFailLimit ≤ ·.2 + 1) then some (later, ip, authBanMs) else none
  | _ => none

/-- The clock readings by which a call throws run-out records away. -/
def Call.sweeps : Call → List Nat
  | .check _ _ now => [now]
  | .checkFrame _ _ now => [now]
  | .expire now => [now]
  | _ => []

/-- The records a call has no reason to drop. -/
def Spared (c : Call) (ip : Ip) (b : Ban) : Prop := c ≠ .unban ip ∧ ∀ t ∈ c.sweeps, t < b.untilMs

/-- What a call does. -/
inductive Effect (c : Call) (s s' : System) : Prop
  | wanes (h : Wanes (Spared c) s.fw s'.fw) (hno : ∀ k t, ¬ c.Accepts s k t)
  | bans {mid ip now durationMs} (h : Wanes (Spared c) s.fw mid)
      (hwhy : s.sentence c = some (now, ip, durationMs) ∧ mid.bans[ip]? = s.fw.bans[ip]? ∨
        ∃ p, c.packet = some (.inbound, p, now) ∧ ip = p.src ∧
          durationMs = s.fw.protections.scanBanMs ∧ now ∈ c.sweeps ∧ mid.bans[ip]? = none ∧
          ∀ b, s.fw.bans[ip]? = some b → b.untilMs ≤ now)
      (hban : Banned mid s'.fw ip now durationMs) (hno : ∀ k t, ¬ c.Accepts s k t)
  | accepts {dir p now mid f} (hc : c.packet = some (dir, p, now)) (h : Wanes (Spared c) s.fw mid)
      (hrun : ∀ b, s.fw.bans[Firewall.remoteIp dir p]? = some b → b.untilMs ≤ now)
      (hacc : ∃ fw', s.fw.check dir p now = some (.accept, fw'))
      (hroom : 0 < s.fw.maxFlows → s.fw.flows.size ≤ s.fw.maxFlows →
        mid.flows.size < s.fw.maxFlows ∨
          (mid.flows[flowKey dir p]?).isSome ∧ mid.flows.size ≤ s.fw.maxFlows)
      (hlast : f.lastMs = now) (hset : s'.fw.settings = mid.settings)
      (hbans : s'.fw.bans = mid.bans) (hflows : s'.fw.flows = mid.flows.insert (flowKey dir p) f)

variable {c : Call} {s s' : System}

theorem not_accepts (h : c.packet = none) (k : FlowKey) (t : Nat) : ¬ c.Accepts s k t := by
  rintro ⟨dir, p, fw', hc, _⟩
  rw [h] at hc
  cases hc

/-- The effect of a call that brings a packet is the outcome of the decision. -/
theorem packet_effect (hon : s.fw.enabled = true) (hc : c.packet = some (dir, p, now))
    (htime : now ∈ c.sweeps) (h : s.fw.check dir p now = some (v, s'.fw)) : Effect c s s' := by
  have hspare : ∀ {fw1}, Wanes (Running now) s.fw fw1 → Wanes (Spared c) s.fw fw1 :=
    fun hw => hw.mono fun _ _ hs => hs.2 now htime
  have hdrop : v ≠ .accept → ∀ k t, ¬ c.Accepts s k t := by
    rintro hv k t ⟨dir', p', fw', hc', _, hacc⟩
    rw [hc] at hc'
    cases hc'
    rw [h] at hacc
    cases hacc
    exact hv rfl
  cases check_effect hon h with
  | dropped hw => exact .wanes (hspare hw) (hdrop (by simp))
  | punished hw hdir hrun hnone hban =>
    subst hdir
    exact .bans (hspare hw) (.inr ⟨p, hc, rfl, rfl, htime, hnone, hrun⟩) hban (hdrop (by simp))
  | accepted hw hrun _ hroom hlast hset hbans hflows =>
    exact .accepts hc (hspare hw) hrun ⟨_, h⟩ hroom hlast hset hbans hflows

theorem ban_call_effect {dur : Nat} (hc : c.packet = none)
    (hwhy : s.sentence c = some (now, ip, durationMs))
    (h : s.fw.ban ip now durationMs reason = some (dur, s'.fw)) : Effect c s s' := by
  rcases ban_effect h with ⟨_, hsame⟩ | ⟨_, hban⟩
  · exact .wanes (hsame ▸ .refl _) (not_accepts hc)
  · exact .bans (.refl _) (.inl ⟨hwhy, rfl⟩) hban (not_accepts hc)

theorem step_effect (hon : s.fw.enabled = true) (h : step c s = some s') : Effect c s s' := by
  cases c with
  | check dir p now =>
    simp only [step, map_eq_some_iff] at h
    obtain ⟨⟨v, fw⟩, hcheck, rfl⟩ := h
    exact packet_effect hon rfl (by simp [Call.sweeps]) hcheck
  | checkFrame dir frame now =>
    simp only [step, map_eq_some_iff] at h
    obtain ⟨⟨v, fw⟩, hcheck, rfl⟩ := h
    simp only [checkFrame] at hcheck
    split at hcheck
    · next p hp =>
      exact packet_effect hon (by simp [Call.packet, hp]) (by simp [Call.sweeps]) hcheck
    · next hp =>
      simp only [bind, bind_eq_some_iff] at hcheck
      obtain ⟨_, _, _, _, hcheck⟩ := hcheck
      cases hcheck
      exact .wanes (.of_eq rfl rfl rfl) (not_accepts (by simp [Call.packet, hp]))
    · next hp =>
      cases hcheck
      exact .wanes (.refl _) (not_accepts (by simp [Call.packet, hp]))
    · next hp =>
      cases hcheck
      exact .wanes (.refl _) (not_accepts (by simp [Call.packet, hp]))
  | noteRefused p now =>
    simp only [step, map_eq_some_iff] at h
    obtain ⟨fw, hnote, rfl⟩ := h
    rcases noteRefused_effect hnote with ⟨hs, hf, hb⟩ | ⟨hscan, hban⟩
    · exact .wanes (.of_eq hs hf hb) (not_accepts rfl)
    · exact .bans (.refl _) (.inl ⟨by simp [System.sentence, hscan], rfl⟩) hban (not_accepts rfl)
  | ban ip now durationMs reason =>
    simp only [step, map_eq_some_iff] at h
    obtain ⟨⟨dur, fw⟩, hban, rfl⟩ := h
    exact ban_call_effect rfl rfl hban
  | unban ip =>
    cases h
    exact .wanes (wanes_erase_ban s.fw fun b _ hs => hs.1 rfl) (not_accepts rfl)
  | expire now =>
    cases h
    exact .wanes ((wanes_expire s.fw now).mono fun _ _ hs => hs.2 now (by simp [Call.sweeps]))
      (not_accepts rfl)
  | authFailure ip now later =>
    simp only [step, System.authFailure, bind, bind_eq_some_iff] at h
    obtain ⟨e, he, n, hn, h⟩ := h
    obtain ⟨_, rfl⟩ := add_eq_some.mp hn
    split at h
    · next hlimit =>
      simp only [bind_eq_some_iff] at h
      obtain ⟨⟨dur, fw⟩, hban, h⟩ := h
      cases h
      exact ban_call_effect rfl (by simp [System.sentence, he, hlimit]) hban
    · cases h
      exact .wanes (.refl _) (not_accepts rfl)
  | takeLog | setLocalIps | setRules | setAllowlist =>
    cases h
    exact .wanes (.of_eq rfl rfl rfl) (not_accepts rfl)
  | authSuccess ip =>
    cases h
    exact .wanes (.refl _) (not_accepts rfl)

/-- No call changes the settings. -/
theorem step_settings (hon : s.fw.enabled = true) (h : step c s = some s') :
    s'.fw.settings = s.fw.settings := by
  cases step_effect hon h with
  | wanes hw => exact hw.settings
  | bans hw _ hban => exact hban.settings.trans hw.settings
  | accepts _ hw _ _ _ _ hset => exact hset.trans hw.settings

end Fastros.Net
