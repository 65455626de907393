import Fastros.Net.Effects

/-!
# Connection tracking over whole histories

A filter whose inbound default is to drop accepts an inbound packet that no rule
accepts only on the strength of an earlier accepted packet of the same flow. The
flow was written by that packet and by no later one, its timeout has not passed
since, and its remote address was not banned in between. The table of flows never
outgrows its bound.
-/

namespace Fastros.Net

open Lib.Run

/-- A filter fresh from `with_defaults`, with the settings its owner may choose.
The inbound default stays to drop. -/
def start (rules : List Rule) (policyOut : Action) (protections : Protections)
    (localIps : List Ip) (allowlist : List Cidr) (logDrops : Bool) : System where
  fw := { Firewall.withDefaults with rules, policyOut, protections, localIps, allowlist, logDrops }
  authFails := ∅

/-- The call leaves `ip` with a new ban record. -/
def Imposed (s s' : System) (ip : Ip) (b : Ban) : Prop :=
  s'.fw.bans[ip]? = some b ∧ s.fw.bans[ip]? ≠ some b

variable {c : Call} {s s' : System} {k : FlowKey} {f : Flow}

/-- A flow found after a call was there before it, untouched, or was written by
the packet the call brought. -/
theorem step_flow (hon : s.fw.enabled = true) (h : step c s = some s')
    (hf : s'.fw.flows[k]? = some f) :
    c.Accepts s k f.lastMs ∨ s.fw.flows[k]? = some f ∧ (∀ t, ¬ c.Accepts s k t) ∧
      ∀ b, ¬ Imposed s s' k.remoteEnd.1 b := by
  cases step_effect hon h with
  | wanes hw hno =>
    refine .inr ⟨hw.flows hf, hno k, fun b hb => ?_⟩
    exact hb.2 (hw.bans hb.1)
  | bans hw _ hban hno =>
    obtain ⟨hmid, hne⟩ := hban.flows hf
    refine .inr ⟨hw.flows hmid, hno k, fun b hb => ?_⟩
    have hold := hb.1
    rw [hban.others hne] at hold
    exact hb.2 (hw.bans hold)
  | @accepts dir p now mid f1 hc hw _ hacc _ hlast _ hbans hflows =>
    by_cases hk : flowKey dir p = k
    · rw [hflows, hk, Std.TreeMap.getElem?_insert_self] at hf
      cases hf
      obtain ⟨fw', hacc⟩ := hacc
      rw [hlast]
      exact .inl ⟨dir, p, fw', hc, hk, hacc⟩
    rw [hflows, Std.TreeMap.getElem?_insert, if_neg (by simpa using hk)] at hf
    refine .inr ⟨hw.flows hf, ?_, fun b hb => ?_⟩
    · rintro t ⟨dir', p', fw', hc', hk', _⟩
      rw [hc] at hc'
      cases hc'
      exact hk hk'
    · have hold := hb.1
      rw [hbans] at hold
      exact hb.2 (hw.bans hold)

/-- No call lets the table outgrow its bound. -/
theorem step_size (hon : s.fw.enabled = true) (hpos : 0 < s.fw.maxFlows)
    (hle : s.fw.flows.size ≤ s.fw.maxFlows) (h : step c s = some s') :
    s'.fw.flows.size ≤ s.fw.maxFlows := by
  cases step_effect hon h with
  | wanes hw => exact Nat.le_trans hw.size hle
  | bans hw _ hban => exact Nat.le_trans hban.size (Nat.le_trans hw.size hle)
  | accepts _ _ _ _ hroom _ _ _ hflows =>
    rw [hflows, Std.TreeMap.size_insert]
    rcases hroom hpos hle with hlt | ⟨hin, hle'⟩
    · split <;> omega
    · rw [if_pos (by rwa [Std.TreeMap.contains_eq_isSome_getElem?])]
      exact hle'

/-- The settings and the bound along a run. -/
structure Tracks (s : System) : Prop where
  enabled : s.fw.enabled = true
  policyIn : s.fw.policyIn = .drop
  maxFlows : s.fw.maxFlows = 32768
  size : s.fw.flows.size ≤ s.fw.maxFlows

theorem step_tracks (ht : Tracks s) (h : step c s = some s') : Tracks s' := by
  have hset := step_settings ht.enabled h
  simp only [Firewall.settings, Prod.mk.injEq] at hset
  obtain ⟨hen, hpol, hmax, _⟩ := hset
  have := step_size ht.enabled (by simp [ht.maxFlows]) ht.size h
  exact ⟨hen.trans ht.enabled, hpol.trans ht.policyIn, hmax.trans ht.maxFlows, by rwa [hmax]⟩

theorem tracks_start (rules : List Rule) (policyOut : Action) (protections : Protections)
    (localIps : List Ip) (allowlist : List Cidr) (logDrops : Bool) :
    Tracks (start rules policyOut protections localIps allowlist logDrops) :=
  ⟨rfl, rfl, rfl, Nat.zero_le _⟩

/-- An earlier reading of a steady clock is not later. -/
theorem steady_le {pre post : List Call} {d : Call} {t now : Nat}
    (h : Steady (pre ++ c :: post ++ [d])) (ht : t ∈ c.times) (hnow : now ∈ d.times) : t ≤ now := by
  unfold Steady at h
  rw [List.flatMap_append, List.pairwise_append] at h
  refine h.2.2 t ?_ now (by simpa using hnow)
  simp only [List.flatMap_append, List.flatMap_cons, List.mem_append]
  exact .inr (.inl ht)

theorem packet_times {dir : Dir} {p : Packet} {t : Nat} (h : c.packet = some (dir, p, t)) :
    t ∈ c.times := by
  cases c with
  | check dir p now =>
    cases h
    simp [Call.times]
  | checkFrame dir frame now =>
    simp only [Call.packet] at h
    split at h
    · cases h
      simp [Call.times]
    · cases h
  | _ => cases h

/-- Stateful filtering is sound. An inbound packet that no rule accepts passes
only after an accepted packet of the same flow at a time `t`, since when the flow
was not written again, its timeout did not pass and its remote address was not
banned. The number of flows stays within the bound. -/
theorem inbound_tracked {rules : List Rule} {policyOut : Action} {protections : Protections}
    {localIps : List Ip} {allowlist : List Cidr} {logDrops : Bool} {calls : List Call} {s : System}
    (hrun : runs step calls (start rules policyOut protections localIps allowlist logDrops) = some s) :
    s.fw.flows.size ≤ s.fw.maxFlows ∧
      ∀ p now fw', Steady (calls ++ [.check .inbound p now]) →
        s.fw.check .inbound p now = some (.accept, fw') → ¬ s.fw.AcceptRule .inbound p →
        ∃ pre c post s₁ s₂ t f, calls = pre ++ c :: post ∧
          runs step pre (start rules policyOut protections localIps allowlist logDrops) = some s₁ ∧
          step c s₁ = some s₂ ∧ runs step post s₂ = some s ∧
          c.Accepts s₁ (flowKey .inbound p) t ∧ s₂.fw.flows[flowKey .inbound p]? = some f ∧
          f.lastMs = t ∧ t ≤ now ∧ now - t ≤ flowTimeout p.proto.number f ∧
          Throughout step (fun u d => ∀ u', step d u = some u' →
            (∀ t', ¬ d.Accepts u (flowKey .inbound p) t') ∧ ∀ b, ¬ Imposed u u' p.src b) post s₂ := by
  have ht : Tracks s :=
    runs_invariant (fun _ _ _ hs h => step_tracks hs h) calls _ s (tracks_start ..) hrun
  refine ⟨ht.size, fun p now fw' hsteady hcheck hrule => ?_⟩
  cases check_effect ht.enabled hcheck with
  | accepted _ _ hwhy =>
    have hknown : s.fw.Known .inbound p now := by
      rcases hwhy with hk | hr | hp
      · exact hk
      · exact absurd hr hrule
      · simp [Firewall.policy, ht.policyIn] at hp
    obtain ⟨f, hf, htime⟩ := hknown
    have hempty : (start rules policyOut protections localIps allowlist logDrops).fw.flows[flowKey
        .inbound p]? ≠ some f := by
      simp [start, Firewall.withDefaults]
    have hstep : ∀ u d u', Tracks u → step d u = some u' →
        u'.fw.flows[flowKey .inbound p]? = some f →
        d.Accepts u (flowKey .inbound p) f.lastMs ∨ u.fw.flows[flowKey .inbound p]? = some f ∧
          (∀ t', ¬ d.Accepts u (flowKey .inbound p) t') ∧ ∀ b, ¬ Imposed u u' p.src b :=
      fun u d u' hu h hf' => step_flow hu.enabled h hf'
    obtain ⟨pre, c, post, s₁, s₂, rfl, hpre, hc, hpost, hmade, hs2, hall⟩ :=
      runs_since (fun _ _ _ hs h => step_tracks hs h) hstep calls (tracks_start ..) hempty hrun hf
    refine ⟨pre, c, post, s₁, s₂, f.lastMs, f, rfl, hpre, hc, hpost, hmade, hs2, rfl, ?_, htime, hall⟩
    obtain ⟨dir', p', fw1, hpacket, _⟩ := hmade
    exact steady_le hsteady (packet_times hpacket) (by simp [Call.times])

def me : Ip := #v[10, 0, 2, 15]
def peer : Ip := #v[93, 184, 216, 34]

def tcp (src dst : Ip) (sport dport : UInt16) (flags : UInt8) : Packet :=
  ⟨src, dst, .tcp, sport, dport, flags, 0, 60, false⟩

def synOut : Packet := tcp me peer 40000 443 Tcpf.syn
def synAck : Packet := tcp peer me 443 40000 (Tcpf.syn ||| Tcpf.ack)

/-- A filter as the kernel starts it, before it knows its own addresses. -/
def booted : System := start Firewall.withDefaults.rules .accept {} [] [] true

/-- The answer to a connection this host opened passes on the strength of the
packet that opened it. -/
theorem inbound_tracked_answer :
    ∃ s fw', runs step [.check .outbound synOut 1] booted = some s ∧
      s.fw.check .inbound synAck 2 = some (.accept, fw') ∧ s.fw.flows.size ≤ s.fw.maxFlows ∧
      ∃ pre c post s₁ t, [Call.check .outbound synOut 1] = pre ++ c :: post ∧
        runs step pre booted = some s₁ ∧ c.Accepts s₁ (flowKey .inbound synAck) t ∧ t ≤ 2 := by
  have heval : ((runs step [.check .outbound synOut 1] booted).bind fun s =>
      (s.fw.check .inbound synAck 2).map fun r =>
        decide (r.1 = .accept ∧ ¬ s.fw.AcceptRule .inbound synAck)) = some true := by
    decide +kernel
  simp only [Option.bind_eq_some_iff, Option.map_eq_some_iff, decide_eq_true_eq] at heval
  obtain ⟨s, hs, ⟨v, fw'⟩, hcheck, rfl, hrule⟩ := heval
  have htracked := inbound_tracked hs
  obtain ⟨pre, c, post, s₁, s2, t, f, hsplit, hpre, _, _, hacc, _, _, hle, _⟩ :=
    htracked.2 synAck 2 fw' (by decide) hcheck hrule
  exact ⟨s, fw', hs, hcheck, htracked.1, pre, c, post, s₁, t, hsplit, hpre, hacc, hle⟩

/-- A ban of the local address of a flow, which the filter does not know for its
own, stops neither the flow nor the answers that come in on it. -/
theorem local_ban_passes :
    ∃ s₁ s₂ fw', step (.check .outbound synOut 1) booted = some s₁ ∧
      step (.ban synAck.dst 2 600000 "manual ban") s₁ = some s₂ ∧
      (∃ b, Imposed s₁ s₂ synAck.dst b) ∧ ¬ s₂.fw.AcceptRule .inbound synAck ∧
      s₂.fw.check .inbound synAck 3 = some (.accept, fw') := by
  have heval : ((step (.check .outbound synOut 1) booted).bind fun s₁ =>
      (step (.ban synAck.dst 2 600000 "manual ban") s₁).bind fun s₂ =>
        (s₂.fw.check .inbound synAck 3).map fun r =>
          decide ((s₂.fw.bans[synAck.dst]? = some ⟨600002, "manual ban", 1⟩ ∧
            s₁.fw.bans[synAck.dst]? = none) ∧ ¬ s₂.fw.AcceptRule .inbound synAck ∧
            r.1 = .accept)) = some true := by
    decide +kernel
  simp only [Option.bind_eq_some_iff, Option.map_eq_some_iff, decide_eq_true_eq] at heval
  obtain ⟨s₁, hs1, s₂, hs2, ⟨v, fw'⟩, hcheck, ⟨hnew, hold⟩, hrule, rfl⟩ := heval
  exact ⟨s₁, s₂, fw', hs1, hs2, ⟨_, hnew, by simp [hold]⟩, hrule, hcheck⟩

end Fastros.Net
