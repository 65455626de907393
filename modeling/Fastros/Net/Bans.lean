import Fastros.Net.Conntrack

/-!
# How long bans last

A ban record is overwritten by the next ban of its address and thrown away by any
packet or expiry that finds it run out. So a ban lasts as long as it was imposed
for only if later bans do not end before it, and automatic bans get longer only
while the record that counts the strikes stands. Both conditions are stated here
on the calls of a run, and the two ways to break them are shown.
-/

namespace Fastros.Net

open Lib.Run Firewall
open Option (bind_eq_some_iff map_eq_some_iff)
open Firewall (banLength)

variable {c : Call} {s s' : System} {ip : Ip} {b : Ban} {d e now : Nat}

theorem le_banLength (k : Nat) (hd : d < 2 ^ 64) : d ≤ banLength d k := by
  have hpow : 1 ≤ 2 ^ min (k - 1) 6 := Nat.one_le_two_pow
  have : d * 1 ≤ d * 2 ^ min (k - 1) 6 := Nat.mul_le_mul_left d hpow
  unfold banLength
  omega

variable {d' k k' len n t : Nat} {x : Dir × Packet × Nat}

theorem banLength_mono (hd : d ≤ d') (hk : k ≤ k') : banLength d k ≤ banLength d' k' := by
  have hpow : 2 ^ min (k - 1) 6 ≤ 2 ^ min (k' - 1) 6 := Nat.pow_le_pow_right (by decide) (by omega)
  have := Nat.mul_le_mul hd hpow
  unfold banLength
  omega

/-- What a call does to the record of one address it does not discard: it keeps
it, or writes the next strike over it. -/
theorem step_record (hon : s.fw.enabled = true) (h : step c s = some s')
    (hb : s.fw.bans[ip]? = some b) (hspare : Spared c ip b) :
    s'.fw.bans[ip]? = some b ∨
      ∃ now d reason, s.sentence c = some (now, ip, d) ∧
        s'.fw.bans[ip]? = some ⟨now + banLength d (b.strikes + 1), reason, b.strikes + 1⟩ := by
  cases step_effect hon h with
  | wanes hw => exact .inl (hw.kept hb hspare)
  | @bans mid ip' now d hw hwhy hban =>
    by_cases hip : ip' = ip
    · subst hip
      obtain ⟨reason, hrec⟩ := hban.record
      rcases hwhy with ⟨hsent, hsame⟩ | ⟨p, _, _, _, hsweep, _, hout⟩
      · rw [hsame, hb] at hrec
        exact .inr ⟨now, d, reason, hsent, hrec⟩
      · have := hspare.2 now hsweep
        have := hout b hb
        omega
    · rw [hban.others (Ne.symm hip)]
      exact .inl (hw.kept hb hspare)
  | accepts _ hw _ _ _ _ _ hbans =>
    rw [hbans]
    exact .inl (hw.kept hb hspare)

theorem sweeps_times (h : t ∈ c.sweeps) : t ∈ c.times := by
  cases c <;> first | exact h | cases h

/-- The end of a packet's flow that is on this host. -/
def localIp (dir : Dir) (p : Packet) : Ip := if dir = .inbound then p.dst else p.src

/-- `ban` leaves an address on the allow list or of this host alone. -/
def Firewall.Exempt (fw : Firewall) (ip : Ip) : Prop := fw.allowlisted ip ∨ ip ∈ fw.localIps

instance (fw : Firewall) (ip : Ip) : Decidable (fw.Exempt ip) :=
  inferInstanceAs (Decidable (fw.allowlisted ip ∨ ip ∈ fw.localIps))

/-- What a call has to respect for the bans before it to last: a ban it asks for
does not end before the one it replaces, and the packet it brings has no banned
address on the local side. -/
structure Respects (s : System) (c : Call) : Prop where
  longer : ∀ now ip d b, s.sentence c = some (now, ip, d) → s.fw.bans[ip]? = some b →
    b.untilMs ≤ now + banLength d (b.strikes + 1)
  foreign : ∀ dir p now, c.packet = some (dir, p, now) → ¬ s.fw.isBanned (localIp dir p) now

/-- `ip` is banned at least until `e`. -/
def Held (ip : Ip) (e : Nat) (s : System) : Prop := ∃ b, s.fw.bans[ip]? = some b ∧ e ≤ b.untilMs

theorem held_ban {reason : String} (hd : d < 2 ^ 64)
    (hex : ¬ s.fw.Exempt ip) (h : step (.ban ip t d reason) s = some s') : Held ip (t + d) s' := by
  simp only [step, map_eq_some_iff] at h
  obtain ⟨⟨dur, fw⟩, hban, rfl⟩ := h
  rcases ban_effect hban with ⟨hrefused, _⟩ | ⟨_, hbanned⟩
  · exact absurd hrefused hex
  · obtain ⟨reason', hrec⟩ := hbanned.record
    have := le_banLength (s.fw.bans[ip]?.elim 0 (·.strikes) + 1) hd
    exact ⟨_, hrec, by simp only; omega⟩

theorem held_step (hon : s.fw.enabled = true) (hr : Respects s c) (hc : c ≠ .unban ip)
    (htimes : ∀ t ∈ c.times, t < e) (hheld : Held ip e s) (h : step c s = some s') :
    Held ip e s' := by
  obtain ⟨b, hb, hle⟩ := hheld
  have hspare : Spared c ip b := ⟨hc, fun t ht => by have := htimes t (sweeps_times ht); omega⟩
  rcases step_record hon h hb hspare with hsame | ⟨now, d, reason, hsent, hnew⟩
  · exact ⟨b, hsame, hle⟩
  · have := hr.longer now ip d b hsent hb
    exact ⟨_, hnew, by simp only; omega⟩

theorem held_refuses {dir : Dir} {p : Packet} (hon : s.fw.enabled = true)
    (hr : Respects s c) (hheld : Held ip e s) (hc : c.packet = some (dir, p, now)) (hlt : now < e)
    (hip : p.src = ip ∨ p.dst = ip) (k : FlowKey) (t : Nat) : ¬ c.Accepts s k t := by
  rintro ⟨dir', p', fw', hc', _, hacc⟩
  rw [hc] at hc'
  cases hc'
  obtain ⟨b, hb, hle⟩ := hheld
  have hside : remoteIp dir p = ip ∨ localIp dir p = ip := by
    cases dir with
    | inbound => exact hip
    | outbound => exact hip.symm
  rcases hside with hremote | hlocal
  · cases check_effect hon hacc with
    | accepted _ hrun =>
      have := hrun b (by rw [hremote]; exact hb)
      omega
  · apply hr.foreign dir p now hc
    rw [hlocal]
    simp [isBanned, hb]
    omega

/-- The ban a call may impose of its own accord: when, on whom and for how long. -/
def Call.offence (prot : Protections) : Call → Option (Nat × Ip × Nat)
  | .noteRefused p now => some (now, p.src, prot.scanBanMs)
  | .authFailure ip _ later => some (later, ip, authBanMs)
  | c =>
    match c.packet with
    | some (.inbound, p, now) => some (now, p.src, prot.scanBanMs)
    | _ => none

/-- The call imposes an automatic ban of `ip`, of base duration `d` and length `len`. -/
def AutoBan (c : Call) (s s' : System) (ip : Ip) (d len : Nat) : Prop :=
  ∃ now b, c.offence s.fw.protections = some (now, ip, d) ∧ Imposed s s' ip b ∧
    b.untilMs = now + len

theorem offence_of_packet {prot : Protections} {p : Packet}
    (h : c.packet = some (.inbound, p, now)) :
    c.offence prot = some (now, p.src, prot.scanBanMs) := by
  cases c with
  | check dir p' now' =>
    cases h
    rfl
  | checkFrame dir frame now' => simp [Call.offence, h]
  | _ => cases h

theorem offence_of_sentence {x y : Nat × Ip × Nat} (h : s.sentence c = some x)
    (h' : c.offence s.fw.protections = some y) : x = y := by
  cases c with
  | noteRefused | authFailure =>
    simp only [System.sentence] at h
    split at h
    · exact Option.mem_unique h h'
    · cases h
  | ban ip now d reason => cases h'
  | _ => cases h

/-- The length of an automatic ban is set by the strike it leaves on record. It is
the next strike if the call found a record and did not discard it. -/
theorem autoBan_record (hon : s.fw.enabled = true) (h : step c s = some s')
    (ha : AutoBan c s s' ip d len) :
    ∃ b, s'.fw.bans[ip]? = some b ∧ len = banLength d b.strikes ∧
      ∀ b0, s.fw.bans[ip]? = some b0 → Spared c ip b0 → b.strikes = b0.strikes + 1 := by
  obtain ⟨now, b, hoff, ⟨hnew, hold⟩, hlen⟩ := ha
  cases step_effect hon h with
  | wanes hw => exact absurd (hw.bans hnew) hold
  | accepts _ hw _ _ _ _ _ hbans =>
    rw [hbans] at hnew
    exact absurd (hw.bans hnew) hold
  | @bans mid ip' now' d' hw hwhy hban =>
    by_cases hip : ip' = ip
    · subst hip
      obtain ⟨reason, hrec⟩ := hban.record
      rw [hnew] at hrec
      cases hrec
      have hsame : now' = now ∧ d' = d := by
        rcases hwhy with ⟨hsent, _⟩ | ⟨p, hp, rfl, rfl, _⟩
        · have := offence_of_sentence hsent hoff
          simpa using this
        · rw [offence_of_packet hp] at hoff
          simpa using hoff
      obtain ⟨rfl, rfl⟩ := hsame
      refine ⟨_, hnew, by simp only at hlen ⊢; omega, fun b0 hb0 hspare => ?_⟩
      rcases hwhy with ⟨_, hmid⟩ | ⟨p, _, _, _, hsweep, _, hout⟩
      · simp [hmid, hb0]
      · have := hspare.2 _ hsweep
        have := hout b0 hb0
        omega
    · rw [hban.others (Ne.symm hip)] at hnew
      exact absurd (hw.bans hnew) hold

theorem sentence_of_packet (h : c.packet = some x) : s.sentence c = none := by
  cases c with
  | check => rfl
  | checkFrame => rfl
  | _ => cases h

/-- A packet never brings more than a first strike: while a record runs its
source does not get as far as being counted, and a run-out record is discarded
before. -/
theorem packet_first_strike (hon : s.fw.enabled = true)
    (hc : c.packet = some x) (h : step c s = some s') (hb : Imposed s s' ip b) : b.strikes = 1 := by
  obtain ⟨hnew, hold⟩ := hb
  cases step_effect hon h with
  | wanes hw => exact absurd (hw.bans hnew) hold
  | accepts _ hw _ _ _ _ _ hbans =>
    rw [hbans] at hnew
    exact absurd (hw.bans hnew) hold
  | @bans mid ip' now d hw hwhy hban =>
    by_cases hip : ip' = ip
    · subst hip
      obtain ⟨reason, hrec⟩ := hban.record
      rcases hwhy with ⟨hsent, _⟩ | ⟨p, _, _, _, _, hnone, _⟩
      · rw [sentence_of_packet hc] at hsent
        cases hsent
      · rw [hnew, hnone] at hrec
        cases hrec
        rfl
    · rw [hban.others (Ne.symm hip)] at hnew
      exact absurd (hw.bans hnew) hold

/-- The call does not find the record of `ip` run out. -/
def Stands (ip : Ip) (s : System) (c : Call) : Prop :=
  ∀ b, s.fw.bans[ip]? = some b → ∀ t ∈ c.sweeps, t < b.untilMs

/-- Strikes on a standing record are not lost. -/
theorem strikes_step (hon : s.fw.enabled = true) (hst : Stands ip s c)
    (hc : c ≠ .unban ip) (h : step c s = some s')
    (hn : ∃ b, s.fw.bans[ip]? = some b ∧ n ≤ b.strikes) :
    ∃ b, s'.fw.bans[ip]? = some b ∧ n ≤ b.strikes := by
  obtain ⟨b, hb, hle⟩ := hn
  rcases step_record hon h hb ⟨hc, hst b hb⟩ with hsame | ⟨now, d, reason, _, hnew⟩
  · exact ⟨b, hsame, hle⟩
  · exact ⟨_, hnew, by simp only; omega⟩

section

variable {rules : List Rule} {policyOut : Action} {protections : Protections}
  {localIps : List Ip} {allowlist : List Cidr} {logDrops : Bool}
variable {mid post pre : List Call}

/-- Readings before a call of a steady run are not later than the call's. -/
theorem steady_before {d : Call}
    (h : Steady (pre ++ post ++ [d])) (hnow : now ∈ d.times) (hlt : now < e) :
    ∀ c ∈ post, ∀ t ∈ c.times, t < e := by
  intro c hc t ht
  obtain ⟨l, r, rfl⟩ := List.append_of_mem hc
  have hsplit : Steady ((pre ++ l) ++ c :: r ++ [d]) := by simpa using h
  have := steady_le hsplit ht hnow
  omega

theorem held_run (ht : Tracks s) (hr : Throughout step Respects mid s) (hno : Call.unban ip ∉ mid)
    (htimes : ∀ c ∈ mid, ∀ t ∈ c.times, t < e) (hheld : Held ip e s)
    (h : runs step mid s = some s') : Tracks s' ∧ Held ip e s' := by
  have hne : ∀ c ∈ mid, c ≠ .unban ip ∧ ∀ t ∈ c.times, t < e := by
    intro c hc
    refine ⟨?_, htimes c hc⟩
    rintro rfl
    exact hno hc
  have hcalls : Throughout step (fun _ c => c ≠ .unban ip ∧ ∀ t ∈ c.times, t < e) mid s :=
    .of_forall hne s
  refine throughout_last (P := fun s => Tracks s ∧ Held ip e s) ?_ ⟨ht, hheld⟩
    (throughout_and hr hcalls) h
  rintro u c u' ⟨hu, hheld'⟩ ⟨hresp, hc, hct⟩ hstep
  exact ⟨step_tracks hu hstep, held_step hu.enabled hresp hc hct hheld' hstep⟩

theorem strikes_run {n : Nat} (ht : Tracks s)
    (hst : Throughout step (Stands ip) mid s) (hno : Call.unban ip ∉ mid)
    (hn : ∃ b, s.fw.bans[ip]? = some b ∧ n ≤ b.strikes) (h : runs step mid s = some s') :
    Tracks s' ∧ ∃ b, s'.fw.bans[ip]? = some b ∧ n ≤ b.strikes := by
  have hne : ∀ c ∈ mid, c ≠ .unban ip := by
    rintro c hc rfl
    exact hno hc
  have hcalls : Throughout step (fun _ c => c ≠ .unban ip) mid s := .of_forall hne s
  refine throughout_last (P := fun s => Tracks s ∧ ∃ b, s.fw.bans[ip]? = some b ∧ n ≤ b.strikes) ?_
    ⟨ht, hn⟩ (throughout_and hst hcalls) h
  rintro u c u' ⟨hu, hn'⟩ ⟨hstands, hc⟩ hstep
  exact ⟨step_tracks hu hstep, strikes_step hu.enabled hstands hc hstep hn'⟩

/-- A ban that is not refused holds for as long as it was imposed, and its end
never moves forward, in every run whose calls respect the bans before them.
Automatic bans of one address do not get shorter while its record stands and the
base durations do not get shorter. -/
theorem bans_hold_and_escalate :
    (∀ pre mid c s s₁ ip t d reason dir p now, d < 2 ^ 64 →
      Steady (pre ++ .ban ip t d reason :: mid ++ [c]) →
      runs step pre (start rules policyOut protections localIps allowlist logDrops) = some s₁ →
      ¬ s₁.fw.Exempt ip → runs step (.ban ip t d reason :: mid) s₁ = some s →
      Throughout step Respects (.ban ip t d reason :: mid ++ [c]) s₁ → Call.unban ip ∉ mid →
      c.packet = some (dir, p, now) → now < t + d →
      Held ip (t + d) s ∧ (p.src = ip ∨ p.dst = ip → ∀ k t', ¬ c.Accepts s k t')) ∧
    (∀ pre c₁ mid c₂ s₁ s₂ s₃ s₄ ip d₁ d₂ len₁ len₂,
      runs step pre (start rules policyOut protections localIps allowlist logDrops) = some s₁ →
      step c₁ s₁ = some s₂ → runs step mid s₂ = some s₃ → step c₂ s₃ = some s₄ →
      AutoBan c₁ s₁ s₂ ip d₁ len₁ → AutoBan c₂ s₃ s₄ ip d₂ len₂ → Call.unban ip ∉ mid →
      Throughout step (Stands ip) (mid ++ [c₂]) s₂ → d₁ ≤ d₂ → len₁ ≤ len₂) := by
  have hreach : ∀ {pre s}, runs step pre
      (start rules policyOut protections localIps allowlist logDrops) = some s → Tracks s :=
    fun {pre s} h => runs_invariant (fun _ _ _ hs h => step_tracks hs h) pre _ s (tracks_start ..) h
  constructor
  · intro pre mid c s s₁ ip t d reason dir p now hd hsteady hpre hex hrun hresp hno hc hlt
    have hs1 := hreach hpre
    obtain ⟨s₂, hban, hmid⟩ := bind_eq_some_iff.mp hrun
    have hresp' : Throughout step Respects mid s₂ := throughout_left (hresp.2 s₂ hban)
    have hsplit : Steady ((pre ++ [.ban ip t d reason]) ++ mid ++ [c]) := by simpa using hsteady
    have htimes := steady_before hsplit (packet_times hc) hlt
    obtain ⟨hs, hheld⟩ :=
      held_run (step_tracks hs1 hban) hresp' hno htimes (held_ban hd hex hban) hmid
    have hc' : Respects s c := (throughout_drop hresp hrun).1
    exact ⟨hheld, fun hip k t' => held_refuses hs.enabled hc' hheld hc hlt hip k t'⟩
  intro pre c₁ mid c₂ s₁ s₂ s₃ s₄ ip d₁ d₂ len₁ len₂ hpre h1 hmid h2 ha1 ha2 hno hst hd
  have hs1 := hreach hpre
  obtain ⟨b1, hb1, rfl, _⟩ := autoBan_record hs1.enabled h1 ha1
  obtain ⟨hs3, b3, hb3, hle⟩ := strikes_run (step_tracks hs1 h1) (throughout_left hst) hno
    ⟨b1, hb1, le_rfl⟩ hmid
  obtain ⟨b4, _, rfl, hnext⟩ := autoBan_record hs3.enabled h2 ha2
  have hspare : Spared c₂ ip b3 := by
    refine ⟨?_, (throughout_drop hst hmid).1 b3 hb3⟩
    rintro rfl
    obtain ⟨now, b, hoff, _⟩ := ha2
    cases hoff
  have := hnext b3 hb3 hspare
  exact banLength_mono hd (by omega)

end

def sshIn : Packet := tcp peer me 5000 22 Tcpf.syn

/-- A packet of a port sweep. -/
def sweep (port : Nat) : Packet := tcp peer me 5555 (UInt16.ofNat port) Tcpf.syn

def failedLogin (now : Nat) : Call := .authFailure peer now now

/-- A banned address stays out, and failed logins after the end of a ban are
answered with a longer one. -/
theorem bans_hold_and_escalate_peer :
    (∃ s, runs step [.ban peer 0 1000 "manual ban"] booted = some s ∧ Held peer 1000 s ∧
      ∀ k t, ¬ (Call.check .inbound sshIn 10).Accepts s k t) ∧
    ∃ s₁ s₂ s₃ s₄ len₁ len₂,
      runs step (List.replicate 4 (failedLogin 0)) booted = some s₁ ∧
      step (failedLogin 0) s₁ = some s₂ ∧
      runs step (List.replicate 4 (failedLogin 600001)) s₂ = some s₃ ∧
      step (failedLogin 600001) s₃ = some s₄ ∧
      AutoBan (failedLogin 0) s₁ s₂ peer authBanMs len₁ ∧
      AutoBan (failedLogin 600001) s₃ s₄ peer authBanMs len₂ ∧ len₁ ≤ len₂ := by
  constructor
  · have heval : ((runs step [.ban peer 0 1000 "manual ban"] booted).map fun s =>
        decide (s.fw.isBanned me 10 = false)) = some true := by
      decide +kernel
    simp only [map_eq_some_iff, decide_eq_true_eq] at heval
    obtain ⟨s, hs, hme⟩ := heval
    obtain ⟨s1, hban, hs1⟩ := bind_eq_some_iff.mp hs
    cases hs1
    have hfirst : Respects booted (.ban peer 0 1000 "manual ban") := by
      refine ⟨fun now ip d b _ hb => ?_, fun dir p now hc => by cases hc⟩
      simp [booted, start, withDefaults] at hb
    have hnext : Respects s (.check .inbound sshIn 10) := by
      refine ⟨fun now ip d b hsent => (by cases hsent), fun dir p now hc => ?_⟩
      cases hc
      simpa [localIp, sshIn, tcp] using hme
    have hall : Throughout step Respects
        (.ban peer 0 1000 "manual ban" :: [] ++ [.check .inbound sshIn 10]) booted := by
      refine ⟨hfirst, fun u hu => ?_⟩
      rw [hban] at hu
      cases hu
      exact ⟨hnext, fun _ _ => trivial⟩
    obtain ⟨hheld, hrefused⟩ := bans_hold_and_escalate.1 [] [] (.check .inbound sshIn 10) s booted peer
      0 1000 "manual ban" .inbound sshIn 10 (by decide) (by decide) rfl (by decide) hs hall (by simp)
      rfl (by decide)
    exact ⟨s, hs, hheld, hrefused (.inl rfl)⟩
  · have heval : ((runs step (List.replicate 4 (failedLogin 0)) booted).bind fun s₁ =>
        (step (failedLogin 0) s₁).bind fun s₂ =>
          (runs step (List.replicate 4 (failedLogin 600001)) s₂).bind fun s₃ =>
            (step (failedLogin 600001) s₃).map fun s₄ =>
              decide ((s₁.fw.bans[peer]? = none ∧
                s₂.fw.bans[peer]? = some ⟨600000, "repeated authentication failures", 1⟩) ∧
                s₃.fw.bans[peer]? = some ⟨600000, "repeated authentication failures", 1⟩ ∧
                s₄.fw.bans[peer]? = some ⟨1800001, "repeated authentication failures", 2⟩)) =
        some true := by
      decide +kernel
    simp only [bind_eq_some_iff, map_eq_some_iff, decide_eq_true_eq] at heval
    obtain ⟨s₁, hs1, s₂, hs2, s₃, hs3, s₄, hs4, ⟨hb1, hb2⟩, hb3, hb4⟩ := heval
    have ha1 : AutoBan (failedLogin 0) s₁ s₂ peer authBanMs 600000 :=
      ⟨0, _, rfl, ⟨hb2, by simp [hb1]⟩, rfl⟩
    have ha2 : AutoBan (failedLogin 600001) s₃ s₄ peer authBanMs 1200000 :=
      ⟨600001, _, rfl, ⟨hb4, by simp [hb3]⟩, rfl⟩
    have hst : Throughout step (Stands peer)
        (List.replicate 4 (failedLogin 600001) ++ [failedLogin 600001]) s₂ := by
      have hnever : ∀ s, Stands peer s (failedLogin 600001) := fun _ _ _ t ht => by cases ht
      exact ⟨hnever _, fun _ _ => ⟨hnever _, fun _ _ => ⟨hnever _, fun _ _ => ⟨hnever _, fun _ _ =>
        ⟨hnever _, fun _ _ => trivial⟩⟩⟩⟩⟩
    have hle := bans_hold_and_escalate.2 _ (failedLogin 0) (List.replicate 4 (failedLogin 600001))
      (failedLogin 600001) s₁ s₂ s₃ s₄ peer authBanMs authBanMs 600000 1200000 hs1 hs2 hs3 hs4 ha1 ha2
      (by simp [failedLogin]) hst le_rfl
    exact ⟨s₁, s₂, s₃, s₄, _, _, hs1, hs2, hs3, hs4, ha1, ha2, hle⟩

/-- A second, shorter ban ends the first: the address is let in again after 3 of
3600000 milliseconds. And an address banned an hour for a port sweep is, once that
has run out, banned for ten minutes for failed logins. -/
theorem ban_cut_short :
    (∃ s fw', runs step [.ban peer 0 3600000 "manual ban", .ban peer 1 1 "manual ban"] booted = some s ∧
      s.fw.check .inbound sshIn 3 = some (.accept, fw')) ∧
    ∃ s₁ s₂ s₃ s₄,
      runs step ((List.range 19).map fun i => .check .inbound (sweep (1000 + i)) 100) booted = some s₁ ∧
      step (.check .inbound (sweep 1019) 100) s₁ = some s₂ ∧
      runs step (.expire 3600100 :: List.replicate 4 (.authFailure peer 3600101 3600101)) s₂ =
        some s₃ ∧
      step (.authFailure peer 3600101 3600101) s₃ = some s₄ ∧
      AutoBan (.check .inbound (sweep 1019) 100) s₁ s₂ peer 3600000 3600000 ∧
      AutoBan (.authFailure peer 3600101 3600101) s₃ s₄ peer 600000 600000 := by
  constructor
  · have heval : ((runs step [.ban peer 0 3600000 "manual ban", .ban peer 1 1 "manual ban"]
        booted).bind fun s => (s.fw.check .inbound sshIn 3).map fun r => decide (r.1 = .accept)) =
        some true := by
      decide +kernel
    simp only [bind_eq_some_iff, map_eq_some_iff, decide_eq_true_eq] at heval
    obtain ⟨s, hs, ⟨v, fw'⟩, hcheck, rfl⟩ := heval
    exact ⟨s, fw', hs, hcheck⟩
  have heval : ((runs step ((List.range 19).map fun i => .check .inbound (sweep (1000 + i)) 100)
      booted).bind fun s₁ => (step (.check .inbound (sweep 1019) 100) s₁).bind fun s₂ =>
        (runs step (.expire 3600100 :: List.replicate 4 (.authFailure peer 3600101 3600101))
          s₂).bind fun s₃ => (step (.authFailure peer 3600101 3600101) s₃).map fun s₄ =>
            decide ((s₁.fw.protections.scanBanMs = 3600000 ∧ s₁.fw.bans[peer]? = none ∧
              s₂.fw.bans[peer]? = some ⟨3600100, "port scan", 1⟩) ∧
              s₃.fw.bans[peer]? = none ∧ s₄.fw.bans[peer]? =
                some ⟨4200101, "repeated authentication failures", 1⟩)) = some true := by
    decide +kernel
  simp only [bind_eq_some_iff, map_eq_some_iff, decide_eq_true_eq] at heval
  obtain ⟨s₁, hs1, s₂, hs2, s₃, hs3, s₄, hs4, ⟨hprot, hb1, hb2⟩, hb3, hb4⟩ := heval
  refine ⟨s₁, s₂, s₃, s₄, hs1, hs2, hs3, hs4, ⟨100, _, ?_, ⟨hb2, by simp [hb1]⟩, rfl⟩,
    3600101, _, rfl, ⟨hb4, by simp [hb3]⟩, rfl⟩
  simp [Call.offence, Call.packet, hprot, sweep, tcp]

end Fastros.Net
