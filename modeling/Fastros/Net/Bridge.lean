import Fastros.Lib.Run

/-!
# Addresses and ports of containers

`bridge::attach` and `alloc_pod_port` count upwards and keep no record of what is in
use. As long as the counters have not run out, no address or port is given twice; when
the port counter starts again it gives 30000 twice in a row. A pod that is restarted
takes the port of its saved record, and records outlive a boot while the counter does
not.
-/

namespace Fastros.Net.Bridge

open Lib.Run List

/-- A port of the bridge `name`. Of its MAC only the counted part is kept. -/
structure Port where
  name : String
  ip : Nat
  mac : Nat

/-- `BRIDGES` as one list, the counters, the ports in the saved records of the pods (by
number, those from before the boot first) and the pods that are live. -/
structure Hosts where
  ports : List Port := []
  nextIp : Nat := 0x0A580002
  nextMac : Nat := 2
  nextPodPort : Nat := 30000
  records : List Nat := []
  old : Nat := 0
  pods : List Nat := []

namespace Hosts

def attach (name : String) (h : Hosts) : Hosts :=
  { h with
    ports := h.ports ++ [⟨name, h.nextIp, h.nextMac⟩]
    nextIp := (h.nextIp + 1) % 2 ^ 32
    nextMac := (h.nextMac + 1) % 2 ^ 32 }

def detach (name : String) (mac : Nat) (h : Hosts) : Hosts :=
  { h with ports := h.ports.filter fun p => p.name ≠ name ∨ p.mac ≠ mac }

def allocPodPort (h : Hosts) : Nat × Hosts :=
  let p := h.nextPodPort
  if 39990 ≤ p then (30000, { h with nextPodPort := 30000 })
  else (p, { h with nextPodPort := (p + 1) % 2 ^ 16 })

/-- The port of a pod. -/
def podPort (h : Hosts) (pod : Nat) : Nat := h.records.getD pod 0

end Hosts

/-- The counters start anew, and the records are those on disk. -/
def boot (records : List Nat) : Hosts := { records, old := records.length }

inductive Event
  | start (name : String)
  | stop (name : String) (mac : Nat)
  | startPod
  | stopPod (pod : Nat)
  | restartPod (pod : Nat)

def step : Event → Hosts → Hosts
  | .start name, h => h.attach name
  | .stop name mac, h => h.detach name mac
  | .startPod, h =>
    { h.allocPodPort.2 with
      records := h.records ++ [h.allocPodPort.1], pods := h.records.length :: h.pods }
  | .stopPod pod, h => { h with pods := h.pods.erase pod }
  | .restartPod pod, h =>
    if pod < h.records.length ∧ pod ∉ h.pods then { h with pods := pod :: h.pods } else h

/-- The test of `egress_ns` on the octets of a destination. -/
def onBridge (ip : Nat) : Bool := ip / 2 ^ 24 % 2 ^ 8 == 10 && ip / 2 ^ 16 % 2 ^ 8 == 88

/-- Live ports have distinct host addresses of 10.88.0.0/16, live pods distinct ports. -/
structure Unique (h : Hosts) : Prop where
  inside : ∀ p ∈ h.ports, 0x0A580000 < p.ip ∧ p.ip < 0x0A58FFFF ∧ onBridge p.ip
  ips : (h.ports.map (·.ip)).Nodup
  pods : (h.pods.map h.podPort).Nodup

/-- The counter that the event takes from has not run out, and a restarted pod got its
port since the boot. -/
def InRange (h : Hosts) : Event → Prop
  | .start _ => h.nextIp < 0x0A58FFFF
  | .startPod => h.nextPodPort < 39990
  | .restartPod pod => h.old ≤ pod
  | _ => True

/-- What was given since the boot comes before the counters, in order. -/
structure Below (h : Hosts) : Prop where
  ips : (0x0A580000 :: h.ports.map (·.ip) ++ [h.nextIp]).Pairwise (· < ·)
  ip : h.nextIp ≤ 0x0A58FFFF
  old : h.old ≤ h.records.length
  given : (h.records.drop h.old ++ [h.nextPodPort]).Pairwise (· < ·)
  live : ∀ pod ∈ h.pods, h.old ≤ pod ∧ pod < h.records.length
  nodup : h.pods.Nodup

theorem step_below (h : Hosts) (e : Event) (hb : Below h) (hf : InRange h e) : Below (step e h) := by
  have hlast := (pairwise_append.mp hb.ips).2.2
  cases e with
  | start name =>
    have hip : h.nextIp < 0x0A58FFFF := hf
    have hnext : (h.nextIp + 1) % 2 ^ 32 = h.nextIp + 1 := Nat.mod_eq_of_lt (by omega)
    refine ⟨?_, ?_, hb.old, hb.given, hb.live, hb.nodup⟩
    · rw [step, Hosts.attach, hnext, map_append, ← cons_append, pairwise_append]
      refine ⟨hb.ips, pairwise_singleton _ _, fun a ha b hb => ?_⟩
      rw [mem_singleton.mp hb]
      rcases mem_append.mp ha with ha | ha
      · exact Nat.lt_succ_of_lt (hlast a ha _ mem_cons_self)
      · rw [mem_singleton.mp ha]
        exact Nat.lt_succ_self _
    · rw [step, Hosts.attach, hnext]
      exact hip
  | stop name mac =>
    exact ⟨hb.ips.sublist (((filter_sublist.map _).cons_cons _).append_right _), hb.ip, hb.old, hb.given,
      hb.live, hb.nodup⟩
  | startPod =>
    have hlt : ¬ 39990 ≤ h.nextPodPort := Nat.not_le.mpr hf
    rw [step, Hosts.allocPodPort, if_neg hlt, Nat.mod_eq_of_lt (by omega)]
    have hlen : (h.records ++ [h.nextPodPort]).length = h.records.length + 1 := by simp
    refine ⟨hb.ips, hb.ip, ?_, ?_, fun pod hp => ?_, ?_⟩
    · exact hlen ▸ Nat.le_succ_of_le hb.old
    · dsimp only
      rw [drop_append_of_le_length hb.old, pairwise_append]
      refine ⟨hb.given, pairwise_singleton _ _, fun a ha b hb' => ?_⟩
      rw [mem_singleton.mp hb']
      rcases mem_append.mp ha with ha | ha
      · exact Nat.lt_succ_of_lt ((pairwise_append.mp hb.given).2.2 a ha _ mem_cons_self)
      · rw [mem_singleton.mp ha]
        exact Nat.lt_succ_self _
    · dsimp only
      rw [hlen]
      rcases mem_cons.mp hp with rfl | hp
      · exact ⟨hb.old, Nat.lt_succ_self _⟩
      · exact ⟨(hb.live pod hp).1, Nat.lt_succ_of_lt (hb.live pod hp).2⟩
    · exact nodup_cons.mpr ⟨fun hm => Nat.lt_irrefl _ (hb.live _ hm).2, hb.nodup⟩
  | stopPod pod =>
    exact ⟨hb.ips, hb.ip, hb.old, hb.given, fun p hp => hb.live p (mem_of_mem_erase hp), hb.nodup.erase _⟩
  | restartPod pod =>
    simp only [step]
    split_ifs with hp
    · refine ⟨hb.ips, hb.ip, hb.old, hb.given, fun p hm => ?_, nodup_cons.mpr ⟨hp.2, hb.nodup⟩⟩
      rcases mem_cons.mp hm with rfl | hm
      · exact ⟨hf, hp.1⟩
      · exact hb.live p hm
    · exact hb

/-- Pods that got their ports since the boot have different ones. -/
theorem Below.podPort_ne {h : Hosts} (hb : Below h) {i j : Nat} (hi : h.old ≤ i) (hij : i < j)
    (hj : j < h.records.length) : h.podPort i < h.podPort j := by
  have hgiven := pairwise_iff_getElem.mp (pairwise_append.mp hb.given).1 (i - h.old) (j - h.old)
    (by rw [length_drop]; omega) (by rw [length_drop]; omega) (by omega)
  simp only [getElem_drop, Nat.add_sub_cancel' hi, Nat.add_sub_cancel' (hi.trans hij.le)] at hgiven
  simpa only [Hosts.podPort, getD_eq_getElem?_getD, getElem?_eq_getElem hj,
    getElem?_eq_getElem (hij.trans hj), Option.getD_some] using hgiven

theorem Below.unique {h : Hosts} (hb : Below h) : Unique h := by
  obtain ⟨hcons, -, hlast⟩ := pairwise_append.mp hb.ips
  obtain ⟨hfirst, hips⟩ := pairwise_cons.mp hcons
  refine ⟨fun p hp => ?_, hips.imp Nat.ne_of_lt, hb.nodup.map_on fun i hi j hj heq => ?_⟩
  · have hmem := mem_map_of_mem (f := (·.ip)) hp
    have := hfirst _ hmem
    have := hlast _ (mem_cons_of_mem _ hmem) _ mem_cons_self
    have := hb.ip
    simp only [onBridge, Bool.and_eq_true, beq_iff_eq]
    omega
  · rcases Nat.lt_trichotomy i j with hlt | he | hlt
    · exact absurd heq (Nat.ne_of_lt (hb.podPort_ne (hb.live i hi).1 hlt (hb.live j hj).2))
    · exact he
    · exact absurd heq (Nat.ne_of_gt (hb.podPort_ne (hb.live j hj).1 hlt (hb.live i hi).2))

/-- After every event of a history, whatever records the boot found. -/
theorem starts_unique (records : List Nat) (es : List Event) (h : Along step InRange es (boot records))
    (n : Nat) : Unique (run step (es.take n) (boot records)) := by
  refine (along_invariant step_below es (boot records) ⟨by simp [boot], ?_, le_rfl, ?_, ?_, ?_⟩ h n).unique
  · exact (by decide : 0x0A580002 ≤ 0x0A58FFFF)
  · simp [boot]
  · exact fun pod hp => absurd hp not_mem_nil
  · exact nodup_nil

/-- A pod is restarted, next to a record from before the boot with its port. -/
theorem starts_unique_restart :
    Unique (run step ([.start "a", .startPod, .startPod, .stopPod 1, .restartPod 1].take 5)
      (boot [30000])) := by
  refine starts_unique _ _ ?_ 5
  simp [Along, InRange, step, boot, Hosts.attach, Hosts.allocPodPort]

/-- One pod after the other for `k` pods, then two; `i` is the number of the next one. -/
def podByPod : Nat → Nat → List Event
  | 0, _ => [.startPod, .startPod]
  | k + 1, i => .startPod :: .stopPod i :: podByPod k (i + 1)

/-- At most 9000 are live after the event. -/
def Few (h : Hosts) (e : Event) : Prop := (step e h).ports.length + (step e h).pods.length ≤ 9000

theorem podByPod_clash (k : Nat) : ∀ next records, next + k = 39990 →
    let h : Hosts := { nextPodPort := next, records }
    let h' := run step (podByPod k records.length) h
    Along step Few (podByPod k records.length) h ∧ h'.pods.map h'.podPort = [30000, 30000] := by
  induction k with
  | zero =>
    rintro next records rfl
    refine ⟨by simp [podByPod, Along, Few, step, Hosts.allocPodPort], ?_⟩
    simp [podByPod, run, step, Hosts.allocPodPort, Hosts.podPort]
  | succ k ih =>
    intro next records hk
    have hpair : step (.stopPod records.length) (step .startPod { nextPodPort := next, records })
        = { nextPodPort := next + 1, records := records ++ [next] } := by
      rw [step, step, Hosts.allocPodPort, if_neg (by dsimp only; omega), Nat.mod_eq_of_lt (by dsimp only; omega)]
      simp
    obtain ⟨hfew, hpods⟩ := ih (next + 1) (records ++ [next]) (by omega)
    rw [length_append, length_singleton, ← hpair] at hfew hpods
    refine ⟨⟨?_, ?_, hfew⟩, hpods⟩
    · simp only [Few, step, Hosts.allocPodPort]
      split <;> simp
    · rw [Few, hpair]
      simp

/-- With two live pods at most, both get port 30000. -/
theorem ports_clash : ¬ ∀ es : List Event, Along step Few es (boot []) →
    ∀ n, Unique (run step (es.take n) (boot [])) := by
  intro h
  obtain ⟨hfew, hpods⟩ := podByPod_clash 9990 30000 [] rfl
  have hu := (h _ hfew (podByPod 9990 ([] : List Nat).length).length).pods
  rw [take_length, show boot [] = { nextPodPort := 30000, records := [] } from rfl, hpods] at hu
  simp at hu

end Fastros.Net.Bridge
