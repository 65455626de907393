import Fastros.Lib.Checked
import Fastros.Lib.Run

/-!
# The packet filter

`lib/netfilter/src/lib.rs` and its use by the kernel in `kernel/src/firewall.rs`:
sanity checks, bans, connection tracking, rules and policy, in the order
`decide` asks them. Maps are `Std.TreeMap`, which iterates in key order as
`BTreeMap` does. Times and counters are `Nat`; the kernel is built with overflow
checks, so an addition or a product that does not fit its word stops the run.
-/

namespace Fastros.Net

open Std (TreeMap)
open Lib.Checked

abbrev Ip := Vector UInt8 4

/-- `u32::from_be_bytes`. -/
def u32OfBe (ip : Ip) : UInt32 :=
  (ip[0].toUInt32 <<< 24) ||| (ip[1].toUInt32 <<< 16) ||| (ip[2].toUInt32 <<< 8) ||| ip[3].toUInt32

inductive Proto
  | tcp
  | udp
  | icmp
  | other (n : UInt8)
  deriving DecidableEq

def Proto.number : Proto → UInt8
  | .icmp => 1
  | .tcp => 6
  | .udp => 17
  | .other n => n

def Proto.fromNumber (n : UInt8) : Proto :=
  if n = 1 then .icmp else if n = 6 then .tcp else if n = 17 then .udp else .other n

namespace Tcpf

def fin : UInt8 := 0x01
def syn : UInt8 := 0x02
def rst : UInt8 := 0x04
def psh : UInt8 := 0x08
def ack : UInt8 := 0x10
def urg : UInt8 := 0x20

end Tcpf

/-- The fields of an IPv4 packet the filter looks at. -/
structure Packet where
  src : Ip
  dst : Ip
  proto : Proto
  sport : UInt16
  dport : UInt16
  tcpFlags : UInt8
  icmpType : UInt8
  len : Nat
  fragment : Bool
  deriving DecidableEq

inductive Frame
  | ipv4 (p : Packet)
  | arp
  | malformed
  | other
  deriving DecidableEq

/-- `u16::from_be_bytes` of the two bytes at `i`. -/
def be16 (b : List UInt8) (i : Nat) : UInt16 :=
  ((b.getD i 0).toUInt16 <<< 8) ||| (b.getD (i + 1) 0).toUInt16

def ipAt (b : List UInt8) (i : Nat) : Ip :=
  #v[b.getD i 0, b.getD (i + 1) 0, b.getD (i + 2) 0, b.getD (i + 3) 0]

/-- The ports, flags and type that follow the IPv4 header. -/
def parseL4 (pkt : Packet) (l4 : List UInt8) : Frame :=
  match pkt.proto with
  | .tcp =>
    if l4.length < 20 then .malformed
    else .ipv4 { pkt with sport := be16 l4 0, dport := be16 l4 2, tcpFlags := l4.getD 13 0 &&& 0x3F }
  | .udp =>
    if l4.length < 8 then .malformed
    else .ipv4 { pkt with sport := be16 l4 0, dport := be16 l4 2 }
  | .icmp =>
    if l4.length < 8 then .malformed
    -- the echo id stands for both ports
    else .ipv4 { pkt with icmpType := l4.getD 0 0, sport := be16 l4 4, dport := be16 l4 4 }
  | .other _ => .ipv4 pkt

def parseIpv4 (p : List UInt8) : Frame :=
  if p.length < 20 ∨ p.getD 0 0 >>> 4 ≠ 4 then .malformed
  else
    let ihl := (p.getD 0 0 &&& 0x0F).toNat * 4
    let total := (be16 p 2).toNat
    if ihl < 20 ∨ total < ihl ∨ p.length < total then .malformed
    else
      let frag := be16 p 6
      let pkt : Packet :=
        { src := ipAt p 12, dst := ipAt p 16, proto := .fromNumber (p.getD 9 0), sport := 0,
          dport := 0, tcpFlags := 0, icmpType := 0, len := total,
          fragment := frag &&& 0x2000 != 0 || frag &&& 0x1FFF != 0 }
      if pkt.fragment then .ipv4 pkt else parseL4 pkt ((p.take total).drop ihl)

def parseEthernet (frame : List UInt8) : Frame :=
  if frame.length < 14 then .malformed
  else if be16 frame 12 = 0x0806 then .arp
  else if be16 frame 12 = 0x0800 then parseIpv4 (frame.drop 14)
  else .other

/-- An address block. `Cidr::parse` takes no prefix over 32, which keeps the
shift in `contains` in range. -/
structure Cidr where
  addr : Ip
  bits : Nat
  bits_le : bits ≤ 32

def Cidr.contains (c : Cidr) (ip : Ip) : Bool :=
  if c.bits = 0 then true
  else
    let mask : UInt32 := 0xFFFFFFFF <<< UInt32.ofNat (32 - c.bits)
    u32OfBe c.addr &&& mask == u32OfBe ip &&& mask

structure PortRange where
  lo : UInt16
  hi : UInt16
  deriving DecidableEq

def PortRange.contains (r : PortRange) (p : UInt16) : Bool := r.lo ≤ p && p ≤ r.hi

inductive Dir
  | inbound
  | outbound
  deriving DecidableEq

inductive Action
  | accept
  | drop
  deriving DecidableEq

/-- Token bucket: `rate` tokens a second, up to `burst`. -/
structure Bucket where
  rate : UInt32
  burst : UInt32
  tokensMilli : Nat
  lastMs : Nat

def Bucket.new (rate burst : UInt32) : Bucket := ⟨rate, burst, burst.toNat * 1000, 0⟩

def Bucket.take (b : Bucket) (now : Nat) : Option (Bool × Bucket) := do
  let elapsed := now - b.lastMs
  let earned ← mul 64 elapsed b.rate.toNat
  let sum ← add 64 b.tokensMilli earned
  let tokens := min sum (b.burst.toNat * 1000)
  if 1000 ≤ tokens then
    some (true, { b with lastMs := now, tokensMilli := tokens - 1000 })
  else
    some (false, { b with lastMs := now, tokensMilli := tokens })

structure Rule where
  dir : Dir
  action : Action
  proto : Option Proto := none
  src : Option Cidr := none
  dst : Option Cidr := none
  sport : Option PortRange := none
  dport : Option PortRange := none
  icmpType : Option UInt8 := none
  limit : Option Bucket := none
  comment : String := ""
  hits : Nat := 0
  bytes : Nat := 0
  system : Bool := false

def Rule.matches (r : Rule) (dir : Dir) (p : Packet) : Bool :=
  r.dir == dir && r.proto.all (· == p.proto) && r.src.all (·.contains p.src) &&
    r.dst.all (·.contains p.dst) && r.sport.all (·.contains p.sport) &&
    r.dport.all (·.contains p.dport) && r.icmpType.all (· == p.icmpType)

/-- Ask the rule's rate limit, if it has one. -/
def Rule.take (r : Rule) (now : Nat) : Option (Bool × Rule) :=
  match r.limit with
  | none => some (true, r)
  | some b => (b.take now).map fun (ok, b) => (ok, { r with limit := some b })

/-- A flow as seen from this host. -/
structure FlowKey where
  proto : UInt8
  localEnd : Ip × UInt16
  remoteEnd : Ip × UInt16
  deriving DecidableEq

/-- The derived order: field by field. -/
def FlowKey.cmp : FlowKey → FlowKey → Ordering :=
  compareLex (compareOn (·.proto)) <|
    compareLex (compareOn (·.localEnd.1)) <| compareLex (compareOn (·.localEnd.2)) <|
      compareLex (compareOn (·.remoteEnd.1)) (compareOn (·.remoteEnd.2))

instance : Std.TransCmp FlowKey.cmp := by unfold FlowKey.cmp; infer_instance

theorem FlowKey.cmp_eq_iff {a b : FlowKey} : FlowKey.cmp a b = .eq ↔ a = b := by
  obtain ⟨ap, ⟨al, alp⟩, ⟨ar, arp⟩⟩ := a
  obtain ⟨bp, ⟨bl, blp⟩, ⟨br, brp⟩⟩ := b
  simp [FlowKey.cmp, compareLex, compareOn, Ordering.then_eq_eq, and_assoc]

instance : Std.LawfulEqCmp FlowKey.cmp where
  eq_of_compare := FlowKey.cmp_eq_iff.mp
  compare_self := FlowKey.cmp_eq_iff.mpr rfl

structure Flow where
  createdMs : Nat
  lastMs : Nat
  packets : Nat
  bytes : Nat
  replied : Bool
  openedBy : Dir
  closing : Bool
  deriving DecidableEq

inductive Reason
  | malformed
  | fragment
  | badFlags
  | spoofed
  | banned
  | synFlood
  | rule (i : Nat)
  | policy
  deriving DecidableEq

inductive Verdict
  | accept
  | drop (r : Reason)
  deriving DecidableEq

structure Ban where
  untilMs : Nat
  reason : String
  strikes : Nat
  deriving DecidableEq

structure Counters where
  acceptedIn : Nat := 0
  acceptedOut : Nat := 0
  droppedIn : Nat := 0
  droppedOut : Nat := 0
  malformed : Nat := 0
  spoofed : Nat := 0
  banned : Nat := 0
  synFlood : Nat := 0
  scansDetected : Nat := 0
  bansIssued : Nat := 0

structure ScanTracker where
  windowStartMs : Nat
  ports : List UInt16

structure Protections where
  synRate : UInt32 := 20
  synBurst : UInt32 := 40
  scanPorts : Nat := 20
  scanWindowMs : Nat := 10000
  scanBanMs : Nat := 3600000
  dropFragments : Bool := true

structure Firewall where
  rules : List Rule
  policyIn : Action
  policyOut : Action
  protections : Protections
  enabled : Bool
  flows : TreeMap FlowKey Flow FlowKey.cmp
  maxFlows : Nat
  bans : TreeMap Ip Ban
  synBuckets : TreeMap Ip Bucket
  scans : TreeMap Ip ScanTracker
  localIps : List Ip
  allowlist : List Cidr
  counters : Counters
  log : List (Dir × Packet × Reason)
  logDrops : Bool

def tcpEstTimeoutMs : Nat := 3600000
def tcpCloseTimeoutMs : Nat := 10000
def tcpNewTimeoutMs : Nat := 60000
def udpTimeoutMs : Nat := 30000
def udpStreamTimeoutMs : Nat := 180000
def icmpTimeoutMs : Nat := 30000

def flowKey (dir : Dir) (p : Packet) : FlowKey :=
  match dir with
  | .outbound => ⟨p.proto.number, (p.src, p.sport), (p.dst, p.dport)⟩
  | .inbound => ⟨p.proto.number, (p.dst, p.dport), (p.src, p.sport)⟩

def flowTimeout (proto : UInt8) (f : Flow) : Nat :=
  if proto = 6 then
    if f.closing then tcpCloseTimeoutMs else if f.replied then tcpEstTimeoutMs else tcpNewTimeoutMs
  else if proto = 17 then
    if f.replied then udpStreamTimeoutMs else udpTimeoutMs
  else icmpTimeoutMs

namespace Firewall

/-- The secure default rule set: inbound closed but for SSH, ping and DHCP
replies, outbound open. -/
def withDefaults : Firewall where
  rules :=
    [{ dir := .inbound, action := .accept, proto := some .tcp, dport := some ⟨22, 22⟩,
       comment := "ssh", system := true },
     { dir := .inbound, action := .accept, proto := some .icmp, icmpType := some 8,
       limit := some (.new 10 20), comment := "ping (rate limited)", system := true },
     { dir := .inbound, action := .accept, proto := some .udp, sport := some ⟨67, 67⟩,
       dport := some ⟨68, 68⟩, comment := "dhcp client", system := true }]
  policyIn := .drop
  policyOut := .accept
  protections := {}
  enabled := true
  flows := ∅
  maxFlows := 32768
  bans := ∅
  synBuckets := ∅
  scans := ∅
  localIps := []
  allowlist := []
  counters := {}
  log := []
  logDrops := true

/-- Flag sets no TCP stack sends: NULL, XMAS, SYN+FIN and SYN+RST. -/
def badFlags (f : UInt8) : Bool :=
  open Tcpf in
  let isSyn := f &&& syn != 0
  f &&& (fin ||| syn ||| rst ||| Tcpf.ack ||| psh ||| urg) == 0 ||
    (f &&& (fin ||| psh ||| urg) == fin ||| psh ||| urg && !isSyn && f &&& Tcpf.ack == 0) ||
    (isSyn && f &&& fin != 0) || (isSyn && f &&& rst != 0)

def sanity (fw : Firewall) (dir : Dir) (p : Packet) : Option Reason :=
  if p.fragment ∧ fw.protections.dropFragments then some .fragment
  else if p.proto = .tcp ∧ badFlags p.tcpFlags then some .badFlags
  else if dir = .inbound ∧ (p.src[0] = 127 ∨ p.src ∈ fw.localIps ∨ p.src[0] = 0) then some .spoofed
  else none

def allowlisted (fw : Firewall) (ip : Ip) : Bool := fw.allowlist.any (·.contains ip)

/-- `duration_ms.saturating_mul(1 << (strikes - 1).min(6))`. -/
def banLength (durationMs strikes : Nat) : Nat :=
  min (durationMs * 2 ^ min (strikes - 1) 6) (2 ^ 64 - 1)

/-- Ban `ip`; repeat offenders get doubled durations. Addresses on the allow
list and the host's own are left alone. -/
def ban (fw : Firewall) (ip : Ip) (now durationMs : Nat) (reason : String) :
    Option (Nat × Firewall) :=
  if fw.allowlisted ip ∨ ip ∈ fw.localIps then some (0, fw)
  else do
    let strikes ← add 32 (fw.bans[ip]?.elim 0 (·.strikes)) 1
    let dur := banLength durationMs strikes
    let untilMs ← add 64 now dur
    let issued ← add 64 fw.counters.bansIssued 1
    some (dur,
      { fw with
        bans := fw.bans.insert ip ⟨untilMs, reason, strikes⟩
        counters := { fw.counters with bansIssued := issued }
        -- flows of the offender die with the ban
        flows := fw.flows.filter fun k _ => k.remoteEnd.1 != ip })

def unban (fw : Firewall) (ip : Ip) : Bool × Firewall :=
  (fw.bans.contains ip, { fw with bans := fw.bans.erase ip })

def isBanned (fw : Firewall) (ip : Ip) (now : Nat) : Bool := fw.bans[ip]?.any (now < ·.untilMs)

/-- Drop expired flows and bans, stale limiter and scan state. -/
def expire (fw : Firewall) (now : Nat) : Firewall :=
  { fw with
    flows := fw.flows.filter fun k f => now - f.lastMs ≤ flowTimeout k.proto f
    bans := fw.bans.filter fun _ b => now < b.untilMs
    synBuckets := fw.synBuckets.filter fun _ b => now - b.lastMs < 60000
    scans := fw.scans.filter fun _ t => now - t.windowStartMs ≤ fw.protections.scanWindowMs }

/-- The tracker of a source after a refused packet to `port`. -/
def scanned (fw : Firewall) (src : Ip) (port : UInt16) (now : Nat) : ScanTracker :=
  let t := fw.scans[src]?.getD ⟨now, []⟩
  let t := if fw.protections.scanWindowMs < now - t.windowStartMs then ⟨now, []⟩ else t
  if port ∈ t.ports then t else { t with ports := t.ports ++ [port] }

/-- Record an inbound packet refused by policy; ban sources that sweep ports. -/
def noteRefused (fw : Firewall) (p : Packet) (now : Nat) : Option Firewall :=
  if fw.protections.scanPorts = 0 ∨ fw.allowlisted p.src ∨ ¬ (p.proto = .tcp ∨ p.proto = .udp) then
    some fw
  else
    let t := fw.scanned p.src p.dport now
    if fw.protections.scanPorts ≤ t.ports.length then do
      let detected ← add 64 fw.counters.scansDetected 1
      let banned ← ban
        { fw with
          scans := fw.scans.erase p.src
          counters := { fw.counters with scansDetected := detected } }
        p.src now fw.protections.scanBanMs "port scan"
      some banned.2
    else some { fw with scans := fw.scans.insert p.src t }

/-- `min_by_key` over the last use: the first of the stalest flows. -/
def stalest : List (FlowKey × Flow) → Option FlowKey
  | [] => none
  | kf :: rest =>
    some (rest.foldl (fun m x => if x.2.lastMs < m.2.lastMs then x else m) kf).1

/-- Room for one more flow. -/
def makeRoom (fw : Firewall) (now : Nat) : Firewall :=
  if fw.maxFlows ≤ fw.flows.size then
    let fw := fw.expire now
    if fw.maxFlows ≤ fw.flows.size then
      match stalest fw.flows.toList with
      | some k => { fw with flows := fw.flows.erase k }
      | none => fw
    else fw
  else fw

def track (fw : Firewall) (key : FlowKey) (dir : Dir) (p : Packet) (now : Nat) : Firewall :=
  let fw := fw.makeRoom now
  { fw with flows := fw.flows.insert key ⟨now, now, 1, p.len, false, dir, false⟩ }

/-- The flow after one more of its packets. -/
def refresh (f : Flow) (dir : Dir) (p : Packet) (now : Nat) : Option Flow := do
  let packets ← add 64 f.packets 1
  let bytes ← add 64 f.bytes p.len
  some
    { f with
      lastMs := now, packets, bytes
      replied := f.replied || dir != f.openedBy
      closing := f.closing || (p.proto == .tcp && p.tcpFlags &&& (Tcpf.fin ||| Tcpf.rst) != 0) }

/-- The first rule that matches and whose limit lets the packet through. -/
def firstRule (dir : Dir) (p : Packet) (now : Nat) :
    Nat → List Rule → Option (Option (Action × Reason) × List Rule)
  | _, [] => some (none, [])
  | i, r :: rs =>
    if r.matches dir p then do
      let (ok, r) ← r.take now
      if ok then
        let hits ← add 64 r.hits 1
        let bytes ← add 64 r.bytes p.len
        some (some (r.action, .rule i), { r with hits, bytes } :: rs)
      else
        let rest ← firstRule dir p now (i + 1) rs
        some (rest.1, r :: rest.2)
    else do
      let rest ← firstRule dir p now (i + 1) rs
      some (rest.1, r :: rest.2)

/-- A new inbound TCP connection starts with a SYN and no ACK. -/
def newTcpIn (dir : Dir) (p : Packet) : Bool :=
  dir == .inbound && p.proto == .tcp && p.tcpFlags &&& Tcpf.syn != 0 && p.tcpFlags &&& Tcpf.ack == 0

/-- An accepted packet of no known flow: limit new connections, then track it. -/
def admitNew (fw : Firewall) (dir : Dir) (p : Packet) (now : Nat) : Option (Verdict × Firewall) :=
  if newTcpIn dir p ∧ 0 < fw.protections.synRate ∧ ¬ fw.allowlisted p.src then do
    let b := fw.synBuckets[p.src]?.getD (.new fw.protections.synRate fw.protections.synBurst)
    let taken ← b.take now
    let fw := { fw with synBuckets := fw.synBuckets.insert p.src taken.2 }
    if taken.1 then some (.accept, fw.track (flowKey dir p) dir p now)
    else
      let n ← add 64 fw.counters.synFlood 1
      some (.drop .synFlood, { fw with counters := { fw.counters with synFlood := n } })
  else some (.accept, fw.track (flowKey dir p) dir p now)

/-- Rules and policy, for a packet of no known flow. -/
def decideNew (fw : Firewall) (dir : Dir) (p : Packet) (now : Nat) : Option (Verdict × Firewall) :=
  -- a stray segment of no known connection is dropped quietly
  if dir = .inbound ∧ p.proto = .tcp ∧ ¬ newTcpIn dir p then some (.drop .policy, fw)
  else do
    let found ← firstRule dir p now 0 fw.rules
    let fw := { fw with rules := found.2 }
    let policy := if dir = .inbound then fw.policyIn else fw.policyOut
    let decision := found.1.getD (policy, .policy)
    match decision.1 with
    | .drop =>
      if dir = .inbound then
        let fw ← fw.noteRefused p now
        some (.drop decision.2, fw)
      else some (.drop decision.2, fw)
    | .accept => fw.admitNew dir p now

/-- Connection tracking, for a packet of no banned address. -/
def decideFlow (fw : Firewall) (dir : Dir) (p : Packet) (now : Nat) : Option (Verdict × Firewall) :=
  match fw.flows[flowKey dir p]? with
  | some f =>
    if now - f.lastMs ≤ flowTimeout (flowKey dir p).proto f then do
      let f ← refresh f dir p now
      some (.accept, { fw with flows := fw.flows.insert (flowKey dir p) f })
    else decideNew { fw with flows := fw.flows.erase (flowKey dir p) } dir p now
  | none => decideNew fw dir p now

def remoteIp (dir : Dir) (p : Packet) : Ip := if dir = .inbound then p.src else p.dst

def decide (fw : Firewall) (dir : Dir) (p : Packet) (now : Nat) : Option (Verdict × Firewall) :=
  if ¬ fw.enabled then some (.accept, fw)
  else match fw.sanity dir p with
    | some r =>
      if r = .spoofed then do
        let n ← add 64 fw.counters.spoofed 1
        some (.drop r, { fw with counters := { fw.counters with spoofed := n } })
      else some (.drop r, fw)
    | none =>
      match fw.bans[remoteIp dir p]? with
      | some b =>
        if now < b.untilMs then do
          let n ← add 64 fw.counters.banned 1
          some (.drop .banned, { fw with counters := { fw.counters with banned := n } })
        else decideFlow { fw with bans := fw.bans.erase (remoteIp dir p) } dir p now
      | none => decideFlow fw dir p now

def count (c : Counters) (dir : Dir) (accepted : Bool) : Option Counters :=
  match dir, accepted with
  | .inbound, true => (add 64 c.acceptedIn 1).map fun n => { c with acceptedIn := n }
  | .outbound, true => (add 64 c.acceptedOut 1).map fun n => { c with acceptedOut := n }
  | .inbound, false => (add 64 c.droppedIn 1).map fun n => { c with droppedIn := n }
  | .outbound, false => (add 64 c.droppedOut 1).map fun n => { c with droppedOut := n }

def check (fw : Firewall) (dir : Dir) (p : Packet) (now : Nat) : Option (Verdict × Firewall) := do
  let decided ← fw.decide dir p now
  let fw := decided.2
  match decided.1 with
  | .accept =>
    let counters ← count fw.counters dir true
    some (.accept, { fw with counters })
  | .drop r =>
    let counters ← count fw.counters dir false
    let log :=
      if fw.logDrops ∧ fw.log.length < 64 ∧ r ≠ .policy then fw.log ++ [(dir, p, r)] else fw.log
    some (.drop r, { fw with counters, log })

/-- Filter one Ethernet frame. -/
def checkFrame (fw : Firewall) (dir : Dir) (frame : List UInt8) (now : Nat) :
    Option (Verdict × Firewall) :=
  match parseEthernet frame with
  | .ipv4 p => fw.check dir p now
  | .malformed => do
    let malformed ← add 64 fw.counters.malformed 1
    let counters ← count { fw.counters with malformed } dir false
    some (.drop .malformed, { fw with counters })
  | .arp | .other => some (.accept, fw)

end Firewall

def authFailLimit : Nat := 5
def authFailWindowMs : Nat := 600000
def authBanMs : Nat := 600000

/-- The firewall and the table of failed logins. -/
structure System where
  fw : Firewall
  authFails : TreeMap Ip (Nat × Nat)

/-- What happens to the firewall, each with the clock readings it takes. -/
inductive Call
  | check (dir : Dir) (p : Packet) (now : Nat)
  | checkFrame (dir : Dir) (frame : List UInt8) (now : Nat)
  | noteRefused (p : Packet) (now : Nat)
  | ban (ip : Ip) (now durationMs : Nat) (reason : String)
  | unban (ip : Ip)
  | expire (now : Nat)
  | takeLog
  | authFailure (ip : Ip) (now later : Nat)
  | authSuccess (ip : Ip)
  | setLocalIps (ips : List Ip)
  | setRules (rules : List Rule)
  | setAllowlist (blocks : List Cidr)

/-- The failures counted against an address; a window that has passed starts
over. -/
def System.authEntry (s : System) (ip : Ip) (now : Nat) : Option (Nat × Nat) := do
  let e := s.authFails[ip]?.getD (now, 0)
  let age ← sub now e.1
  some (if authFailWindowMs < age then (now, 0) else e)

/-- A failed login: the fifth one in the window brings a ban. The clock is read
once for the window and again for the ban. -/
def System.authFailure (s : System) (ip : Ip) (now later : Nat) : Option System := do
  let e ← s.authEntry ip now
  let n ← add 32 e.2 1
  if authFailLimit ≤ n then
    let banned ← s.fw.ban ip later authBanMs "repeated authentication failures"
    some ⟨banned.2, s.authFails.erase ip⟩
  else some { s with authFails := s.authFails.insert ip (e.1, n) }

def step : Call → System → Option System
  | .check dir p now, s => (s.fw.check dir p now).map fun r => { s with fw := r.2 }
  | .checkFrame dir frame now, s => (s.fw.checkFrame dir frame now).map fun r => { s with fw := r.2 }
  | .noteRefused p now, s => (s.fw.noteRefused p now).map fun fw => { s with fw }
  | .ban ip now durationMs reason, s =>
    (s.fw.ban ip now durationMs reason).map fun r => { s with fw := r.2 }
  | .unban ip, s => some { s with fw := (s.fw.unban ip).2 }
  | .expire now, s => some { s with fw := s.fw.expire now }
  | .takeLog, s => some { s with fw := { s.fw with log := [] } }
  | .authFailure ip now later, s => s.authFailure ip now later
  | .authSuccess ip, s => some { s with authFails := s.authFails.erase ip }
  | .setLocalIps ips, s => some { s with fw := { s.fw with localIps := ips } }
  | .setRules rules, s => some { s with fw := { s.fw with rules } }
  | .setAllowlist blocks, s => some { s with fw := { s.fw with allowlist := blocks } }

/-- The clock readings of a call, in order. -/
def Call.times : Call → List Nat
  | .check _ _ now => [now]
  | .checkFrame _ _ now => [now]
  | .noteRefused _ now => [now]
  | .ban _ now _ _ => [now]
  | .expire now => [now]
  | .authFailure _ now later => [now, later]
  | _ => []

/-- The clock never goes back. -/
def Steady (calls : List Call) : Prop := (calls.flatMap Call.times).Pairwise (· ≤ ·)

instance (calls : List Call) : Decidable (Steady calls) :=
  inferInstanceAs (Decidable ((calls.flatMap Call.times).Pairwise (· ≤ ·)))

end Fastros.Net
