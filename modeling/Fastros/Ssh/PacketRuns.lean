import Fastros.Ssh.PacketRoundTrip

/-!
# Runs of the packet layer

A direction is a list of events: packets and changes of keys. Whatever the sender puts out
for them is read back in order, however it is cut. If a packet with a MAC is altered, the
receiver gives the payloads before it and nothing more, unless a tag was forged.
-/

namespace Fastros.Ssh

open RecvHalf

open List hiding get set modify

open Lib.Stateful (bind_ok bind_eq_ok)

variable {x : Crypto} {k : Keys} {r r' : RecvHalf} {data rest : Bytes} {n : Nat}

def Event.payload : Event → Bytes
  | .packet payload _ => payload
  | .newKeys _ _ => [Msg.newKeys]

def Event.random : Event → Nat → UInt8
  | .packet _ random => random
  | .newKeys _ random => random

/-- The keys after an event. -/
def keysAfter (x : Crypto) (k : Keys) : Event → Keys
  | .packet payload random => (framePacket x k payload random).2
  | .newKeys e _ => e.keys

/-- The bytes of an event's packet. -/
def frameOf (x : Crypto) (k : Keys) (e : Event) : Bytes := (framePacket x k e.payload e.random).1

/-- The bytes of some events. -/
def wire (x : Crypto) : List Event → Keys → Bytes
  | [], _ => []
  | e :: es, k => frameOf x k e ++ wire x es (keysAfter x k e)

/-- The payloads are not empty and their packets are not too long. -/
def Fit (x : Crypto) : List Event → Keys → Prop
  | [], _ => True
  | e :: es, k => (e.payload ≠ [] ∧ 1 + e.payload.length + padLength k e.payload ≤ maxPacket) ∧
    Fit x es (keysAfter x k e)

theorem setKeys_keys (s : SendHalf) (e : Exchange) : (s.setKeys e.keys).keys = e.keys := by
  rw [SendHalf.setKeys]
  split <;> rfl

theorem setKeys_out (s : SendHalf) (k : Keys) : (s.setKeys k).out = s.out := by
  rw [SendHalf.setKeys]
  split <;> rfl

theorem step_out (s : SendHalf) (e : Event) : (s.step x e).out = s.out ++ frameOf x s.keys e := by
  cases e with
  | packet payload random => rfl
  | newKeys e random => exact setKeys_out _ _

theorem step_keys (s : SendHalf) (e : Event) : (s.step x e).keys = keysAfter x s.keys e := by
  cases e with
  | packet payload random => rfl
  | newKeys e random => exact setKeys_keys _ _

/-- The sender puts out the packets of its events. -/
theorem out_eq (es : List Event) : ∀ s : SendHalf,
    (es.foldl (SendHalf.step x) s).out = s.out ++ wire x es s.keys := by
  induction es with
  | nil => exact fun s => (append_nil _).symm
  | cons e es ih =>
    intro s
    rw [foldl_cons, ih, step_out, step_keys, wire, append_assoc]

theorem regular_keysAfter (h : k.Regular) (e : Event) : (keysAfter x k e).Regular := by
  cases e with
  | packet payload random => exact regular_protect h _ _
  | newKeys e random => exact regular_exchange e

/-- The receiver after an event: new keys after a NEWKEYS. -/
def RecvHalf.follow (r : RecvHalf) : Event → RecvHalf
  | .packet _ _ => r
  | .newKeys e _ => r.newKeys e

/-- The payloads that the receiver gives for some events, up to the first error. -/
def RecvHalf.receive (x : Crypto) : List Event → RecvHalf → List Bytes
  | [], _ => []
  | e :: es, r =>
    match RecvHalf.readPacket x r with
    | .ok payload r' => payload :: receive x es (r'.follow e)
    | .error _ _ => []

theorem ready_newKeys (h : Ready r k data) (e : Exchange) : Ready (r.newKeys e) e.keys data := by
  rw [newKeys, setKeys]
  split
  · exact ⟨rfl, h.ahead, h.chunks⟩
  · exact ⟨rfl, h.ahead, h.chunks⟩

theorem readPacket_frame {e : Event} (hreg : k.Regular) (hp : e.payload ≠ [])
    (hmax : 1 + e.payload.length + padLength k e.payload ≤ maxPacket)
    (h : Ready r k (frameOf x k e ++ rest)) :
    ∃ r', readPacket x r = .ok e.payload r' ∧ Ready (r'.follow e) (keysAfter x k e) rest := by
  obtain ⟨r1, hrun, h1⟩ := readBody_frame e.random hreg hp hmax h
  refine ⟨{ r1 with keys := { r1.keys with seq := r1.keys.seq + 1 } }, ?_, ?_⟩
  · rw [readPacket, bind_ok hrun]
    rfl
  have h2 : Ready { r1 with keys := { r1.keys with seq := r1.keys.seq + 1 } }
      (framePacket x k e.payload e.random).2 rest := by
    refine ⟨?_, h1.ahead, h1.chunks⟩
    rw [h1.keys]
    rfl
  cases e with
  | packet payload random => exact h2
  | newKeys e random => exact ready_newKeys h2 e

/-- The events before some point are received, and the rest is ahead. -/
theorem receive_append (es : List Event) : ∀ (r : RecvHalf) (k : Keys), k.Regular → Fit x es k →
    Ready r k (wire x es k ++ rest) →
    ∃ r', Ready r' (es.foldl (keysAfter x) k) rest ∧
      ∀ later, receive x (es ++ later) r = es.map Event.payload ++ receive x later r' := by
  induction es with
  | nil => exact fun r k _ _ h => ⟨r, h, fun later => rfl⟩
  | cons e es ih =>
    intro r k hreg hfit h
    obtain ⟨⟨hp, hmax⟩, hfits⟩ := hfit
    rw [wire, append_assoc] at h
    obtain ⟨r1, hrun, h1⟩ := readPacket_frame hreg hp hmax h
    obtain ⟨r', h', hreceive⟩ := ih _ _ (regular_keysAfter hreg e) hfits h1
    refine ⟨r', h', fun later => ?_⟩
    rw [cons_append, receive, hrun]
    simp only [hreceive later, map_cons, cons_append]

theorem Ready.length_le (h : Ready r k data) (hn : n ≤ r.buf.length) : n ≤ data.length := by
  rw [← h.ahead, RecvHalf.ahead, length_append]
  omega

def tagLength (k : Keys) : Nat :=
  match k.cipher with
  | .chaCha _ _ => 16
  | _ => 32

/-- The tag of some data. -/
def macOf (x : Crypto) (k : Keys) (d : Bytes) : Bytes :=
  match k.cipher with
  | .chaCha main _ => x.poly1305 (chaChaPolyKey x main k.seq) d
  | _ => k.hmac x d

/-- A packet without its tag. -/
def sealedPacket (x : Crypto) (k : Keys) (pkt : Bytes) : Bytes :=
  match k.cipher with
  | .plain => pkt
  | .chaCha main hdr => chaChaCrypt x hdr k.seq 0 (pkt.take 4) ++ chaChaCrypt x main k.seq 1 (pkt.drop 4)
  | _ => if k.mac = .hmacSha256Etm then pkt.take 4 ++ (k.ctrApply x (pkt.drop 4)).1 else (k.ctrApply x pkt).1

/-- What the tag of a packet is for: its bytes, or with encrypt-and-MAC what they decrypt to. -/
def macInput (x : Crypto) (k : Keys) (b : Bytes) : Bytes :=
  match k.cipher with
  | .chaCha _ _ => b
  | _ => if k.mac = .hmacSha256Etm then b else (k.ctrApply x b).1

theorem length_macOf (k : Keys) (d : Bytes) : (macOf x k d).length = tagLength k := by
  rw [macOf, tagLength]
  cases k.cipher with
  | chaCha main hdr => exact x.length_poly1305 _ _
  | _ => exact x.length_hmacSha256 _ _

variable {a b hdr main payload pkt w : Bytes}

theorem protect_sealed (hc : k.cipher ≠ .plain) (pkt : Bytes) : (protect x k pkt).1
    = sealedPacket x k pkt ++ macOf x k (macInput x k (sealedPacket x k pkt)) := by
  rw [protect, sealedPacket, macOf, macInput]
  cases hcipher : k.cipher with
  | plain => exact absurd hcipher hc
  | chaCha main hdr => rfl
  | _ =>
    simp only
    split
    · rfl
    · rw [ctrApply_twice]

/-- A reader that returns found all the bytes its length asks for. -/
theorem framed_ready {n : Nat} {bad : RecvHalf → Prop} [∀ r, Decidable (bad r)] {e : SshError}
    {len : RecvHalf → Nat} {rest : RecvHalf → RecvHalf → RecvM Bytes} (h : Ready r k data)
    (hrun : (fill n >>= fun _ => get >>= fun r0 => if bad r0 then throw e else
      fill (len r0) >>= fun _ => get >>= fun r => rest r0 r) r = .ok a r') :
    ∃ r0 r1, Ready r1 k data ∧ len r0 ≤ r1.buf.length ∧ rest r0 r1 r1 = .ok a r' := by
  obtain ⟨_, r1, hfill1, hrun⟩ := bind_eq_ok.mp hrun
  obtain ⟨h1, -⟩ := fill_spec h hfill1
  obtain ⟨c1, _, hget, hrun⟩ := bind_eq_ok.mp hrun
  obtain ⟨rfl, rfl⟩ := EStateM.Result.ok.inj hget
  split at hrun
  · cases hrun
  obtain ⟨_, r2, hfill2, hrun⟩ := bind_eq_ok.mp hrun
  obtain ⟨h2, hbuf⟩ := fill_spec h1 hfill2
  obtain ⟨c2, _, hget, hrun⟩ := bind_eq_ok.mp hrun
  obtain ⟨rfl, rfl⟩ := EStateM.Result.ok.inj hget
  exact ⟨_, _, h2, hbuf, hrun⟩

theorem readChaCha_verified (h : Ready r k data) (hrun : readChaCha x main hdr r = .ok payload r') :
    ∃ n, n + 16 ≤ data.length ∧
      x.poly1305 (chaChaPolyKey x main k.seq) (data.take n) = (data.drop n).take 16 := by
  obtain ⟨r1, r2, h2, hbuf, hrun⟩ := framed_ready h hrun
  generalize fromBe32 (chaChaCrypt x hdr r1.keys.seq 0 (r1.buf.take 4)) = len at hrun hbuf
  dsimp only at hrun
  split at hrun
  · cases hrun
  · next htag =>
    rw [Decidable.not_not, h2.keys, h2.take (by omega), h2.drop_take hbuf] at htag
    exact ⟨4 + len, h2.length_le hbuf, htag⟩

theorem readEtm_verified (h : Ready r k data) (hrun : readEtm x r = .ok payload r') :
    ∃ n, n + 32 ≤ data.length ∧ k.hmac x (data.take n) = (data.drop n).take 32 := by
  obtain ⟨r1, r2, h2, hbuf, hrun⟩ := framed_ready h hrun
  generalize fromBe32 r1.buf = len at hrun hbuf
  dsimp only at hrun
  split at hrun
  · cases hrun
  · next htag =>
    rw [Decidable.not_not, h2.keys, h2.take (by omega), h2.drop_take hbuf] at htag
    exact ⟨4 + len, h2.length_le hbuf, htag⟩

theorem readEam_verified (h : Ready r k data) (hrun : readEam x r = .ok payload r') :
    ∃ n, n + 32 ≤ data.length ∧ k.hmac x (k.ctrApply x (data.take n)).1 = (data.drop n).take 32 := by
  obtain ⟨r1, r2, h2, hbuf, hrun⟩ := framed_ready h hrun
  generalize fromBe32 (r1.keys.ctrApply x (r1.buf.take 16)).1 = len at hrun hbuf
  dsimp only at hrun
  obtain ⟨_, r3, hset, hrun⟩ := bind_eq_ok.mp hrun
  split at hrun
  · cases hrun
  · next htag =>
    rw [Decidable.not_not, ctrApply_hmac, h2.keys, h2.take (by omega), h2.drop_take hbuf] at htag
    exact ⟨4 + len, h2.length_le hbuf, htag⟩

/-- A packet that is accepted has a tag that fits. -/
theorem readBody_verified (hc : k.cipher ≠ .plain) (h : Ready r k data)
    (hrun : readBody x r = .ok payload r') :
    ∃ n, n + tagLength k ≤ data.length ∧
      macOf x k (macInput x k (data.take n)) = (data.drop n).take (tagLength k) := by
  rw [readBody, h.keys] at hrun
  rw [tagLength]
  simp only [macOf, macInput]
  cases hcipher : k.cipher with
  | plain => exact absurd hcipher hc
  | chaCha main hdr =>
    rw [hcipher] at hrun
    exact readChaCha_verified h hrun
  | _ =>
    rw [hcipher] at hrun
    by_cases hm : k.mac = .hmacSha256Etm
    · simp only [hm, if_true] at hrun ⊢
      exact readEtm_verified h hrun
    · simp only [hm, if_false] at hrun ⊢
      exact readEam_verified h hrun

/-- Wherever what arrives is cut, a tag that fits the bytes before it is the one the sender
made: those bytes are the packet it authenticated with these keys and this number. -/
def Unforged (x : Crypto) (k : Keys) (pkt arrived : Bytes) : Prop :=
  ∀ n, macOf x k (macInput x k (arrived.take n)) = (arrived.drop n).take (tagLength k) →
    arrived.take n = sealedPacket x k pkt

/-- An altered packet is not accepted. -/
theorem readPacket_altered (hc : k.cipher ≠ .plain) (h : Ready r k (w ++ rest))
    (hlen : w.length = (protect x k pkt).1.length) (hne : w ≠ (protect x k pkt).1)
    (hforge : Unforged x k pkt (w ++ rest)) : ∃ e r', readPacket x r = .error e r' := by
  cases hrun : readPacket x r with
  | error e r' => exact ⟨e, r', rfl⟩
  | ok payload r' =>
    obtain ⟨p, r1, hbody, -⟩ := bind_eq_ok.mp hrun
    obtain ⟨n, hn, htag⟩ := readBody_verified hc h hbody
    have hinput := hforge n htag
    have hframe := protect_sealed (x := x) hc pkt
    have hsealed : (sealedPacket x k pkt).length = n := by
      rw [← hinput, length_take]
      omega
    have hprefix : (w ++ rest).take (n + tagLength k) = (protect x k pkt).1 := by
      rw [take_add, hframe, ← hinput, htag]
    rw [hframe, length_append, length_macOf, hsealed] at hlen
    rw [← hlen, take_left] at hprefix
    exact absurd hprefix hne

/-- The sender's keys after some events. -/
theorem foldl_step_keys (x : Crypto) (es : List Event) (s : SendHalf) :
    (es.foldl (SendHalf.step x) s).keys = es.foldl (keysAfter x) s.keys := by
  induction es generalizing s with
  | nil => rfl
  | cons e es ih => rw [foldl_cons, ih, step_keys, foldl_cons]

/-- The packet layer from end to end, for any events with payloads that fit and any way the
bytes are cut: the payloads are received in order. If the packet of the next event, under keys
with a MAC, is replaced by other bytes, no payload is received after them. -/
theorem packet_layer (x : Crypto) (es : List Event) (hfit : Fit x es .plain) (arriving : List Bytes)
    (hchunks : ∀ c ∈ arriving, c ≠ []) :
    (∀ rest, arriving.flatten = (es.foldl (SendHalf.step x) .new).out ++ rest →
      RecvHalf.receive x es (.new arriving) = es.map Event.payload) ∧
    (∀ (e : Event) (later : List Event) (w rest : Bytes),
      let k := (es.foldl (SendHalf.step x) .new).keys
      k.cipher ≠ .plain → w.length = (frameOf x k e).length → w ≠ frameOf x k e →
      arriving.flatten = (es.foldl (SendHalf.step x) .new).out ++ (w ++ rest) →
      Unforged x k (clearPacket k e.payload e.random) (w ++ rest) →
      RecvHalf.receive x (es ++ e :: later) (.new arriving) = es.map Event.payload) := by
  have hrecv : ∀ rest, arriving.flatten = (es.foldl (SendHalf.step x) .new).out ++ rest →
      ∃ r', Ready r' (es.foldl (keysAfter x) .plain) rest ∧
        ∀ later, receive x (es ++ later) (.new arriving)
          = es.map Event.payload ++ receive x later r' := by
    intro rest hbytes
    rw [out_eq] at hbytes
    exact receive_append es (.new arriving) .plain rfl hfit ⟨rfl, hbytes, hchunks⟩
  constructor
  · intro rest hbytes
    obtain ⟨r', -, hreceive⟩ := hrecv rest hbytes
    have h := hreceive []
    rw [append_nil] at h
    exact h.trans (append_nil _)
  · intro e later w rest k hc hlen hne hbytes hforge
    obtain ⟨r', hready, hreceive⟩ := hrecv (w ++ rest) hbytes
    rw [show es.foldl (keysAfter x) .plain = k from
      (foldl_step_keys x es .new).symm] at hready
    obtain ⟨err, r1, hrun⟩ := readPacket_altered hc hready hlen hne hforge
    rw [hreceive, receive, hrun]
    exact append_nil _

/-- The sum of the bytes, weighted by powers of an odd number. -/
def weighted (n : Nat) (key data : Bytes) : Bytes :=
  (List.range n).map fun i => (key ++ data).foldl (fun h b => h * UInt8.ofNat (2 * i + 3) + b + 1) 0

/-- Primitives with weighted sums for tags. -/
def sums : Crypto where
  chaCha := fun _ _ i => UInt8.ofNat (3 * i)
  aes128 := fun _ _ i => UInt8.ofNat (5 * i + 1)
  aes256 := fun _ _ i => UInt8.ofNat (7 * i + 1)
  poly1305 := weighted 16
  hmacSha256 := weighted 32
  length_poly1305 := fun _ _ => by simp [weighted]
  length_hmacSha256 := fun _ _ => by simp [weighted]

/-- A change of keys, and then a packet of which a byte is altered. -/
theorem packet_layer_altered :
    let es : List Event := [.newKeys ⟨true, .aes128Ctr, .hmacSha256Etm, [], [], []⟩ fun _ => 0]
    let s := es.foldl (SendHalf.step sums) .new
    let e : Event := .packet [6] fun _ => 0
    let w := (frameOf sums s.keys e).set 5 9
    receive sums (es ++ [e]) (.new [s.out, w]) = [[Msg.newKeys]] := by
  intro es s e w
  have hchunks : ∀ c ∈ [s.out, w], c ≠ [] := by decide +kernel
  refine (packet_layer sums es ⟨⟨by decide, by decide⟩, trivial⟩ [s.out, w] hchunks).2 e [] w []
    (by decide +kernel) (by decide +kernel) (by decide +kernel) (by simp [s, es]) ?_
  have hcuts : ∀ n < (w ++ []).length + 1,
      macOf sums s.keys (macInput sums s.keys ((w ++ []).take n)) ≠
        ((w ++ []).drop n).take (tagLength s.keys) := by
    decide +kernel
  intro n htag
  by_cases hn : n < (w ++ []).length + 1
  · exact absurd htag (hcuts n hn)
  · have hlen := congrArg length htag
    rw [length_macOf, drop_eq_nil_of_le (by omega)] at hlen
    cases hlen

/-- An empty payload is sent, and the receiver refuses it. -/
theorem empty_payload_refused :
    let es : List Event := [.packet [] fun _ => 0]
    let s := es.foldl (SendHalf.step sums) .new
    receive sums es (.new [s.out]) = [] ∧ es.map Event.payload = [[]] := by
  decide +kernel

end Fastros.Ssh
