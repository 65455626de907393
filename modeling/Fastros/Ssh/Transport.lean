import Fastros.Lib.Stateful

/-!
# The packet layer of SSH

A direction of a connection has keys: a cipher with its position in the keystream, a MAC
and the sequence number of the next packet. `sendPacket` pads, encrypts and authenticates a
payload; `readPacket` takes a packet from the bytes that have arrived and undoes this. The
keys are replaced at each key exchange, after a NEWKEYS packet under the old ones.

The ciphers are any keyed streams and the MACs any keyed functions.
-/

namespace Fastros.Ssh

abbrev Bytes := List UInt8

inductive SshError where
  | io
  | closed
  | protocol (text : String)
  | mac
  | disconnected (text : String)
  deriving DecidableEq, Repr

inductive CipherAlg where
  | chaChaPoly
  | aes128Ctr
  | aes256Ctr
  deriving DecidableEq, Repr

inductive MacAlg where
  /-- Integrity provided by the AEAD cipher. -/
  | aead
  | hmacSha256
  | hmacSha256Etm
  deriving DecidableEq, Repr

def CipherAlg.block : CipherAlg → Nat
  | .chaChaPoly => 8
  | _ => 16

def maxPacket : Nat := 256 * 1024

/-- The number of the message that ends a key exchange. -/
def Msg.newKeys : UInt8 := 21

/-- The primitives: the keystreams, byte by byte, and the MACs. -/
structure Crypto where
  /-- ChaCha20 under a key and a nonce. -/
  chaCha : Bytes → UInt64 → Nat → UInt8
  /-- AES in counter mode under a key and an initial counter. -/
  aes128 : Bytes → Bytes → Nat → UInt8
  aes256 : Bytes → Bytes → Nat → UInt8
  poly1305 : Bytes → Bytes → Bytes
  hmacSha256 : Bytes → Bytes → Bytes
  length_poly1305 : ∀ key data, (poly1305 key data).length = 16
  length_hmacSha256 : ∀ key data, (hmacSha256 key data).length = 32

/-- A cipher; those in counter mode have used `pos` bytes of their keystream. -/
inductive Cipher where
  | plain
  | chaCha (main hdr : Bytes)
  | aes128 (key iv : Bytes) (pos : Nat)
  | aes256 (key iv : Bytes) (pos : Nat)
  deriving DecidableEq, Repr

/-- One direction's cryptographic state. -/
structure Keys where
  cipher : Cipher
  alg : Option CipherAlg
  mac : MacAlg
  macKey : Bytes
  seq : UInt32
  deriving DecidableEq, Repr

def be32 (n : UInt32) : Bytes :=
  [(n >>> 24).toUInt8, (n >>> 16).toUInt8, (n >>> 8).toUInt8, n.toUInt8]

/-- The number of four bytes. -/
def fromBe32 (b : Bytes) : Nat :=
  (b.getD 0 0).toNat * 2 ^ 24 + (b.getD 1 0).toNat * 2 ^ 16 + (b.getD 2 0).toNat * 2 ^ 8 + (b.getD 3 0).toNat

/-- The data under a keystream from some position on. -/
def applyKeystream (stream : Nat → UInt8) (pos : Nat) : Bytes → Bytes
  | [] => []
  | b :: data => (b ^^^ stream pos) :: applyKeystream stream (pos + 1) data

namespace Keys

def plain : Keys := ⟨.plain, none, .aead, [], 0⟩

def new (alg : CipherAlg) (mac : MacAlg) (key iv macKey : Bytes) (seq : UInt32) : Keys :=
  let cipher := match alg with
    | .chaChaPoly => .chaCha (key.take 32) ((key.drop 32).take 32)
    | .aes128Ctr => .aes128 (key.take 16) (iv.take 16) 0
    | .aes256Ctr => .aes256 (key.take 32) (iv.take 16) 0
  ⟨cipher, some alg, mac, macKey, seq⟩

def block (k : Keys) : Nat := (k.alg.map CipherAlg.block).getD 8

/-- Length field and MAC are outside the padded region. -/
def aadLen (k : Keys) : Bool :=
  match k.cipher with
  | .chaCha _ _ => true
  | _ => k.mac = .hmacSha256Etm

variable (x : Crypto)

/-- The data under the keystream of a cipher in counter mode, which goes on. -/
def ctrApply (k : Keys) (data : Bytes) : Bytes × Keys :=
  match k.cipher with
  | .aes128 key iv pos =>
    (applyKeystream (x.aes128 key iv) pos data, { k with cipher := .aes128 key iv (pos + data.length) })
  | .aes256 key iv pos =>
    (applyKeystream (x.aes256 key iv) pos data, { k with cipher := .aes256 key iv (pos + data.length) })
  | _ => (data, k)

/-- The MAC of the sequence number and the data. -/
def hmac (k : Keys) (data : Bytes) : Bytes := x.hmacSha256 k.macKey (be32 k.seq ++ data)

end Keys

def chaChaPolyKey (x : Crypto) (main : Bytes) (seq : UInt32) : Bytes :=
  (List.range 32).map (x.chaCha main seq.toUInt64)

def chaChaCrypt (x : Crypto) (key : Bytes) (seq : UInt32) (counterBlock : Nat) (data : Bytes) : Bytes :=
  applyKeystream (x.chaCha key seq.toUInt64) (counterBlock * 64) data

/-- Sending direction; `out` is what was written to the stream. -/
structure SendHalf where
  keys : Keys
  inKex : Bool
  strict : Bool
  closed : Bool
  bytesSinceKex : Nat
  out : Bytes

def SendHalf.new : SendHalf := ⟨.plain, false, false, false, 0, []⟩

/-- How much padding a payload gets. -/
def padLength (k : Keys) (payload : Bytes) : Nat :=
  let covered := 1 + payload.length + if k.aadLen then 0 else 4
  let pad := k.block - covered % k.block
  if pad < 4 then pad + k.block else pad

/-- A packet before it is encrypted; `random` gives the padding bytes. -/
def clearPacket (k : Keys) (payload : Bytes) (random : Nat → UInt8) : Bytes :=
  let pad := padLength k payload
  let padding := if k.cipher = .plain then List.replicate pad 0 else (List.range pad).map random
  be32 (UInt32.ofNat (1 + payload.length + pad)) ++ UInt8.ofNat pad :: (payload ++ padding)

/-- The bytes of a packet, and the keys after it but for the sequence number. -/
def protect (x : Crypto) (k : Keys) (pkt : Bytes) : Bytes × Keys :=
  match k.cipher with
  | .plain => (pkt, k)
  | .chaCha main hdr =>
    let sealed := chaChaCrypt x hdr k.seq 0 (pkt.take 4) ++ chaChaCrypt x main k.seq 1 (pkt.drop 4)
    (sealed ++ x.poly1305 (chaChaPolyKey x main k.seq) sealed, k)
  | _ =>
    if k.mac = .hmacSha256Etm then
      let (body, k') := k.ctrApply x (pkt.drop 4)
      (pkt.take 4 ++ body ++ k.hmac x (pkt.take 4 ++ body), k')
    else
      let tag := k.hmac x pkt
      let (sealed, k') := k.ctrApply x pkt
      (sealed ++ tag, k')

/-- The bytes of the packet for a payload, and the keys after it. -/
def framePacket (x : Crypto) (k : Keys) (payload : Bytes) (random : Nat → UInt8) : Bytes × Keys :=
  let (bytes, k') := protect x k (clearPacket k payload random)
  (bytes, { k' with seq := k'.seq + 1 })

namespace SendHalf

variable (x : Crypto)

def sendPacket (s : SendHalf) (payload : Bytes) (random : Nat → UInt8) : SendHalf :=
  let (bytes, k) := framePacket x s.keys payload random
  { s with keys := k, bytesSinceKex := s.bytesSinceKex + bytes.length, out := s.out ++ bytes }

def setKeys (s : SendHalf) (k : Keys) : SendHalf :=
  if s.strict then { s with keys := { k with seq := 0 } } else { s with keys := k }

end SendHalf

/-- Receiving direction; `arriving` is what the reads of the stream will give, one after
another. A read that gives nothing means that the stream is closed. -/
structure RecvHalf where
  arriving : List Bytes
  buf : Bytes
  keys : Keys
  strict : Bool

def RecvHalf.new (arriving : List Bytes) : RecvHalf := ⟨arriving, [], .plain, false⟩

abbrev RecvM := EStateM SshError RecvHalf

/-- The payload of a packet without its padding. -/
def unpad (body : Bytes) : Except SshError Bytes :=
  match body with
  | [] => .error (.protocol "empty packet")
  | b :: rest =>
    if b.toNat < 4 ∨ rest.length + 1 < b.toNat + 1 then .error (.protocol "bad padding")
    else
      let payload := rest.take (rest.length - b.toNat)
      if payload = [] then .error (.protocol "empty payload") else .ok payload

namespace RecvHalf

/-- The reads until `n` bytes have arrived. -/
def fillFrom (n : Nat) : List Bytes → Bytes → Except SshError (List Bytes × Bytes)
  | [], buf => if buf.length < n then .error .closed else .ok ([], buf)
  | chunk :: arriving, buf =>
    if buf.length < n then
      if chunk = [] then .error .closed else fillFrom n arriving (buf ++ chunk)
    else .ok (chunk :: arriving, buf)

def fill (n : Nat) : RecvM Unit := fun r =>
  match fillFrom n r.arriving r.buf with
  | .ok (arriving, buf) => .ok () { r with arriving := arriving, buf := buf }
  | .error e => .error e r

def lift {α : Type} (result : Except SshError α) : RecvM α := fun r =>
  match result with
  | .ok a => .ok a r
  | .error e => .error e r

def proto {α : Type} (text : String) : RecvM α := throw (.protocol text)

/-- Take bytes from the buffer. -/
def drain (n : Nat) : RecvM Unit := modify fun r => { r with buf := r.buf.drop n }

variable (x : Crypto)

def readPlain : RecvM Bytes := do
  fill 4
  let len := fromBe32 (← get).buf
  if len < 5 ∨ maxPacket < len then proto "bad packet length"
  else
    fill (4 + len)
    let pkt := (← get).buf.take (4 + len)
    drain (4 + len)
    lift (unpad (pkt.drop 4))

def readChaCha (main hdr : Bytes) : RecvM Bytes := do
  fill 4
  let r ← get
  let len := fromBe32 (chaChaCrypt x hdr r.keys.seq 0 (r.buf.take 4))
  if len < 8 ∨ maxPacket < len ∨ len % 8 ≠ 0 then proto "bad packet length"
  else
    fill (4 + len + 16)
    let r ← get
    let tag := x.poly1305 (chaChaPolyKey x main r.keys.seq) (r.buf.take (4 + len))
    if tag ≠ (r.buf.drop (4 + len)).take 16 then throw .mac
    else
      let body := (r.buf.take (4 + len)).drop 4
      drain (4 + len + 16)
      lift (unpad (chaChaCrypt x main r.keys.seq 1 body))

def readEtm : RecvM Bytes := do
  fill 4
  let len := fromBe32 (← get).buf
  if len < 16 ∨ maxPacket < len ∨ len % 16 ≠ 0 then proto "bad packet length"
  else
    fill (4 + len + 32)
    let r ← get
    let tag := r.keys.hmac x (r.buf.take (4 + len))
    if tag ≠ (r.buf.drop (4 + len)).take 32 then throw .mac
    else
      let (body, k) := r.keys.ctrApply x ((r.buf.take (4 + len)).drop 4)
      set { r with buf := r.buf.drop (4 + len + 32), keys := k }
      lift (unpad body)

/-- The length is inside the first encrypted block; the keystream advances once. -/
def readEam : RecvM Bytes := do
  fill 16
  let r ← get
  let len := fromBe32 (r.keys.ctrApply x (r.buf.take 16)).1
  if len < 12 ∨ maxPacket < len ∨ (len + 4) % 16 ≠ 0 then proto "bad packet length"
  else
    fill (4 + len + 32)
    let r ← get
    let (plain, k) := r.keys.ctrApply x (r.buf.take (4 + len))
    set { r with keys := k }
    if k.hmac x plain ≠ (r.buf.drop (4 + len)).take 32 then throw .mac
    else
      drain (4 + len + 32)
      lift (unpad (plain.drop 4))

/-- The body of a packet under the keys. -/
def readBody : RecvM Bytes := fun r =>
  match r.keys.cipher with
  | .plain => readPlain r
  | .chaCha main hdr => readChaCha x main hdr r
  | _ => if r.keys.mac = .hmacSha256Etm then readEtm x r else readEam x r

/-- The next payload, decrypted and authenticated. -/
def readPacket : RecvM Bytes := do
  let payload ← readBody x
  modify fun r => { r with keys := { r.keys with seq := r.keys.seq + 1 } }
  pure payload

def setKeys (r : RecvHalf) (k : Keys) : RecvHalf :=
  if r.strict then { r with keys := { k with seq := 0 } } else { r with keys := k }

end RecvHalf

/-- What a key exchange gives for a direction. -/
structure Exchange where
  strict : Bool
  alg : CipherAlg
  mac : MacAlg
  key : Bytes
  iv : Bytes
  macKey : Bytes
  deriving DecidableEq, Repr

/-- The new keys start from sequence number zero. -/
def Exchange.keys (e : Exchange) : Keys := .new e.alg e.mac e.key e.iv e.macKey 0

/-- Our NEWKEYS, then the new outgoing keys. -/
def SendHalf.newKeys (x : Crypto) (s : SendHalf) (e : Exchange) (random : Nat → UInt8) : SendHalf :=
  { ({ s with strict := e.strict }.sendPacket x [Msg.newKeys] random).setKeys e.keys with bytesSinceKex := 0 }

/-- The peer's NEWKEYS was read: the new incoming keys. -/
def RecvHalf.newKeys (r : RecvHalf) (e : Exchange) : RecvHalf := { r with strict := e.strict }.setKeys e.keys

/-- What happens in a direction: a packet, or the switch to new keys. -/
inductive Event where
  | packet (payload : Bytes) (random : Nat → UInt8)
  | newKeys (exchange : Exchange) (random : Nat → UInt8)

def SendHalf.step (x : Crypto) (s : SendHalf) : Event → SendHalf
  | .packet payload random => s.sendPacket x payload random
  | .newKeys e random => s.newKeys x e random

end Fastros.Ssh
