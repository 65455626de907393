import Fastros.Lib.Texts
import Fastros.Lib.Utf8
import Fastros.Ssh.Transport

/-!
# The SSH server after the key exchange

A connection handles one message after another: it may exchange keys again, authenticate
the user, and serve channels. What it does is logged in order. The user database, the
signatures, the network and the processes are given from outside, and may change from
message to message.
-/

namespace Fastros.Ssh

open Lib (Checked.add)
open Lib.Texts (Text)

namespace Msg

def disconnect : UInt8 := 1
def ignore : UInt8 := 2
def unimplemented : UInt8 := 3
def debug : UInt8 := 4
def serviceRequest : UInt8 := 5
def serviceAccept : UInt8 := 6
def extInfo : UInt8 := 7
def kexInit : UInt8 := 20
def kexEcdhInit : UInt8 := 30
def kexEcdhReply : UInt8 := 31
def userauthRequest : UInt8 := 50
def userauthFailure : UInt8 := 51
def userauthSuccess : UInt8 := 52
def userauthPkOk : UInt8 := 60
def globalRequest : UInt8 := 80
def requestSuccess : UInt8 := 81
def requestFailure : UInt8 := 82
def channelOpen : UInt8 := 90
def channelOpenConfirmation : UInt8 := 91
def channelOpenFailure : UInt8 := 92
def channelWindowAdjust : UInt8 := 93
def channelData : UInt8 := 94
def channelExtendedData : UInt8 := 95
def channelEof : UInt8 := 96
def channelClose : UInt8 := 97
def channelRequest : UInt8 := 98
def channelSuccess : UInt8 := 99
def channelFailure : UInt8 := 100

end Msg

/-- A reader of a message: the bytes that are left. -/
abbrev Reader := StateT Bytes Option

namespace Reader

def u8 : Reader UInt8 := fun b =>
  match b with
  | [] => none
  | v :: b => some (v, b)

def bool : Reader Bool := do
  pure ((← u8) ≠ 0)

def bytes (n : Nat) : Reader Bytes := fun b => if b.length < n then none else some (b.take n, b.drop n)

def u32 : Reader UInt32 := do
  pure (UInt32.ofNat (fromBe32 (← bytes 4)))

def string : Reader Bytes := do
  bytes (← u32).toNat

/-- A text; bytes that are no UTF-8 are replaced. -/
def utf8 : Reader Text := do
  pure (Lib.Utf8.decode (← string))

end Reader

/-- A string of a message. -/
def putString (b : Bytes) : Bytes := be32 (UInt32.ofNat b.length) ++ b

def putText (t : Text) : Bytes := putString (Lib.Utf8.encode t)

structure User where
  name : Text
  uid : UInt32
  gid : UInt32
  home : Text
  deriving DecidableEq, Repr

inductive RootPolicy where
  | yes
  | prohibitPassword
  | no
  deriving DecidableEq, Repr

/-- The settings; `MaxAuthTries` is read into the range from 1 to 20. -/
structure Config where
  passwordAuth : Bool
  permitRoot : RootPolicy
  allowTcpForwarding : Bool
  maxAuthTries : Nat
  tries_pos : 1 ≤ maxAuthTries
  tries_le : maxAuthTries ≤ 20

structure Negotiated where
  strict : Bool
  extInfo : Bool
  deriving DecidableEq, Repr

/-- What the connection gets from outside while it handles its `t`-th message. -/
structure Env where
  authenticate : (t : Nat) → (name password : Text) → Option User
  byName : (t : Nat) → Text → Option User
  keyAuthorized : (t : Nat) → User → (blob : Bytes) → Bool
  verifyEd25519 : (blob data sig : Bytes) → Bool
  negotiate : (kexInit : Bytes) → Except SshError Negotiated
  serverKex : (t : Nat) → (ecdhInit : Bytes) → Except SshError Bytes
  connect : (t : Nat) → (host : Text) → (port : UInt16) → Except Text Unit
  spawn : (t : Nat) → Bool
  sendOk : (t : Nat) → Bytes → Bool

structure Session where
  term : Option Text
  cols : UInt32
  rows : UInt32
  env : List (Text × Text)
  started : Bool
  running : Bool
  deriving DecidableEq, Repr

inductive ChanKind where
  | session (s : Session)
  | tcp
  deriving DecidableEq, Repr

structure Channel where
  localId : UInt32
  remoteId : UInt32
  remoteWindow : Nat
  maxPacket : UInt32
  consumed : UInt32
  kind : ChanKind
  deriving DecidableEq, Repr

/-- What a connection does. -/
inductive Act where
  | sent (message : Bytes)
  /-- A request authenticated a user. -/
  | authenticated (t : Nat) (request : Bytes) (user : User)
  /-- A failed attempt was counted. -/
  | failure
  | forward (host : Text) (port : UInt16)
  | openChannel (id : UInt32)
  | session (id : UInt32) (user : User) (command : Option Text)
  | input (id : UInt32) (data : Bytes)
  | signal (id : UInt32) (name : Text)
  | eof (id : UInt32)
  | close (id : UInt32)
  deriving DecidableEq, Repr

structure Conn where
  inbox : List Bytes
  clock : Nat
  sessionId : Option Bytes
  user : Option User
  authFailures : Nat
  channels : List (UInt32 × Channel)
  nextId : Nat
  log : List Act

/-- A connection whose first key exchange is done. -/
def Conn.start (sessionId : Bytes) (inbox : List Bytes) : Conn :=
  ⟨inbox, 0, some sessionId, none, 0, [], 0, []⟩

/-- How a connection ends before its client says so. -/
inductive Stop where
  | error (e : SshError)
  | panic
  deriving DecidableEq, Repr

abbrev ConnM := EStateM Stop Conn

namespace Conn

def act (a : Act) : ConnM Unit := modify fun c => { c with log := c.log ++ [a] }

def fail {α : Type} (e : SshError) : ConnM α := throw (.error e)

/-- A value that a message must have. -/
def need {α : Type} (v : Option α) : ConnM α :=
  match v with
  | some a => pure a
  | none => fail (.protocol "truncated message")

def readPacket : ConnM Bytes := fun c =>
  match c.inbox with
  | [] => .error (.error .closed) c
  | p :: inbox => .ok p { c with inbox := inbox }

variable (env : Env) (cfg : Config)

def send (message : Bytes) : ConnM Unit := do
  let c ← get
  if env.sendOk c.clock message then act (.sent message) else fail .io

def disconnect {α : Type} (reason : UInt32) (text : String) : ConnM α := do
  act (.sent (Msg.disconnect :: (be32 reason ++ putText text.toList ++ putText [])))
  fail (.disconnected text)

def sshConnection : Text := "ssh-connection".toList
def root : Text := "root".toList
def none_ : Text := "none".toList
def password : Text := "password".toList
def publickey : Text := "publickey".toList
def sshEd25519 : Text := "ssh-ed25519".toList

/-- Messages until the one that is waited for. -/
def awaitInit (strict : Bool) : (rounds : Nat) → ConnM Bytes
  | 0 => fail .closed
  | rounds + 1 => do
    let p ← readPacket
    let t := p.headD 0
    if t = Msg.kexEcdhInit then pure p
    else if (t = Msg.ignore ∨ t = Msg.debug) ∧ ¬ strict then awaitInit strict rounds
    else if t = Msg.disconnect then fail (.disconnected "client disconnected")
    else disconnect 2 "unexpected message during key exchange"

def awaitNewKeys (strict : Bool) : (rounds : Nat) → ConnM Unit
  | 0 => fail .closed
  | rounds + 1 => do
    let p ← readPacket
    let t := p.headD 0
    if t = Msg.newKeys then pure ()
    else if (t = Msg.ignore ∨ t = Msg.debug) ∧ ¬ strict then awaitNewKeys strict rounds
    else if t = Msg.disconnect then fail (.disconnected "peer disconnected during key exchange")
    else fail (.protocol "unexpected message during key exchange")

/-- A key exchange; the session id stays that of the first one. -/
def doKex (clientKexInit : Bytes) : ConnM Unit := do
  match env.negotiate clientKexInit with
  | .error (.protocol m) => disconnect 3 m
  | .error e => fail e
  | .ok neg =>
    let c ← get
    let init ← awaitInit (neg.strict && c.sessionId.isNone) (c.inbox.length + 1)
    let c ← get
    match env.serverKex c.clock init with
    | .error e => fail e
    | .ok h =>
      send env [Msg.kexEcdhReply]
      send env [Msg.newKeys]
      awaitNewKeys neg.strict (c.inbox.length + 1)
      if c.sessionId.isNone then do
        modify fun c => { c with sessionId := some h }
        if neg.extInfo then send env (Msg.extInfo :: (be32 1 ++ putText "server-sig-algs".toList ++ putText sshEd25519))
        else pure ()
      else pure ()

def methods : Text := if cfg.passwordAuth then "publickey,password".toList else "publickey".toList

def authFailure : ConnM Unit := send env (Msg.userauthFailure :: (putText (methods cfg) ++ [0]))

/-- A failed attempt is counted, and too many end the connection. -/
def countFailure : ConnM Unit := do
  modify fun c => { c with authFailures := c.authFailures + 1, log := c.log ++ [.failure] }
  let c ← get
  if cfg.maxAuthTries ≤ c.authFailures then disconnect 14 "too many authentication failures" else pure ()

def authSuccess (request : Bytes) (u : User) : ConnM Unit := do
  modify fun c => { c with user := some u, log := c.log ++ [.authenticated c.clock request u] }
  send env [Msg.userauthSuccess]

/-- The user name, the service and the method. -/
def readRequest : Reader (Text × Text × Text) := do
  pure (← Reader.utf8, ← Reader.utf8, ← Reader.utf8)

def readPassword : Reader (Bool × Text) := do
  pure (← Reader.bool, ← Reader.utf8)

def readKey : Reader (Bool × Text × Bytes) := do
  pure (← Reader.bool, ← Reader.utf8, ← Reader.string)

/-- What a signature of a request is over. -/
def signedData (sessionId : Bytes) (username service alg : Text) (blob : Bytes) : Bytes :=
  putString sessionId ++ Msg.userauthRequest :: (putText username ++ putText service ++ putText publickey ++
    1 :: (putText alg ++ putString blob))

def passwordAuth (request : Bytes) (username : Text) (r : Bytes) : ConnM Unit := do
  let ((_, pw), _) ← need (readPassword r)
  let c ← get
  let rootDenied := username = root ∧ cfg.permitRoot ≠ .yes
  match env.authenticate c.clock username pw with
  | some u =>
    if rootDenied then do
      countFailure cfg
      authFailure env cfg
    else authSuccess env request u
  | none => do
    countFailure cfg
    authFailure env cfg

def publickeyAuth (request : Bytes) (username service : Text) (r : Bytes) : ConnM Unit := do
  let ((hasSig, alg, blob), r) ← need (readKey r)
  let c ← get
  let rootDenied := username = root ∧ cfg.permitRoot = .no
  match (env.byName c.clock username).filter fun u =>
      alg = sshEd25519 ∧ ¬ rootDenied ∧ env.keyAuthorized c.clock u blob with
  | none => do
    if hasSig then countFailure cfg else pure ()
    authFailure env cfg
  | some u =>
    if hasSig then do
      let (sig, _) ← need (Reader.string r)
      match c.sessionId with
      | none => throw .panic
      | some sid =>
        if env.verifyEd25519 blob (signedData sid username service alg blob) sig then
          authSuccess env request u
        else do
          countFailure cfg
          authFailure env cfg
    else send env (Msg.userauthPkOk :: (putText alg ++ putString blob))

def userauth (request r : Bytes) : ConnM Unit := do
  let c ← get
  if c.user.isSome then pure ()
  else
    let ((username, service, method), r) ← need (readRequest r)
    if service ≠ sshConnection then disconnect 7 "service not available"
    else if method = none_ then authFailure env cfg
    else if method = password ∧ cfg.passwordAuth then passwordAuth env cfg request username r
    else if method = publickey then publickeyAuth env cfg request username service r
    else authFailure env cfg

def localWindow : UInt32 := 2 * 1024 * 1024
def localMaxPacket : UInt32 := 32 * 1024

def channel (id : UInt32) : ConnM (Option Channel) := do
  pure ((← get).channels.lookup id)

def setChannel (ch : Channel) : ConnM Unit :=
  modify fun c => { c with channels := (ch.localId, ch) :: c.channels.filter fun e => e.1 ≠ ch.localId }

def openFailure (remote reason : UInt32) (text : Text) : ConnM Unit :=
  send env (Msg.channelOpenFailure :: (be32 remote ++ be32 reason ++ putText text ++ putText []))

def readOpen : Reader (Text × UInt32 × UInt32 × UInt32) := do
  pure (← Reader.utf8, ← Reader.u32, ← Reader.u32, ← Reader.u32)

def readTarget : Reader (Text × UInt32) := do
  pure (← Reader.utf8, ← Reader.u32)

/-- A channel of a kind, unless there are too many. -/
def addChannel (kind : ChanKind) (remote window maxPacket : UInt32) : ConnM Unit := do
  let c ← get
  if 16 ≤ c.channels.length then openFailure env remote 4 "too many channels".toList
  else
    match Checked.add 32 c.nextId 1 with
    | none => throw .panic
    | some next =>
      let id := UInt32.ofNat c.nextId
      modify fun c => { c with nextId := next }
      send env (Msg.channelOpenConfirmation :: (be32 remote ++ be32 id ++ be32 localWindow ++ be32 localMaxPacket))
      act (.openChannel id)
      setChannel ⟨id, remote, window.toNat, max 256 (min maxPacket (256 * 1024)), 0, kind⟩

def channelOpen (r : Bytes) : ConnM Unit := do
  let ((kind, remote, window, maxPacket), r) ← need (readOpen r)
  if kind = "session".toList then
    addChannel env (.session ⟨none, 0, 0, [], false, false⟩) remote window maxPacket
  else if kind = "direct-tcpip".toList ∧ cfg.allowTcpForwarding then do
    let ((host, port), _) ← need (readTarget r)
    let c ← get
    act (.forward host port.toUInt16)
    match env.connect c.clock host port.toUInt16 with
    | .error e => openFailure env remote 2 e
    | .ok () => addChannel env .tcp remote window maxPacket
  else openFailure env remote 3 "unknown channel type".toList

/-- A shell or a command for the user of the connection. -/
def startSession (ch : Channel) (command : Option Text) : ConnM Bool := do
  let c ← get
  match c.user, ch.kind with
  | some u, .session s =>
    if s.started then pure false
    else do
      setChannel { ch with kind := .session { s with started := true } }
      if env.spawn c.clock then do
        act (.session ch.localId u command)
        setChannel { ch with kind := .session { s with started := true, running := true } }
        pure true
      else pure false
  | _, _ => pure false

def acceptsEnv (k : Text) : Bool :=
  k = "LANG".toList ∨ "LC_".toList.isPrefixOf k ∨ k = "TZ".toList ∨ k = "COLORTERM".toList

def readPty : Reader (Text × UInt32 × UInt32 × UInt32 × UInt32) := do
  pure (← Reader.utf8, ← Reader.u32, ← Reader.u32, ← Reader.u32, ← Reader.u32)

def readPair : Reader (Text × Text) := do
  pure (← Reader.utf8, ← Reader.utf8)

def readSize : Reader (UInt32 × UInt32) := do
  pure (← Reader.u32, ← Reader.u32)

/-- What a request asks of a channel, and whether it is granted. -/
def grant (ch : Channel) (req : Text) (r : Bytes) : ConnM Bool :=
  if req = "pty-req".toList then do
    let ((term, cols, rows, _, _), _) ← need (readPty r)
    match ch.kind with
    | .session s => do
      setChannel { ch with kind := .session { s with term := some term, cols := min cols 1000, rows := min rows 1000 } }
      pure true
    | .tcp => pure false
  else if req = "env".toList then do
    let ((k, v), _) ← need (readPair r)
    match ch.kind with
    | .session s =>
      if acceptsEnv k then do
        setChannel { ch with kind := .session { s with env := s.env ++ [(k, v)] } }
        pure true
      else pure false
    | .tcp => pure (acceptsEnv k)
  else if req = "window-change".toList then do
    let ((cols, rows), _) ← need (readSize r)
    match ch.kind with
    | .session s => do
      setChannel { ch with kind := .session { s with cols := min cols 1000, rows := min rows 1000 } }
      pure true
    | .tcp => pure true
  else if req = "signal".toList then do
    let (name, _) ← need (Reader.utf8 r)
    match ch.kind with
    | .session s => do
      if s.running then act (.signal ch.localId name) else pure ()
      pure true
    | .tcp => pure true
  else if req = "shell".toList then startSession env ch none
  else if req = "exec".toList then do
    let (cmd, _) ← need (Reader.utf8 r)
    startSession env ch (some cmd)
  else if req = "subsystem".toList then do
    let (name, _) ← need (Reader.utf8 r)
    if name = "sftp".toList then startSession env ch (some "sftp-server".toList) else pure false
  else pure false

def readChannelRequest : Reader (UInt32 × Text × Bool) := do
  pure (← Reader.u32, ← Reader.utf8, ← Reader.bool)

def channelRequest (r : Bytes) : ConnM Unit := do
  let ((id, req, wantReply), r) ← need (readChannelRequest r)
  match ← channel id with
  | none => pure ()
  | some ch =>
    let ok ← grant env ch req r
    if wantReply then
      send env ((if ok then Msg.channelSuccess else Msg.channelFailure) :: be32 ch.remoteId)
    else pure ()

/-- Data for a channel; the window is opened again when half of it is used. -/
def channelInput (ch : Channel) (data : Bytes) : ConnM Unit := do
  act (.input ch.localId data)
  let used := ch.consumed + UInt32.ofNat data.length
  if localWindow / 2 ≤ used then do
    setChannel { ch with consumed := 0 }
    send env (Msg.channelWindowAdjust :: (be32 ch.remoteId ++ be32 used))
  else setChannel { ch with consumed := used }

def readData (extended : Bool) : Reader (UInt32 × Bytes) := do
  let id ← Reader.u32
  if extended then do
    let _ ← Reader.u32
    pure (id, ← Reader.string)
  else pure (id, ← Reader.string)

/-- The messages for an authenticated user. -/
def serve (t : UInt8) (r : Bytes) : ConnM Unit :=
  if t = Msg.globalRequest then do
    let ((_, wantReply), _) ← need ((do pure (← Reader.utf8, ← Reader.bool) : Reader (Text × Bool)) r)
    if wantReply then send env [Msg.requestFailure] else pure ()
  else if t = Msg.channelOpen then channelOpen env cfg r
  else if t = Msg.channelRequest then channelRequest env r
  else if t = Msg.channelData ∨ t = Msg.channelExtendedData then do
    let ((id, data), _) ← need (readData (t = Msg.channelExtendedData) r)
    match ← channel id with
    | some ch => channelInput env ch data
    | none => pure ()
  else if t = Msg.channelWindowAdjust then do
    let ((id, n), _) ← need (readSize r)
    match ← channel id with
    | some ch => setChannel { ch with remoteWindow := min (ch.remoteWindow + n.toNat) (2 ^ 32 - 1) }
    | none => pure ()
  else if t = Msg.channelEof then do
    let (id, _) ← need (Reader.u32 r)
    match ← channel id with
    | some ch => act (.eof ch.localId)
    | none => pure ()
  else if t = Msg.channelClose then do
    let (id, _) ← need (Reader.u32 r)
    match ← channel id with
    | some ch => do
      modify fun c => { c with channels := c.channels.filter fun e => e.1 ≠ id }
      act (.close ch.localId)
    | none => pure ()
  else if t = Msg.channelSuccess ∨ t = Msg.channelFailure ∨ t = Msg.requestSuccess ∨ t = Msg.requestFailure then
    pure ()
  else send env (Msg.unimplemented :: be32 0)

/-- Handle one message; false when the connection should end. -/
def dispatch (p : Bytes) : ConnM Bool := do
  let (t, r) ← need (Reader.u8 p)
  if t = Msg.disconnect then pure false
  else if t = Msg.ignore ∨ t = Msg.debug ∨ t = Msg.unimplemented ∨ t = Msg.extInfo then pure true
  else if t = Msg.kexInit then do
    send env [Msg.kexInit]
    doKex env p
    pure true
  else if t = Msg.serviceRequest then do
    let (svc, _) ← need (Reader.utf8 r)
    if svc ≠ "ssh-userauth".toList then disconnect 7 "service not available"
    else do
      send env (Msg.serviceAccept :: putText svc)
      pure true
  else if t = Msg.userauthRequest then do
    userauth env cfg p r
    pure true
  else do
    let c ← get
    if c.user.isNone then disconnect 2 ("message " ++ toString t.toNat ++ " before authentication")
    else do
      serve env cfg t r
      pure true

/-- The loop of a connection, for some messages. -/
def loop : (rounds : Nat) → ConnM Unit
  | 0 => pure ()
  | rounds + 1 => do
    let p ← readPacket
    modify fun c => { c with clock := c.clock + 1 }
    let more ← dispatch env cfg p
    if more then loop rounds else pure ()

end Conn

end Fastros.Ssh
