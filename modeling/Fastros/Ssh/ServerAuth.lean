import Fastros.Ssh.Server

/-!
# No service before authentication

The log of a connection is sound: whatever it does on a channel comes after a request that
authenticated a user, and a session is for that user. Failed attempts are counted, and the
count is below the limit as long as the connection lives. Every part of the server keeps
this, whatever the messages are.
-/

namespace Fastros.Ssh.Conn

open Lib.Stateful
open List hiding get set modify
open Lib.Texts (Text)

variable {env : Env} {cfg : Config} {sid : Bytes} {c : Conn} {α β : Type}

/-- A request that proves who the user is: it has the password, or a signature over the session
id and the fields of the request, by a key that the user authorised. -/
inductive Proved (env : Env) (cfg : Config) (sid : Bytes) (t : Nat) (request : Bytes) (u : User) : Prop where
  | password {username pw : Text} {change : Bool} {r rest : Bytes}
      (message : request.head? = some Msg.userauthRequest)
      (header : readRequest request.tail = some ((username, sshConnection, password), r))
      (body : readPassword r = some ((change, pw), rest))
      (enabled : cfg.passwordAuth = true)
      (permitted : ¬ (username = root ∧ cfg.permitRoot ≠ .yes))
      (correct : env.authenticate t username pw = some u)
  | publickey {username alg : Text} {blob sig r rest rest' : Bytes}
      (message : request.head? = some Msg.userauthRequest)
      (header : readRequest request.tail = some ((username, sshConnection, publickey), r))
      (body : readKey r = some ((true, alg, blob), rest))
      (signature : Reader.string rest = some (sig, rest'))
      (permitted : ¬ (username = root ∧ cfg.permitRoot = .no))
      (known : env.byName t username = some u)
      (authorized : env.keyAuthorized t u blob = true)
      (valid : env.verifyEd25519 blob (signedData sid username sshConnection alg blob) sig = true)

/-- What a connection does for a user. -/
def Service : Act → Prop
  | .forward _ _ | .openChannel _ | .session _ _ _ | .input _ _ | .signal _ _ | .eof _ | .close _ => True
  | .sent _ | .authenticated _ _ _ | .failure => False

/-- The user that a session is for. -/
def Act.For (u : User) : Act → Prop
  | .session _ v _ => v = u
  | _ => True

/-- The log up to some point authenticates a user for the act that follows. -/
def Preceded (before : List Act) (a : Act) : Prop :=
  ∃ t request u, .authenticated t request u ∈ before ∧ Act.For u a

structure Sound (env : Env) (cfg : Config) (sid : Bytes) (c : Conn) : Prop where
  session : c.sessionId = some sid
  failures : c.log.count .failure = c.authFailures
  proved : ∀ t request u, .authenticated t request u ∈ c.log → Proved env cfg sid t request u
  user : ∀ u, c.user = some u → ∃ t request, .authenticated t request u ∈ c.log
  served : ∀ before a after, c.log = before ++ a :: after → Service a → Preceded before a

/-- A connection that goes on, with something about its user. -/
structure Alive (env : Env) (cfg : Config) (sid : Bytes) (p : Option User → Prop) (c : Conn) : Prop where
  sound : Sound env cfg sid c
  tries : c.authFailures < cfg.maxAuthTries
  user : p c.user

structure Ended (env : Env) (cfg : Config) (sid : Bytes) (c : Conn) : Prop where
  sound : Sound env cfg sid c
  tries : c.authFailures ≤ cfg.maxAuthTries

theorem Alive.ended {p : Option User → Prop} (h : Alive env cfg sid p c) : Ended env cfg sid c :=
  ⟨h.sound, le_of_lt h.tries⟩

section

variable (h : Sound env cfg sid c)
include h

/-- One more act, which is served only for the user of the connection. -/
theorem served_append {a : Act}
    (ha : Service a → ∃ u, c.user = some u ∧ Act.For u a) (before : List Act) (b : Act) (after : List Act)
    (hlog : c.log ++ [a] = before ++ b :: after) (hb : Service b) : Preceded before b := by
  rcases eq_nil_or_concat after with rfl | ⟨after', d, rfl⟩
  · obtain ⟨hbefore, hlast⟩ := append_inj' hlog rfl
    obtain rfl : a = b := singleton_inj.mp hlast
    obtain ⟨u, hu, hfor⟩ := ha hb
    obtain ⟨t, request, hmem⟩ := h.user u hu
    exact ⟨t, request, u, hbefore ▸ hmem, hfor⟩
  · have hassoc : before ++ b :: after'.concat d = (before ++ b :: after') ++ [d] := by simp
    rw [hassoc] at hlog
    exact h.served before b after' (append_inj' hlog rfl).1 hb

/-- One more act that is neither a failure nor an authentication. -/
theorem Sound.act {a : Act} (hfail : a ≠ .failure)
    (hauth : ∀ t request u, a ≠ .authenticated t request u)
    (ha : Service a → ∃ u, c.user = some u ∧ Act.For u a) :
    Sound env cfg sid { c with log := c.log ++ [a] } where
  session := h.session
  failures := by
    rw [count_append, h.failures, count_singleton, if_neg (by simpa using hfail)]
    rfl
  proved := by
    intro t request u hmem
    rcases mem_append.mp hmem with hmem | hmem
    · exact h.proved t request u hmem
    · exact absurd (mem_singleton.mp hmem).symm (hauth t request u)
  user := by
    intro u hu
    obtain ⟨t, request, hmem⟩ := h.user u hu
    exact ⟨t, request, mem_append_left _ hmem⟩
  served := served_append h ha

theorem Sound.sent (message : Bytes) :
    Sound env cfg sid { c with log := c.log ++ [.sent message] } :=
  h.act (by simp) (by simp) fun hs => absurd hs (by simp [Service])

theorem Sound.failed :
    Sound env cfg sid { c with authFailures := c.authFailures + 1, log := c.log ++ [.failure] } where
  session := h.session
  failures := by
    rw [count_append, h.failures, count_singleton_self]
  proved := by
    intro t request u hmem
    rcases mem_append.mp hmem with hmem | hmem
    · exact h.proved t request u hmem
    · exact absurd (mem_singleton.mp hmem) (by simp)
  user := by
    intro u hu
    obtain ⟨t, request, hmem⟩ := h.user u hu
    exact ⟨t, request, mem_append_left _ hmem⟩
  served := served_append h fun hs => absurd hs (by simp [Service])

end

variable {request : Bytes} {u : User} {P : Conn → Prop}

theorem Sound.authenticated (h : Sound env cfg sid c)
    (hproved : Proved env cfg sid c.clock request u) :
    Sound env cfg sid { c with user := some u, log := c.log ++ [.authenticated c.clock request u] } where
  session := h.session
  failures := by
    rw [count_append, h.failures, count_singleton, if_neg (by simp)]
    rfl
  proved := by
    intro t request' v hmem
    rcases mem_append.mp hmem with hmem | hmem
    · exact h.proved t request' v hmem
    · obtain ⟨rfl, rfl, rfl⟩ := Act.authenticated.inj (mem_singleton.mp hmem)
      exact hproved
  user := by
    intro v hv
    obtain rfl : u = v := Option.some.inj hv
    exact ⟨c.clock, request, mem_append_right _ (mem_singleton.mpr rfl)⟩
  served := served_append h fun hs => absurd hs (by simp [Service])

variable (env cfg sid) in
/-- A computation that keeps a connection sound. -/
abbrev Safe (p : Option User → Prop) (m : ConnM α) : Prop :=
  Triple (Alive env cfg sid p) m (fun _ => Alive env cfg sid p) (fun _ => Ended env cfg sid)

variable {p : Option User → Prop}

protected theorem Safe.pure (a : α) : Safe env cfg sid p (pure a : ConnM α) := .skip

protected theorem Safe.throw (e : Stop) : Safe env cfg sid p (throw e : ConnM α) := Triple.throw fun _ h => h.ended

variable {Q : α → Conn → Prop} {m m1 m2 : ConnM α} {username : Text}

theorem Safe.bind {f : α → ConnM β} (hm : Safe env cfg sid p m)
    (hf : ∀ a, Safe env cfg sid p (f a)) : Safe env cfg sid p (m >>= f) := Triple.bind hm hf

protected theorem Safe.get : Safe env cfg sid p (get : ConnM Conn) := Triple.get fun _ => id

theorem Safe.ite {q : Prop} [Decidable q] (h1 : q → Safe env cfg sid p m1)
    (h2 : ¬ q → Safe env cfg sid p m2) : Safe env cfg sid p (if q then m1 else m2) := Triple.ite h1 h2

/-- A value that is there, in the same state. -/
theorem triple_need (v : Option α) (h : ∀ c, P c → Ended env cfg sid c) :
    Triple P (need v) (fun a c => P c ∧ v = some a) (fun _ => Ended env cfg sid) := by
  cases v with
  | some a => exact .pure fun c hc => ⟨hc, rfl⟩
  | none => exact .throw h

protected theorem Safe.need (v : Option α) : Safe env cfg sid p (need v) :=
  .mono (triple_need v fun _ h => h.ended) (fun _ => id) (fun _ _ h => h.1) (fun _ _ => id)

/-- A change of what the log does not speak of. -/
theorem Alive.frame {c' : Conn} (h : Alive env cfg sid p c) (hsid : c'.sessionId = c.sessionId)
    (huser : c'.user = c.user) (hfail : c'.authFailures = c.authFailures) (hlog : c'.log = c.log) :
    Alive env cfg sid p c' := by
  have hs := h.sound
  constructor
  · constructor
    · rw [hsid]
      exact hs.session
    · rw [hlog, hfail]
      exact hs.failures
    · rw [hlog]
      exact hs.proved
    · rw [hlog, huser]
      exact hs.user
    · rw [hlog]
      exact hs.served
  · rw [hfail]
    exact h.tries
  · rw [huser]
    exact h.user

theorem safe_readPacket : Safe env cfg sid p readPacket := by
  constructor
  · intro c a c' hc hrun
    rw [readPacket] at hrun
    split at hrun
    · cases hrun
    · cases hrun
      exact hc.frame rfl rfl rfl rfl
  · intro c e c' hc hrun
    rw [readPacket] at hrun
    split at hrun
    · cases hrun
      exact hc.ended
    · cases hrun

theorem safe_sent (message : Bytes) : Safe env cfg sid p (act (.sent message)) :=
  .modify fun _ h => ⟨h.sound.sent message, h.tries, h.user⟩

protected theorem Safe.send (message : Bytes) : Safe env cfg sid p (send env message) := by
  apply Safe.bind .get
  intro c
  exact .ite (fun _ => safe_sent message) fun _ => .throw _

theorem triple_disconnect (reason : UInt32) (text : String) (h : ∀ c, P c → Ended env cfg sid c) :
    Triple P (disconnect reason text : ConnM α) Q (fun _ => Ended env cfg sid) := by
  apply Triple.bind (R := fun _ => Ended env cfg sid)
  · exact .modify fun c hc => ⟨(h c hc).sound.sent _, (h c hc).tries⟩
  · exact fun _ => .throw fun _ => id

theorem safe_disconnect (reason : UInt32) (text : String) :
    Safe env cfg sid p (disconnect reason text : ConnM α) := triple_disconnect reason text fun _ h => h.ended

theorem safe_service (a : Act) (hfail : a ≠ .failure)
    (hauth : ∀ t request v, a ≠ .authenticated t request v) (hfor : Act.For u a) :
    Safe env cfg sid (· = some u) (act a) :=
  .modify fun _ h => ⟨h.sound.act hfail hauth fun _ => ⟨u, h.user, hfor⟩, h.tries, h.user⟩

theorem safe_awaitInit (strict : Bool) (rounds : Nat) : Safe env cfg sid p (awaitInit strict rounds) := by
  induction rounds with
  | zero => exact .throw _
  | succ rounds ih =>
    apply Safe.bind safe_readPacket
    intro packet
    refine .ite (fun _ => .pure _) fun _ => ?_
    refine .ite (fun _ => ih) fun _ => ?_
    exact .ite (fun _ => .throw _) fun _ => safe_disconnect _ _

theorem safe_awaitNewKeys (strict : Bool) (rounds : Nat) :
    Safe env cfg sid p (awaitNewKeys strict rounds) := by
  induction rounds with
  | zero => exact .throw _
  | succ rounds ih =>
    apply Safe.bind safe_readPacket
    intro packet
    refine .ite (fun _ => .pure _) fun _ => ?_
    refine .ite (fun _ => ih) fun _ => ?_
    exact .ite (fun _ => .throw _) fun _ => .throw _

/-- A key exchange keeps the session id. -/
theorem safe_doKex (kexInit : Bytes) : Safe env cfg sid p (doKex env kexInit) := by
  rw [doKex]
  cases env.negotiate kexInit with
  | error e =>
    cases e with
    | protocol text => exact safe_disconnect 3 text
    | _ => exact .throw _
  | ok neg =>
    apply Safe.bind .get
    intro c1
    apply Safe.bind (safe_awaitInit _ _)
    intro init
    apply Triple.bind (R := fun c2 c => Alive env cfg sid p c ∧ c2.sessionId = some sid)
    · exact .get fun c hc => ⟨hc, hc.sound.session⟩
    intro c2
    apply Triple.fact
    intro hsid
    cases env.serverKex c2.clock init with
    | error e => exact Safe.throw _
    | ok h =>
      apply Safe.bind (.send _)
      intro _
      apply Safe.bind (.send _)
      intro _
      apply Safe.bind (safe_awaitNewKeys _ _)
      intro _
      rw [hsid, if_neg (by simp)]
      exact .pure _

theorem safe_authFailure : Safe env cfg sid p (authFailure env cfg) := .send _

theorem safe_countFailure : Safe env cfg sid p (countFailure cfg) := by
  apply Triple.bind (R := fun _ c => Ended env cfg sid c ∧ p c.user)
  · exact .modify fun c hc => ⟨⟨hc.sound.failed, hc.tries⟩, hc.user⟩
  intro _
  apply Triple.bind (R := fun c1 c => (Ended env cfg sid c ∧ p c.user) ∧ c1 = c)
  · exact .get fun c hc => ⟨hc, rfl⟩
  intro c1
  apply Triple.ite
  · exact fun _ => triple_disconnect _ _ fun c hc => hc.1.1
  intro hlt
  apply Triple.pure
  rintro c ⟨⟨hc, huser⟩, rfl⟩
  exact ⟨hc.sound, by omega, huser⟩

theorem safe_failed : Safe env cfg sid p (do countFailure cfg; authFailure env cfg) :=
  .bind safe_countFailure fun _ => safe_authFailure

/-- The connection before a user is authenticated: any user will do. -/
abbrev anyUser (_ : Option User) : Prop := True

theorem triple_authSuccess :
    Triple (fun c => Alive env cfg sid anyUser c ∧ Proved env cfg sid c.clock request u)
      (authSuccess env request u) (fun _ => Alive env cfg sid anyUser) (fun _ => Ended env cfg sid) := by
  apply Triple.bind (R := fun _ => Alive env cfg sid anyUser)
  · exact .modify fun c hc => ⟨hc.1.sound.authenticated hc.2, hc.1.tries, trivial⟩
  · exact fun _ => Safe.send _

theorem triple_here {E : Stop → Conn → Prop} {f : Conn → ConnM α}
    (h : ∀ c1, Triple (fun c => P c ∧ c = c1) (f c1) Q E) : Triple P (get >>= f) Q E :=
  .bind (.get fun _ hc => ⟨hc, rfl⟩) h

theorem safe_passwordAuth {r : Bytes} (henabled : cfg.passwordAuth = true)
    (hmessage : request.head? = some Msg.userauthRequest)
    (hheader : readRequest request.tail = some ((username, sshConnection, password), r)) :
    Safe env cfg sid anyUser (passwordAuth env cfg request username r) := by
  apply Triple.bind (triple_need (readPassword r) fun c hc => hc.ended)
  rintro ⟨⟨change, pw⟩, rest⟩
  apply Triple.fact
  intro hbody
  apply triple_here
  intro c1
  cases hauth : env.authenticate c1.clock username pw with
  | none => exact .pre safe_failed fun _ h => h.1
  | some u =>
    apply Triple.ite
    · exact fun _ => .pre safe_failed fun _ h => h.1
    intro hroot
    refine .pre triple_authSuccess ?_
    rintro c ⟨hc, rfl⟩
    exact ⟨hc, .password hmessage hheader hbody henabled hroot hauth⟩

theorem safe_publickeyAuth {r : Bytes} (hmessage : request.head? = some Msg.userauthRequest)
    (hheader : readRequest request.tail = some ((username, sshConnection, publickey), r)) :
    Safe env cfg sid anyUser (publickeyAuth env cfg request username sshConnection r) := by
  apply Triple.bind (triple_need (readKey r) fun c hc => hc.ended)
  rintro ⟨⟨hasSig, alg, blob⟩, rest⟩
  apply Triple.fact
  intro hbody
  apply triple_here
  intro c1
  have hstay : ∀ {m : ConnM Unit}, Safe env cfg sid anyUser m →
      Triple (fun c => Alive env cfg sid anyUser c ∧ c = c1) m (fun _ => Alive env cfg sid anyUser)
        (fun _ => Ended env cfg sid) := fun hm =>
    .pre hm fun _ h => h.1
  dsimp only
  split
  · apply hstay
    exact .ite (fun _ => safe_failed) fun _ => safe_authFailure
  next u hu =>
  obtain ⟨hknown, hauthorized⟩ := Option.filter_eq_some_iff.mp hu
  simp only [decide_eq_true_eq] at hauthorized
  apply Triple.ite
  · intro hsig
    apply Triple.bind (triple_need (Reader.string rest) fun c hc => hc.1.ended)
    rintro ⟨sig, rest'⟩
    apply Triple.fact
    intro hstring
    split
    · exact .throw fun c hc => hc.1.ended
    next sid' hsid' =>
    apply Triple.ite
    · intro hverify
      refine .pre triple_authSuccess ?_
      rintro c ⟨hc, rfl⟩
      obtain rfl : sid = sid' := Option.mem_unique hc.sound.session hsid'
      subst hsig
      exact ⟨hc, .publickey hmessage hheader hbody hstring hauthorized.2.1 hknown hauthorized.2.2 hverify⟩
    · exact fun _ => hstay safe_failed
  · exact fun _ => hstay (.send _)

theorem safe_userauth (hmessage : request.head? = some Msg.userauthRequest) :
    Safe env cfg sid anyUser (userauth env cfg request request.tail) := by
  apply Safe.bind .get
  intro c1
  refine .ite (fun _ => .pure _) fun _ => ?_
  apply Triple.bind (triple_need (readRequest request.tail) fun c hc => hc.ended)
  rintro ⟨⟨username, service, method⟩, r⟩
  apply Triple.fact
  intro hheader
  refine .ite (fun _ => safe_disconnect _ _) fun hservice => ?_
  obtain rfl : service = sshConnection := Decidable.not_not.mp hservice
  refine .ite (fun _ => safe_authFailure) fun _ => ?_
  refine .ite (fun hpw => ?_) fun _ => ?_
  · obtain ⟨rfl, henabled⟩ := hpw
    exact safe_passwordAuth henabled hmessage hheader
  · refine .ite (fun hkey => ?_) fun _ => safe_authFailure
    subst hkey
    exact safe_publickeyAuth hmessage hheader

/-- The connection of an authenticated user. -/
abbrev isUser (u : User) (v : Option User) : Prop := v = some u

theorem safe_setChannel (ch : Channel) : Safe env cfg sid p (setChannel ch) :=
  .modify fun _ h => h.frame rfl rfl rfl rfl

theorem safe_channel (id : UInt32) : Safe env cfg sid p (channel id) := .bind .get fun _ => .pure _

theorem safe_addChannel (kind : ChanKind) (remote window maxPacket : UInt32) :
    Safe env cfg sid (isUser u) (addChannel env kind remote window maxPacket) := by
  apply Safe.bind .get
  intro c1
  refine .ite (fun _ => .send _) fun _ => ?_
  cases Lib.Checked.add 32 c1.nextId 1 with
  | none => exact .throw _
  | some next =>
    refine .bind (.modify fun c h => ?_) fun _ => ?_
    · exact h.frame rfl rfl rfl rfl
    apply Safe.bind (.send _)
    intro _
    apply Safe.bind (safe_service (.openChannel _) (by simp) (by simp) trivial)
    intro _
    exact safe_setChannel _

theorem safe_channelOpen (r : Bytes) : Safe env cfg sid (isUser u) (channelOpen env cfg r) := by
  apply Safe.bind (.need _)
  rintro ⟨⟨kind, remote, window, maxPacket⟩, r⟩
  refine .ite (fun _ => safe_addChannel _ _ _ _) fun _ => ?_
  refine .ite (fun _ => ?_) fun _ => .send _
  apply Safe.bind (.need _)
  rintro ⟨⟨host, port⟩, r⟩
  apply Safe.bind .get
  intro c1
  apply Safe.bind (safe_service (.forward _ _) (by simp) (by simp) trivial)
  intro _
  cases env.connect c1.clock host port.toUInt16 with
  | error e => exact .send _
  | ok _ => exact safe_addChannel _ _ _ _

/-- A session is started for the user of the connection. -/
theorem safe_startSession (ch : Channel) (command : Option Text) :
    Safe env cfg sid (isUser u) (startSession env ch command) := by
  apply Triple.bind (R := fun c1 c => Alive env cfg sid (isUser u) c ∧ c1.user = some u)
  · exact .get fun c hc => ⟨hc, hc.user⟩
  intro c1
  apply Triple.fact
  intro huser
  rw [huser]
  cases ch.kind with
  | tcp => exact Safe.pure _
  | session s =>
    refine Safe.ite (fun _ => .pure _) fun _ => ?_
    apply Safe.bind (safe_setChannel _)
    intro _
    refine .ite (fun _ => ?_) fun _ => .pure _
    apply Safe.bind (safe_service (.session _ u _) (by simp) (by simp) rfl)
    intro _
    apply Safe.bind (safe_setChannel _)
    intro _
    exact .pure _

theorem safe_grant (ch : Channel) (req : Text) (r : Bytes) :
    Safe env cfg sid (isUser u) (grant env ch req r) := by
  have hset : ∀ (ch' : Channel), Safe env cfg sid (isUser u) (do setChannel ch'; pure true) :=
    fun ch' => .bind (safe_setChannel ch') fun _ => .pure _
  refine .ite (fun _ => ?_) fun _ => ?_
  · apply Safe.bind (.need _)
    intro v
    cases ch.kind with
    | session s => exact hset _
    | tcp => exact .pure _
  refine .ite (fun _ => ?_) fun _ => ?_
  · apply Safe.bind (.need _)
    intro v
    cases ch.kind with
    | session s => exact .ite (fun _ => hset _) fun _ => .pure _
    | tcp => exact .pure _
  refine .ite (fun _ => ?_) fun _ => ?_
  · apply Safe.bind (.need _)
    intro v
    cases ch.kind with
    | session s => exact hset _
    | tcp => exact .pure _
  refine .ite (fun _ => ?_) fun _ => ?_
  · apply Safe.bind (.need _)
    intro v
    cases ch.kind with
    | session s =>
      refine .ite (fun _ => ?_) fun _ => .pure _
      exact .bind (safe_service (.signal _ _) (by simp) (by simp) trivial) fun _ => .pure _
    | tcp => exact .pure _
  refine .ite (fun _ => safe_startSession ch none) fun _ => ?_
  refine .ite (fun _ => ?_) fun _ => ?_
  · apply Safe.bind (.need _)
    exact fun v => safe_startSession ch _
  refine .ite (fun _ => ?_) fun _ => .pure _
  apply Safe.bind (.need _)
  exact fun v => .ite (fun _ => safe_startSession ch _) fun _ => .pure _

theorem safe_channelRequest (r : Bytes) : Safe env cfg sid (isUser u) (channelRequest env r) := by
  apply Safe.bind (.need _)
  rintro ⟨⟨id, req, wantReply⟩, r⟩
  apply Safe.bind (safe_channel id)
  intro found
  cases found with
  | none => exact .pure _
  | some ch =>
    apply Safe.bind (safe_grant ch req r)
    intro ok
    exact .ite (fun _ => .send _) fun _ => .pure _

theorem safe_channelInput (ch : Channel) (data : Bytes) :
    Safe env cfg sid (isUser u) (channelInput env ch data) := by
  apply Safe.bind (safe_service (.input _ _) (by simp) (by simp) trivial)
  intro _
  refine .ite (fun _ => ?_) fun _ => safe_setChannel _
  exact .bind (safe_setChannel _) fun _ => .send _

/-- What is done with a channel that may not be there. -/
theorem safe_withChannel (id : UInt32) {f : Channel → ConnM Unit}
    (hf : ∀ ch, Safe env cfg sid p (f ch)) :
    Safe env cfg sid p (channel id >>= fun found => match found with
      | some ch => f ch
      | none => pure ()) := by
  apply Safe.bind (safe_channel id)
  intro found
  cases found with
  | none => exact .pure _
  | some ch => exact hf ch

theorem safe_serve (t : UInt8) (r : Bytes) : Safe env cfg sid (isUser u) (serve env cfg t r) := by
  refine .ite (fun _ => ?_) fun _ => ?_
  · apply Safe.bind (.need _)
    exact fun v => .ite (fun _ => .send _) fun _ => .pure _
  refine .ite (fun _ => safe_channelOpen r) fun _ => ?_
  refine .ite (fun _ => safe_channelRequest r) fun _ => ?_
  refine .ite (fun _ => ?_) fun _ => ?_
  · apply Safe.bind (.need _)
    exact fun v => safe_withChannel _ fun ch => safe_channelInput ch _
  refine .ite (fun _ => ?_) fun _ => ?_
  · apply Safe.bind (.need _)
    exact fun v => safe_withChannel _ fun ch => safe_setChannel _
  refine .ite (fun _ => ?_) fun _ => ?_
  · apply Safe.bind (.need _)
    exact fun v => safe_withChannel _ fun ch => safe_service (.eof _) (by simp) (by simp) trivial
  refine .ite (fun _ => ?_) fun _ => ?_
  · apply Safe.bind (.need _)
    refine fun v => safe_withChannel _ fun ch => ?_
    refine .bind (.modify fun c h => ?_) fun _ => ?_
    · exact h.frame rfl rfl rfl rfl
    · exact safe_service (.close _) (by simp) (by simp) trivial
  exact .ite (fun _ => .pure _) fun _ => .send _

theorem safe_dispatch (message : Bytes) : Safe env cfg sid anyUser (dispatch env cfg message) := by
  apply Triple.bind (triple_need (Reader.u8 message) fun c hc => hc.ended)
  rintro ⟨t, r⟩
  apply Triple.fact
  intro hread
  obtain ⟨rfl⟩ : message = t :: r := by
    cases message with
    | nil => exact absurd hread (by simp [Reader.u8])
    | cons b bs =>
      obtain ⟨rfl, rfl⟩ := Prod.mk.inj (Option.some.inj hread)
      rfl
  refine Safe.ite (fun _ => .pure _) fun _ => ?_
  refine Safe.ite (fun _ => .pure _) fun _ => ?_
  refine Safe.ite (fun _ => ?_) fun _ => ?_
  · apply Safe.bind (.send _)
    exact fun _ => Safe.bind (safe_doKex _) fun _ => .pure _
  refine Safe.ite (fun _ => ?_) fun _ => ?_
  · apply Safe.bind (.need _)
    intro v
    refine Safe.ite (fun _ => safe_disconnect _ _) fun _ => ?_
    exact Safe.bind (.send _) fun _ => .pure _
  refine Safe.ite (fun hauth => ?_) fun _ => ?_
  · subst hauth
    exact Safe.bind (safe_userauth rfl) fun _ => .pure _
  apply triple_here
  intro c1
  -- from here on the messages are handled only for a user
  cases huser : c1.user with
  | none =>
    exact triple_disconnect _ _ fun c hc => hc.1.ended
  | some u =>
    have hserve : Safe env cfg sid (isUser u) (do serve env cfg t r; pure true) :=
      Safe.bind (safe_serve t r) fun _ => .pure true
    refine .mono hserve ?_ ?_ ?_
    · rintro c ⟨hc, rfl⟩
      exact ⟨hc.sound, hc.tries, huser⟩
    · exact fun _ c hc => ⟨hc.sound, hc.tries, trivial⟩
    · exact fun _ _ => id

theorem safe_loop (rounds : Nat) : Safe env cfg sid anyUser (loop env cfg rounds) := by
  induction rounds with
  | zero => exact .pure _
  | succ rounds ih =>
    apply Safe.bind safe_readPacket
    intro message
    refine .bind (.modify fun c h => ?_) fun _ => ?_
    · exact h.frame rfl rfl rfl rfl
    apply Safe.bind (safe_dispatch message)
    intro more
    exact .ite (fun _ => ih) fun _ => .pure _

theorem start_alive (inbox : List Bytes) : Alive env cfg sid anyUser (start sid inbox) := by
  refine ⟨⟨rfl, rfl, ?_, ?_, ?_⟩, cfg.tries_pos, trivial⟩
  · exact fun t request u h => absurd h not_mem_nil
  · exact fun u h => absurd h (by simp [start])
  · intro before a after h
    exact absurd h (by simp [start])

/-- Whatever the client sends after the key exchange, at every point of the connection: each
act on a channel comes after a request that proved who the user is, a session is for that user,
and at most `MaxAuthTries` failed attempts have been counted. -/
theorem no_service_before_auth (env : Env) (cfg : Config) (sid : Bytes) (inbox : List Bytes) (rounds : Nat) :
    let c := stateOf (loop env cfg rounds (start sid inbox))
    (∀ before a after, c.log = before ++ a :: after → Service a →
      ∃ t request u, .authenticated t request u ∈ before ∧ Act.For u a ∧
        Proved env cfg sid t request u) ∧
    c.log.count .failure ≤ cfg.maxAuthTries := by
  intro c
  have hended : Ended env cfg sid c :=
    (Triple.mono (safe_loop rounds) (fun _ => id) (fun _ _ h => h.ended) (fun _ _ => id)).state
      (start_alive inbox)
  constructor
  · intro before a after hlog ha
    obtain ⟨t, request, u, hmem, hfor⟩ := hended.sound.served before a after hlog ha
    refine ⟨t, request, u, hmem, hfor, hended.sound.proved t request u ?_⟩
    rw [hlog]
    exact mem_append_left _ hmem
  · rw [hended.sound.failures]
    exact hended.tries

end Fastros.Ssh.Conn
