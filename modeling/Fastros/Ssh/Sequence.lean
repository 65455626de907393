import Fastros.Ssh.Transport

/-!
# Sequence numbers

Each packet of a direction is authenticated with a sequence number. The protocol counts
the packets from the start of the connection and never starts again; with strict key
exchange it starts again from zero after each NEWKEYS. The keys of an exchange start from
zero, so here both directions always start again.
-/

namespace Fastros.Ssh

open RecvHalf

open Lib.Stateful (bind_eq_ok)

/-- What counts for the numbers of a direction: a packet, or a NEWKEYS packet after which the
keys change. -/
inductive Mark where
  | packet
  | newKeys (strict : Bool)
  deriving DecidableEq, Repr

/-- The numbers of the packets when `n` were counted; `restart` says if a NEWKEYS starts the
count again. -/
def numbered (restart : Bool) : List Mark → Nat → List UInt32
  | [], _ => []
  | .packet :: ms, n => UInt32.ofNat n :: numbered restart ms (n + 1)
  | .newKeys _ :: ms, n => UInt32.ofNat n :: numbered restart ms (if restart then 0 else n + 1)

/-- Strict key exchange is negotiated in the first key exchange. -/
def negotiated : List Mark → Bool
  | [] => false
  | .packet :: ms => negotiated ms
  | .newKeys strict :: _ => strict

/-- Each NEWKEYS that is not the last packet comes when the count is a multiple of 2^32. -/
def Aligned : List Mark → Nat → Prop
  | [], _ => True
  | .packet :: ms, n => Aligned ms (n + 1)
  | .newKeys _ :: ms, n => (ms = [] ∨ (n + 1) % 2 ^ 32 = 0) ∧ Aligned ms (n + 1)

instance decidableAligned : ∀ ms n, Decidable (Aligned ms n)
  | [], _ => inferInstanceAs (Decidable True)
  | .packet :: ms, n => decidableAligned ms (n + 1)
  | .newKeys _ :: ms, n =>
    haveI := decidableAligned ms (n + 1)
    inferInstanceAs (Decidable ((ms = [] ∨ (n + 1) % 2 ^ 32 = 0) ∧ Aligned ms (n + 1)))

theorem ofNat_eq_ofNat {m n : Nat} : UInt32.ofNat m = UInt32.ofNat n ↔ m % 2 ^ 32 = n % 2 ^ 32 := by
  rw [← UInt32.toNat_inj, UInt32.toNat_ofNat', UInt32.toNat_ofNat']

theorem numbered_ne_nil {restart : Bool} {ms : List Mark} {n : Nat} (h : ms ≠ []) :
    ∃ rest, numbered restart ms n = UInt32.ofNat n :: rest := by
  cases ms with
  | nil => exact absurd rfl h
  | cons m ms =>
    cases m with
    | packet | newKeys => exact ⟨_, rfl⟩

/-- Starting again makes no difference exactly when the count was at a multiple of 2^32. -/
theorem numbered_eq_iff (ms : List Mark) : ∀ m n, m % 2 ^ 32 = n % 2 ^ 32 →
    (numbered true ms m = numbered false ms n ↔ Aligned ms n) := by
  induction ms with
  | nil => exact fun m n _ => ⟨fun _ => trivial, fun _ => rfl⟩
  | cons mark ms ih =>
    intro m n h
    have hhead := ofNat_eq_ofNat.mpr h
    cases mark with
    | packet =>
      rw [numbered, numbered, List.cons.injEq, Aligned, ih (m + 1) (n + 1) (by omega)]
      exact ⟨And.right, fun h => ⟨hhead, h⟩⟩
    | newKeys strict =>
      rw [numbered, numbered, List.cons.injEq, Aligned]
      simp only [hhead, true_and, if_true, Bool.false_eq_true, if_false]
      by_cases halign : (n + 1) % 2 ^ 32 = 0
      · rw [ih 0 (n + 1) (by omega)]
        exact ⟨fun h => ⟨.inr halign, h⟩, And.right⟩
      constructor
      · intro heq
        have hnil : ms = [] := by
          by_contra hne
          obtain ⟨t1, h1⟩ := numbered_ne_nil hne
          obtain ⟨t2, h2⟩ := numbered_ne_nil hne
          rw [h1, h2, List.cons.injEq, ofNat_eq_ofNat] at heq
          omega
        refine ⟨.inl hnil, ?_⟩
        rw [hnil]
        trivial
      · intro hal
        rcases hal.1 with rfl | hzero
        · rfl
        · exact absurd hzero halign

def Event.mark : Event → Mark
  | .packet _ _ => .packet
  | .newKeys e _ => .newKeys e.strict

/-- The numbers that packets are sent with. -/
def SendHalf.numbers (x : Crypto) : List Event → SendHalf → List UInt32
  | [], _ => []
  | e :: es, s => s.keys.seq :: numbers x es (s.step x e)

variable {x : Crypto}

theorem ctrApply_seq (k : Keys) (data : Bytes) : (k.ctrApply x data).2.seq = k.seq := by
  rw [Keys.ctrApply]
  split <;> rfl

theorem protect_seq (k : Keys) (pkt : Bytes) : (protect x k pkt).2.seq = k.seq := by
  rw [protect]
  split
  · rfl
  · rfl
  · split
    · exact ctrApply_seq k _
    · exact ctrApply_seq k _

theorem sendPacket_seq (s : SendHalf) (payload : Bytes) (random : Nat → UInt8) :
    (s.sendPacket x payload random).keys.seq = s.keys.seq + 1 := by
  show (protect x s.keys _).2.seq + 1 = _
  rw [protect_seq]

/-- New keys start from zero, strict or not. -/
theorem setKeys_seq (s : SendHalf) (e : Exchange) : (s.setKeys e.keys).keys.seq = 0 := by
  rw [SendHalf.setKeys]
  split <;> rfl

theorem numbers_eq (es : List Event) : ∀ (s : SendHalf) (n : Nat), s.keys.seq = UInt32.ofNat n →
    s.numbers x es = numbered true (es.map Event.mark) n := by
  induction es with
  | nil => exact fun s n _ => rfl
  | cons e es ih =>
    intro s n hs
    cases e with
    | packet payload random =>
      rw [SendHalf.numbers, List.map_cons, Event.mark, numbered, hs, ih _ (n + 1)]
      show (s.sendPacket x payload random).keys.seq = _
      rw [sendPacket_seq, hs, UInt32.ofNat_add]
      rfl
    | newKeys exchange random =>
      rw [SendHalf.numbers, List.map_cons, Event.mark, numbered, hs, ih _ 0]
      · rfl
      · exact setKeys_seq _ exchange

/-- A computation that leaves the sequence number alone when it returns. -/
def KeepsSeq {α : Type} (m : RecvM α) : Prop := ∀ r a r', m r = .ok a r' → r'.keys.seq = r.keys.seq

variable {α : Type} {r : RecvHalf}

theorem KeepsSeq.bind {β : Type} {m : RecvM α} {f : α → RecvM β} (hm : KeepsSeq m)
    (hf : ∀ a, KeepsSeq (f a)) : KeepsSeq (m >>= f) := by
  intro r b r'' h
  obtain ⟨a, r', h1, h2⟩ := bind_eq_ok.mp h
  rw [hf a r' b r'' h2, hm r a r' h1]

protected theorem KeepsSeq.throw (e : SshError) : KeepsSeq (throw e : RecvM α) := by
  intro r a r' h
  exact absurd h (by simp [throw, throwThe, MonadExceptOf.throw, EStateM.throw])

protected theorem KeepsSeq.lift (result : Except SshError α) : KeepsSeq (lift result) := by
  intro r a r' h
  cases result with
  | ok b => rw [(EStateM.Result.ok.inj h).2]
  | error e => exact absurd h (by simp [lift])

theorem keepsSeq_fill (n : Nat) : KeepsSeq (fill n) := by
  intro r a r' h
  rw [fill] at h
  split at h
  · rw [← (EStateM.Result.ok.inj h).2]
  · exact absurd h (by simp)

theorem keepsSeq_drain (n : Nat) : KeepsSeq (drain n) := by
  intro r a r' h
  rw [← (EStateM.Result.ok.inj h).2]

theorem keepsSeq_get {f : RecvHalf → RecvM α}
    (h : ∀ r a r', f r r = .ok a r' → r'.keys.seq = r.keys.seq) : KeepsSeq (get >>= f) := by
  intro r a r' hrun
  obtain ⟨s, r1, h1, h2⟩ := bind_eq_ok.mp hrun
  obtain ⟨rfl, rfl⟩ := EStateM.Result.ok.inj h1
  exact h r a r' h2

theorem KeepsSeq.ite {p : Prop} [Decidable p] {m1 m2 : RecvM α} (h1 : KeepsSeq m1)
    (h2 : KeepsSeq m2) : KeepsSeq (if p then m1 else m2) := by
  split
  · exact h1
  · exact h2

/-- The state is replaced by one with the same number. -/
theorem set_seq {m : RecvM α} {r1 r' : RecvHalf} {a : α} (hm : KeepsSeq m)
    (hr : r1.keys.seq = r.keys.seq) (h : (set r1 >>= fun _ => m) r = .ok a r') :
    r'.keys.seq = r.keys.seq := by
  obtain ⟨u, r2, h1, h2⟩ := bind_eq_ok.mp h
  rw [hm r2 a r' h2, ← (EStateM.Result.ok.inj h1).2, hr]

/-- Every reader first reads a length, refuses it or reads on. -/
theorem KeepsSeq.framed {n : Nat} {bad : RecvHalf → Prop} [∀ r, Decidable (bad r)] {e : SshError}
    {len : RecvHalf → Nat} {rest : RecvHalf → RecvHalf → RecvM α}
    (h : ∀ r0 r a r', rest r0 r r = .ok a r' → r'.keys.seq = r.keys.seq) :
    KeepsSeq (fill n >>= fun _ => get >>= fun r0 =>
      if bad r0 then throw e else fill (len r0) >>= fun _ => get >>= fun r => rest r0 r) := by
  apply KeepsSeq.bind (keepsSeq_fill n)
  intro _
  apply keepsSeq_get
  intro r
  refine KeepsSeq.ite (.throw _) ?_ r
  apply KeepsSeq.bind (keepsSeq_fill _)
  intro _
  exact keepsSeq_get (h r)

theorem readPlain_seq : KeepsSeq readPlain := by
  refine .framed fun _ r => ?_
  refine KeepsSeq.bind (keepsSeq_drain _) ?_ r
  exact fun _ => KeepsSeq.lift _

theorem readChaCha_seq (main hdr : Bytes) : KeepsSeq (readChaCha x main hdr) := by
  refine .framed fun _ r => ?_
  refine KeepsSeq.ite (.throw _) ?_ r
  exact KeepsSeq.bind (keepsSeq_drain _) fun _ => .lift _

theorem readEtm_seq : KeepsSeq (readEtm x) := by
  refine .framed fun _ r a r' h => ?_
  split at h
  · exact KeepsSeq.throw _ r a r' h
  · exact set_seq (.lift _) (ctrApply_seq r.keys _) h

theorem readEam_seq : KeepsSeq (readEam x) := by
  refine .framed fun _ r a r' h => ?_
  refine set_seq ?_ (ctrApply_seq r.keys _) h
  refine .ite (.throw _) ?_
  exact .bind (keepsSeq_drain _) fun _ => .lift _

theorem readBody_seq : KeepsSeq (readBody x) := by
  intro r
  rw [readBody]
  split
  · exact readPlain_seq r
  · exact readChaCha_seq _ _ r
  · split
    · exact readEtm_seq r
    · exact readEam_seq r

theorem readPacket_seq {r' : RecvHalf} {payload : Bytes}
    (h : readPacket x r = .ok payload r') : r'.keys.seq = r.keys.seq + 1 := by
  obtain ⟨p, r1, h1, h2⟩ := bind_eq_ok.mp h
  rw [← readBody_seq r p r1 h1, ← (EStateM.Result.ok.inj h2).2]

/-- A run of the receiver: the marks of what it read, and the numbers it was read with. -/
inductive RecvRun (x : Crypto) : RecvHalf → List Mark → List UInt32 → Prop where
  | nil (r : RecvHalf) : RecvRun x r [] []
  | packet {r r' : RecvHalf} {payload : Bytes} {ms : List Mark} {ns : List UInt32}
      (read : RecvHalf.readPacket x r = .ok payload r') (rest : RecvRun x r' ms ns) :
      RecvRun x r (.packet :: ms) (r.keys.seq :: ns)
  | newKeys {r r' : RecvHalf} {payload : Bytes} {ms : List Mark} {ns : List UInt32} (e : Exchange)
      (read : RecvHalf.readPacket x r = .ok payload r') (message : payload.head? = some Msg.newKeys)
      (rest : RecvRun x (r'.newKeys e) ms ns) :
      RecvRun x r (.newKeys e.strict :: ms) (r.keys.seq :: ns)

theorem recv_numbers {ms : List Mark} {ns : List UInt32} (h : RecvRun x r ms ns) :
    ∀ n, r.keys.seq = UInt32.ofNat n → ns = numbered true ms n := by
  induction h with
  | nil r => exact fun n _ => rfl
  | packet read rest ih =>
    intro n hr
    rw [numbered, hr, ih (n + 1)]
    rw [readPacket_seq read, hr, UInt32.ofNat_add]
    rfl
  | newKeys e read message rest ih =>
    intro n hr
    rw [numbered, hr, ih 0]
    · rfl
    · rw [newKeys, setKeys]
      split <;> rfl

/-- In both directions, of both roles, the packets have the numbers of the protocol exactly if
strict key exchange was negotiated, or every NEWKEYS with a packet after it comes when the count
is a multiple of 2^32. -/
theorem sequence_numbers (x : Crypto) :
    (∀ es : List Event, SendHalf.new.numbers x es
        = numbered (negotiated (es.map Event.mark)) (es.map Event.mark) 0 ↔
      negotiated (es.map Event.mark) = true ∨ Aligned (es.map Event.mark) 0) ∧
    (∀ arriving ms ns, RecvRun x (.new arriving) ms ns →
      (ns = numbered (negotiated ms) ms 0 ↔ negotiated ms = true ∨ Aligned ms 0)) := by
  have hiff : ∀ ms, numbered true ms 0 = numbered (negotiated ms) ms 0 ↔
      negotiated ms = true ∨ Aligned ms 0 := by
    intro ms
    cases negotiated ms with
    | true => simp
    | false => simpa using numbered_eq_iff ms 0 0 rfl
  constructor
  · intro es
    rw [numbers_eq es SendHalf.new 0 rfl]
    exact hiff _
  · intro arriving ms ns h
    rw [recv_numbers h 0 rfl]
    exact hiff ms

/-- Primitives that do nothing. -/
def idle : Crypto where
  chaCha := fun _ _ _ => 0
  aes128 := fun _ _ _ => 0
  aes256 := fun _ _ _ => 0
  poly1305 := fun _ _ => List.replicate 16 0
  hmacSha256 := fun _ _ => List.replicate 32 0
  length_poly1305 := fun _ _ => rfl
  length_hmacSha256 := fun _ _ => rfl

/-- The numbers of a connection with one strict key exchange. -/
theorem sequence_numbers_strict :
    let e : Exchange := ⟨true, .aes128Ctr, .hmacSha256, [], [], []⟩
    let es : List Event := [.packet [20] fun _ => 0, .newKeys e fun _ => 0, .packet [6] fun _ => 0]
    SendHalf.new.numbers idle es = [0, 1, 0] := by
  intro e es
  exact ((sequence_numbers idle).1 es).mpr (.inl rfl)

/-- A key exchange without strict mode: after KEXINIT, the reply and NEWKEYS the fourth packet
has the number zero, and not three. -/
theorem number_restarts :
    let e : Exchange := ⟨false, .aes128Ctr, .hmacSha256, [], [], []⟩
    let es : List Event := [.packet [20] fun _ => 0, .packet [31] fun _ => 0, .newKeys e fun _ => 0,
      .packet [6] fun _ => 0]
    negotiated (es.map Event.mark) = false ∧ SendHalf.new.numbers idle es = [0, 1, 2, 0] ∧
      numbered false (es.map Event.mark) 0 = [0, 1, 2, 3] := by
  refine ⟨rfl, ?_, by decide⟩
  decide

end Fastros.Ssh
