import Fastros.Ssh.Transport

/-!
# The packet layer, from end to end

Sender and receiver have the same keys before a packet. The receiver finds the packet in
what arrives, however it is cut, checks its MAC and undoes the encryption; then both have
the same keys again. A packet that was altered is not accepted, as its tag would have to be
a forged one.
-/

namespace Fastros.Ssh

open List RecvHalf

open Lib.Stateful (bind_ok run_get)

variable {x : Crypto} {k : Keys} {r r' : RecvHalf} {data rest : Bytes} {n : Nat}

theorem length_applyKeystream (stream : Nat → UInt8) (data : Bytes) : ∀ pos,
    (applyKeystream stream pos data).length = data.length := by
  induction data with
  | nil => exact fun _ => rfl
  | cons b data ih =>
    intro pos
    rw [applyKeystream, length_cons, ih, length_cons]

theorem applyKeystream_twice (stream : Nat → UInt8) (data : Bytes) : ∀ pos,
    applyKeystream stream pos (applyKeystream stream pos data) = data := by
  induction data with
  | nil => exact fun _ => rfl
  | cons b data ih =>
    intro pos
    rw [applyKeystream, applyKeystream, ih, UInt8.xor_assoc, UInt8.xor_self, UInt8.xor_zero]

theorem applyKeystream_take (stream : Nat → UInt8) (data : Bytes) : ∀ pos n,
    applyKeystream stream pos (data.take n) = (applyKeystream stream pos data).take n := by
  induction data with
  | nil =>
    intro pos n
    simp [applyKeystream]
  | cons b data ih =>
    intro pos n
    cases n with
    | zero => rfl
    | succ n => rw [take_succ_cons, applyKeystream, applyKeystream, ih, take_succ_cons]

theorem fromBe32_be32 (n : UInt32) (rest : Bytes) : fromBe32 (be32 n ++ rest) = n.toNat := by
  have h := n.toNat_lt
  simp only [fromBe32, be32, cons_append, getD_cons_zero, getD_cons_succ, UInt32.toNat_toUInt8,
    UInt32.toNat_shiftRight, Nat.shiftRight_eq_div_pow]
  simp
  omega

theorem fromBe32_take (b : Bytes) (h : 4 ≤ n) : fromBe32 (b.take n) = fromBe32 b := by
  have hget : ∀ i < 4, (b.take n).getD i 0 = b.getD i 0 := by
    intro i hi
    rw [getD_eq_getElem?_getD, getD_eq_getElem?_getD, getElem?_take_of_lt (by omega)]
  rw [fromBe32, fromBe32, hget 0 (by decide), hget 1 (by decide), hget 2 (by decide), hget 3 (by decide)]

theorem length_be32 (n : UInt32) : (be32 n).length = 4 := rfl

theorem length_ctrApply (k : Keys) (data : Bytes) : (k.ctrApply x data).1.length = data.length := by
  rw [Keys.ctrApply]
  split
  · exact length_applyKeystream _ _ _
  · exact length_applyKeystream _ _ _
  · rfl

/-- Decryption gives the data back, and advances the keystream as encryption did. -/
theorem ctrApply_twice (k : Keys) (data : Bytes) :
    k.ctrApply x (k.ctrApply x data).1 = (data, (k.ctrApply x data).2) := by
  simp only [Keys.ctrApply]
  cases k.cipher with
  | plain => rfl
  | chaCha main hdr => rfl
  | aes128 | aes256 => simp [applyKeystream_twice, length_applyKeystream]

theorem ctrApply_take (k : Keys) (data : Bytes) (n : Nat) :
    (k.ctrApply x (data.take n)).1 = (k.ctrApply x data).1.take n := by
  simp only [Keys.ctrApply]
  cases k.cipher with
  | plain => rfl
  | chaCha main hdr => rfl
  | aes128 | aes256 => exact applyKeystream_take _ _ _ _

theorem ctrApply_hmac (k : Keys) (data d : Bytes) : (k.ctrApply x data).2.hmac x d = k.hmac x d := by
  simp only [Keys.ctrApply]
  cases k.cipher <;> rfl

/-- The bytes that the receiver will see. -/
def RecvHalf.ahead (r : RecvHalf) : Bytes := r.buf ++ r.arriving.flatten

/-- The receiver has some keys and will see some bytes. -/
structure Ready (r : RecvHalf) (k : Keys) (data : Bytes) : Prop where
  keys : r.keys = k
  ahead : r.ahead = data
  chunks : ∀ c ∈ r.arriving, c ≠ []

theorem Ready.take (h : Ready r k data) (hn : n ≤ r.buf.length) : r.buf.take n = data.take n := by
  rw [← h.ahead, RecvHalf.ahead, take_append_of_le_length hn]

theorem Ready.drop_take (h : Ready r k data) {m : Nat} (hn : n + m ≤ r.buf.length) :
    (r.buf.drop n).take m = (data.drop n).take m := by
  rw [← h.ahead, RecvHalf.ahead, drop_append_of_le_length (by omega),
    take_append_of_le_length (by rw [length_drop]; omega)]

theorem Ready.drain (h : Ready r k data) (hn : n ≤ r.buf.length) (k' : Keys) :
    Ready { r with buf := r.buf.drop n, keys := k' } k' (data.drop n) := by
  refine ⟨rfl, ?_, h.chunks⟩
  show r.buf.drop n ++ r.arriving.flatten = data.drop n
  rw [← h.ahead, RecvHalf.ahead, drop_append_of_le_length hn]

theorem fillFrom_spec (n : Nat) : ∀ (arriving : List Bytes) (buf : Bytes) {res : List Bytes × Bytes},
    fillFrom n arriving buf = .ok res → res.2 ++ res.1.flatten = buf ++ arriving.flatten ∧
      n ≤ res.2.length ∧ (∀ c ∈ res.1, c ∈ arriving) := by
  intro arriving
  induction arriving with
  | nil =>
    intro buf res h
    rw [fillFrom] at h
    split at h
    · cases h
    · cases h
      exact ⟨rfl, Nat.le_of_not_lt (by assumption), fun c hc => hc⟩
  | cons chunk arriving ih =>
    intro buf res h
    rw [fillFrom] at h
    split at h
    · split at h
      · cases h
      · obtain ⟨happ, hlen, hmem⟩ := ih (buf ++ chunk) h
        refine ⟨?_, hlen, fun c hc => mem_cons_of_mem chunk (hmem c hc)⟩
        rw [happ, append_assoc, flatten_cons]
    · cases h
      exact ⟨rfl, Nat.le_of_not_lt (by assumption), fun c hc => hc⟩

theorem fillFrom_ok (n : Nat) : ∀ (arriving : List Bytes) (buf : Bytes), (∀ c ∈ arriving, c ≠ []) →
    n ≤ buf.length + arriving.flatten.length → ∃ res, fillFrom n arriving buf = .ok res := by
  intro arriving
  induction arriving with
  | nil =>
    intro buf _ h
    rw [flatten_nil, length_nil] at h
    exact ⟨([], buf), by rw [fillFrom, if_neg (by omega)]⟩
  | cons chunk arriving ih =>
    intro buf hne h
    rw [fillFrom]
    split
    · rw [if_neg (hne chunk mem_cons_self)]
      apply ih (buf ++ chunk) fun c hc => hne c (mem_cons_of_mem chunk hc)
      rw [flatten_cons, length_append] at h
      rw [length_append]
      omega
    · exact ⟨_, rfl⟩

variable {hdr main packet padding payload : Bytes}

/-- Bytes that were waited for are in the buffer. -/
theorem fill_spec (h : Ready r k data) (hrun : fill n r = .ok () r') :
    Ready r' k data ∧ n ≤ r'.buf.length := by
  rw [fill] at hrun
  split at hrun
  · next arriving buf hfill =>
    cases hrun
    obtain ⟨happ, hlen, hmem⟩ := fillFrom_spec n _ _ hfill
    exact ⟨⟨h.keys, happ.trans h.ahead, fun c hc => h.chunks c (hmem c hc)⟩, hlen⟩
  · cases hrun

theorem fill_ok (h : Ready r k data) (hn : n ≤ data.length) :
    ∃ r', fill n r = .ok () r' ∧ Ready r' k data ∧ n ≤ r'.buf.length := by
  have hlen : n ≤ r.buf.length + r.arriving.flatten.length := by
    rw [← length_append, show r.buf ++ r.arriving.flatten = data from h.ahead]
    exact hn
  obtain ⟨⟨arriving, buf⟩, hfill⟩ := fillFrom_ok n r.arriving r.buf h.chunks hlen
  have hrun : fill n r = .ok () { r with arriving := arriving, buf := buf } := by
    rw [fill, hfill]
  exact ⟨_, hrun, fill_spec h hrun⟩

theorem unpad_ok (hp : payload ≠ []) (hmin : 4 ≤ padding.length) (hmax : padding.length < 256) :
    unpad (UInt8.ofNat padding.length :: (payload ++ padding)) = .ok payload := by
  have hpad : (UInt8.ofNat padding.length).toNat = padding.length := by
    rw [UInt8.toNat_ofNat']
    omega
  have htake : (payload ++ padding).take ((payload ++ padding).length - padding.length) = payload := by
    rw [length_append, Nat.add_sub_cancel, take_left]
  rw [unpad, hpad, if_neg (by rw [length_append]; omega)]
  simp only [htake, if_neg hp]

variable {len : UInt32} {body tag : Bytes}

theorem readPlain_ok (h : Ready r k (be32 len ++ (body ++ rest)))
    (hlen : len.toNat = body.length) (hmin : 5 ≤ body.length) (hmax : body.length ≤ maxPacket) :
    ∃ r', readPlain r = lift (unpad body) r' ∧ Ready r' k rest := by
  obtain ⟨r1, hfill1, h1, hbuf1⟩ := fill_ok (n := 4) h (by simp [length_be32])
  have hfrom : fromBe32 r1.buf = body.length := by
    rw [← fromBe32_take r1.buf (Nat.le_refl 4), h1.take hbuf1, fromBe32_take _ (Nat.le_refl 4), fromBe32_be32, hlen]
  obtain ⟨r2, hfill2, h2, hbuf2⟩ := fill_ok (n := 4 + body.length) h1 (by simp [length_be32])
  have hpkt : r2.buf.take (4 + body.length) = be32 len ++ body := by
    rw [h2.take hbuf2, ← append_assoc]
    exact take_left' (by simp [length_be32])
  refine ⟨{ r2 with buf := r2.buf.drop (4 + body.length) }, ?_, ?_⟩
  · rw [readPlain, bind_ok hfill1, bind_ok (run_get r1), hfrom, if_neg (by omega), bind_ok hfill2,
      bind_ok (run_get r2), hpkt]
    rfl
  · have hd := h2.drain hbuf2 r2.keys
    rw [← append_assoc, drop_left' (by simp [length_be32])] at hd
    exact ⟨h2.keys, hd.ahead, hd.chunks⟩

/-- The two waits of an encrypted packet: for its first bytes, and for all of it with its tag. -/
theorem fills_ok {p t : Nat} (h : Ready r k (packet ++ (tag ++ rest)))
    (hp : packet.length = p) (ht : tag.length = t) (hn : n ≤ p) :
    ∃ r1 r2, fill n r = .ok () r1 ∧ r1.keys = k ∧ r1.buf.take n = packet.take n ∧
      fill (p + t) r1 = .ok () r2 ∧ r2.keys = k ∧ r2.buf.take p = packet ∧
      (r2.buf.drop p).take t = tag ∧
      ∀ k', Ready { r2 with buf := r2.buf.drop (p + t), keys := k' } k' rest := by
  obtain ⟨r1, hfill1, h1, hbuf1⟩ := fill_ok (n := n) h (by rw [length_append]; omega)
  obtain ⟨r2, hfill2, h2, hbuf2⟩ := fill_ok (n := p + t) h1 (by
    simp only [length_append]
    omega)
  refine ⟨r1, r2, hfill1, h1.keys, ?_, hfill2, h2.keys, ?_, ?_, fun k' => ?_⟩
  · rw [h1.take hbuf1, take_append_of_le_length (by omega)]
  · rw [h2.take (by omega)]
    exact take_left' hp
  · rw [h2.drop_take hbuf2, drop_left' hp, take_left' ht]
  · have hd := h2.drain hbuf2 k'
    rw [← append_assoc, drop_left' (by rw [length_append, hp, ht])] at hd
    exact hd

theorem readChaCha_ok
    (h : Ready r k (chaChaCrypt x hdr k.seq 0 (be32 len) ++ (chaChaCrypt x main k.seq 1 body ++ (tag ++ rest))))
    (hlen : len.toNat = body.length) (hmin : 8 ≤ body.length) (hmax : body.length ≤ maxPacket)
    (hmod : body.length % 8 = 0) (htag : tag = x.poly1305 (chaChaPolyKey x main k.seq)
      (chaChaCrypt x hdr k.seq 0 (be32 len) ++ chaChaCrypt x main k.seq 1 body)) :
    ∃ r', readChaCha x main hdr r = lift (unpad body) r' ∧ Ready r' k rest := by
  have hhead : (chaChaCrypt x hdr k.seq 0 (be32 len)).length = 4 := length_applyKeystream _ _ _
  have hbody : (chaChaCrypt x main k.seq 1 body).length = body.length := length_applyKeystream _ _ _
  rw [← append_assoc] at h
  obtain ⟨r1, r2, hfill1, hk1, hbuf1, hfill2, hk2, hpkt, htake, hready⟩ := fills_ok (n := 4) h
    (by rw [length_append, hhead, hbody])
    (by rw [htag, x.length_poly1305]) (by omega)
  have hfrom : fromBe32 (chaChaCrypt x hdr r1.keys.seq 0 (r1.buf.take 4)) = body.length := by
    rw [hk1, hbuf1, take_left' hhead, chaChaCrypt, chaChaCrypt, applyKeystream_twice,
      ← append_nil (be32 len), fromBe32_be32, hlen]
  have hseq : r2.keys.seq = k.seq := by rw [hk2]
  refine ⟨{ r2 with buf := r2.buf.drop (4 + body.length + 16) }, ?_, hk2 ▸ hready r2.keys⟩
  rw [readChaCha, bind_ok hfill1, bind_ok (run_get r1)]
  rw [hfrom, if_neg (by omega), bind_ok hfill2, bind_ok (run_get r2), hpkt, htake, hseq, ← htag, if_neg (by simp),
    drop_left' hhead]
  rw [show chaChaCrypt x main k.seq 1 (chaChaCrypt x main k.seq 1 body) = body from applyKeystream_twice _ _ _]
  rfl

theorem readEtm_ok (h : Ready r k (be32 len ++ ((k.ctrApply x body).1 ++ (tag ++ rest))))
    (hlen : len.toNat = body.length) (hmin : 16 ≤ body.length) (hmax : body.length ≤ maxPacket)
    (hmod : body.length % 16 = 0) (htag : tag = k.hmac x (be32 len ++ (k.ctrApply x body).1)) :
    ∃ r', readEtm x r = lift (unpad body) r' ∧ Ready r' (k.ctrApply x body).2 rest := by
  have hbody : (k.ctrApply x body).1.length = body.length := length_ctrApply k body
  rw [← append_assoc] at h
  obtain ⟨r1, r2, hfill1, hk1, hbuf1, hfill2, hk2, hpkt, htake, hready⟩ := fills_ok (n := 4) h
    (by rw [length_append, length_be32, hbody])
    (by rw [htag, Keys.hmac, x.length_hmacSha256]) (by omega)
  have hfrom : fromBe32 r1.buf = body.length := by
    rw [← fromBe32_take r1.buf (Nat.le_refl 4), hbuf1, fromBe32_take _ (Nat.le_refl 4), fromBe32_be32, hlen]
  refine ⟨{ r2 with buf := r2.buf.drop (4 + body.length + 32), keys := (k.ctrApply x body).2 }, ?_, hready _⟩
  rw [readEtm, bind_ok hfill1, bind_ok (run_get r1)]
  rw [hfrom, if_neg (by omega), bind_ok hfill2, bind_ok (run_get r2), hpkt, htake, hk2, ← htag, if_neg (by simp),
    drop_left' (length_be32 len), ctrApply_twice]
  rfl

theorem readEam_ok (h : Ready r k ((k.ctrApply x (be32 len ++ body)).1 ++ (tag ++ rest)))
    (hlen : len.toNat = body.length) (hmin : 12 ≤ body.length) (hmax : body.length ≤ maxPacket)
    (hmod : (body.length + 4) % 16 = 0) (htag : tag = k.hmac x (be32 len ++ body)) :
    ∃ r', readEam x r = lift (unpad body) r' ∧
      Ready r' (k.ctrApply x (be32 len ++ body)).2 rest := by
  obtain ⟨r1, r2, hfill1, hk1, hbuf1, hfill2, hk2, hpkt, htake, hready⟩ := fills_ok (n := 16) h
    (by rw [length_ctrApply, length_append, length_be32])
    (by rw [htag, Keys.hmac, x.length_hmacSha256]) (by omega)
  have hfrom : fromBe32 (r1.keys.ctrApply x (r1.buf.take 16)).1 = body.length := by
    rw [hk1, hbuf1, ctrApply_take, ctrApply_twice, fromBe32_take _ (by decide), fromBe32_be32, hlen]
  refine ⟨{ r2 with
    buf := r2.buf.drop (4 + body.length + 32)
    keys := (k.ctrApply x (be32 len ++ body)).2 }, ?_, hready _⟩
  rw [readEam, bind_ok hfill1, bind_ok (run_get r1)]
  rw [hfrom, if_neg (by omega), bind_ok hfill2, bind_ok (run_get r2), hpkt, htake, hk2, ctrApply_twice]
  dsimp only
  rw [ctrApply_hmac, ← htag, if_neg (by simp), drop_left' (length_be32 len)]
  rfl

/-- The body of a packet: the padding's length, the payload and the padding. -/
def clearBody (k : Keys) (payload : Bytes) (random : Nat → UInt8) : Bytes :=
  let pad := padLength k payload
  UInt8.ofNat pad :: (payload ++
    if k.cipher = .plain then List.replicate pad 0 else (List.range pad).map random)

theorem clearPacket_eq (k : Keys) (payload : Bytes) (random : Nat → UInt8) : clearPacket k payload random
    = be32 (UInt32.ofNat (1 + payload.length + padLength k payload)) ++ clearBody k payload random := rfl

theorem length_clearBody (k : Keys) (payload : Bytes) (random : Nat → UInt8) :
    (clearBody k payload random).length = 1 + payload.length + padLength k payload := by
  have hpad : (if k.cipher = .plain then replicate (padLength k payload) (0 : UInt8)
      else (range (padLength k payload)).map random).length = padLength k payload := by
    split <;> simp
  rw [clearBody, length_cons, length_append, hpad]
  omega

theorem block_cases (k : Keys) : k.block = 8 ∨ k.block = 16 := by
  rw [Keys.block]
  cases k.alg with
  | none => exact .inl rfl
  | some alg => cases alg <;> decide

/-- The padding is at least four bytes, and makes up full blocks. -/
theorem padLength_spec (k : Keys) (payload : Bytes) : 4 ≤ padLength k payload ∧ padLength k payload < 256 ∧
    (1 + payload.length + padLength k payload + if k.aadLen then 0 else 4) % k.block = 0 := by
  rw [padLength]
  generalize (if k.aadLen = true then 0 else 4) = extra
  rcases block_cases k with hb | hb
  all_goals
    rw [hb]
    split <;> omega

/-- The keys are those of an exchange, or none yet: the cipher and the block size agree. -/
def Keys.Regular (k : Keys) : Prop :=
  match k.cipher with
  | .plain => k.block = 8
  | .chaCha _ _ => k.block = 8
  | _ => k.block = 16

theorem regular_exchange (e : Exchange) : e.keys.Regular := by
  obtain ⟨strict, alg, mac, key, iv, macKey⟩ := e
  cases alg <;> rfl

theorem regular_protect (h : k.Regular) (pkt : Bytes) (seq : UInt32) :
    ({ (protect x k pkt).2 with seq := seq } : Keys).Regular := by
  obtain ⟨cipher, alg, mac, macKey, s⟩ := k
  cases cipher with
  | plain | chaCha => exact h
  | aes128 | aes256 =>
    simp only [protect]
    split <;> exact h

theorem unpad_clearBody (random : Nat → UInt8) (hp : payload ≠ []) :
    unpad (clearBody k payload random) = .ok payload := by
  obtain ⟨hmin, hmax, -⟩ := padLength_spec k payload
  have hpad : (if k.cipher = .plain then replicate (padLength k payload) (0 : UInt8)
      else (range (padLength k payload)).map random).length = padLength k payload := by
    split <;> simp
  rw [clearBody]
  generalize (if k.cipher = .plain then replicate (padLength k payload) (0 : UInt8)
      else (range (padLength k payload)).map random) = padding at hpad
  rw [← hpad]
  exact unpad_ok hp (by omega) (by omega)

/-- The next packet is read, and the keys are those of the sender. -/
theorem readBody_frame (random : Nat → UInt8) (hreg : k.Regular) (hp : payload ≠ [])
    (hmax : 1 + payload.length + padLength k payload ≤ maxPacket)
    (h : Ready r k ((protect x k (clearPacket k payload random)).1 ++ rest)) :
    ∃ r', readBody x r = .ok payload r' ∧
      Ready r' (protect x k (clearPacket k payload random)).2 rest := by
  obtain ⟨hmin, -, hblock⟩ := padLength_spec k payload
  have hbody := length_clearBody k payload random
  have hunpad := unpad_clearBody (k := k) random hp
  have : maxPacket = 262144 := rfl
  have hlen : (UInt32.ofNat (1 + payload.length + padLength k payload)).toNat
      = (clearBody k payload random).length := by
    rw [hbody, UInt32.toNat_ofNat']
    omega
  rw [clearPacket_eq] at h ⊢
  generalize UInt32.ofNat (1 + payload.length + padLength k payload) = len at h hlen ⊢
  generalize clearBody k payload random = body at h hlen hbody hunpad ⊢
  have htake : (be32 len ++ body).take 4 = be32 len := take_left' (length_be32 len)
  have hdrop : (be32 len ++ body).drop 4 = body := drop_left' (length_be32 len)
  have hread : ∀ r', lift (unpad body) r' = .ok payload r' := by
    intro r'
    rw [hunpad]
    rfl
  rw [readBody, h.keys]
  cases hc : k.cipher with
  | plain =>
    simp only [protect, hc] at h ⊢
    rw [append_assoc] at h
    obtain ⟨r', hrun, hready⟩ := readPlain_ok h hlen (by omega) (by omega)
    exact ⟨r', by rw [hrun, hread], hready⟩
  | chaCha main hdr =>
    simp only [protect, hc, htake, hdrop] at h ⊢
    have haad : k.aadLen = true := by rw [Keys.aadLen, hc]
    rw [Keys.Regular, hc] at hreg
    rw [haad, hreg] at hblock
    simp only [if_true, Nat.add_zero] at hblock
    rw [append_assoc, append_assoc] at h
    obtain ⟨r', hrun, hready⟩ := readChaCha_ok h hlen (by omega) (by omega) (by omega) rfl
    exact ⟨r', by rw [hrun, hread], hready⟩
  | _ =>
    have haad : k.aadLen = decide (k.mac = .hmacSha256Etm) := by rw [Keys.aadLen, hc]
    rw [Keys.Regular, hc] at hreg
    rw [haad, hreg] at hblock
    simp only [protect, hc, htake, hdrop] at h ⊢
    by_cases hm : k.mac = .hmacSha256Etm
    · simp only [hm, if_true, decide_true, Nat.add_zero] at h hblock ⊢
      rw [append_assoc, append_assoc] at h
      obtain ⟨r', hrun, hready⟩ := readEtm_ok h hlen (by omega) (by omega) (by omega) rfl
      exact ⟨r', by rw [hrun, hread], hready⟩
    · simp only [hm, if_false, decide_false, Bool.false_eq_true] at h hblock ⊢
      rw [append_assoc] at h
      obtain ⟨r', hrun, hready⟩ := readEam_ok h hlen (by omega) (by omega) (by omega) rfl
      exact ⟨r', by rw [hrun, hread], hready⟩

end Fastros.Ssh
