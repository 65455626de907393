import Fastros.Archive.TarEntry
import Fastros.Lib.Stateful

/-!
# The round trip through an archive

What the writer puts out is the members one after another, each padded to a block.
The reader goes through them whatever the source gives to each read: it stands at the
start of a member, skips the padding before it, and reads the header and the data.
It gives back the entries as they are stored, unless an extended header is too long for it.
-/

namespace Fastros.Archive.Tar

open TarReader TarWriter Entry

open List hiding get set modify

open Lib (Checked.add_eq_some)
open Lib.Stateful (bind_ok bind_error run_get)
open Lib.Utf8 (encode encode_cons)

variable {e : Entry} {r : TarReader} {w : TarWriter} {m : Member} {ms : List Member}

def zeros (n : Nat) : List UInt8 := List.replicate n 0

@[simp] theorem length_zeros (n : Nat) : (zeros n).length = n := length_replicate

/-- The extended header, if there is one. -/
def paxBytes (e : Entry) : List UInt8 :=
  if paxPayload e = [] then []
  else headerBlock (paxEntry e) (paxName e) [] (ascii 'x') (paxPayload e).length ++
    (paxPayload e ++ zeros (padding (paxPayload e).length))

def headerBytes (e : Entry) : List UInt8 :=
  paxBytes e ++ headerBlock e (headerName e).1 (headerName e).2 e.kind.flag (storedSize e)

def memberBytes (m : Member) : List UInt8 :=
  headerBytes m.entry ++ (m.data ++ zeros (padding (storedSize m.entry)))

def membersBytes (ms : List Member) : List UInt8 := ms.flatMap memberBytes

/-- What is missing to a full record. -/
def recordPad (n : Nat) : Nat := (record - n % record) % record

theorem recordPad_eq (n : Nat) : recordPad n = (10240 - n % 10240) % 10240 := rfl

/-- Two zero blocks, and more up to a full record. -/
def tailBytes (n : Nat) : List UInt8 :=
  zeros block ++ (zeros block ++ zeros (recordPad (n + (block + block))))

def image (ms : List Member) : List UInt8 := membersBytes ms ++ tailBytes (membersBytes ms).length

theorem padding_spec (n : Nat) : (n + padding n) % block = 0 := by
  have hb : block = 512 := rfl
  rw [padding, hb]
  omega

theorem length_paxBytes_mod : (paxBytes e).length % block = 0 := by
  have hp := padding_spec (paxPayload e).length
  rw [paxBytes]
  split
  · rfl
  · rw [length_append, length_append, length_headerBlock, length_zeros, Nat.add_mod_left]
    exact hp

theorem length_memberBytes_mod (hdata : m.data.length = storedSize m.entry) :
    (memberBytes m).length % block = 0 := by
  have hb : block = 512 := rfl
  have h1 := length_paxBytes_mod (e := m.entry)
  have h2 := padding_spec (storedSize m.entry)
  rw [memberBytes, headerBytes]
  simp only [length_append, length_headerBlock, length_zeros, hdata]
  rw [hb] at h1 h2 ⊢
  omega

theorem length_membersBytes_mod (hdata : ∀ m ∈ ms, m.data.length = storedSize m.entry) :
    (membersBytes ms).length % block = 0 := by
  have hb : block = 512 := rfl
  induction ms with
  | nil => rfl
  | cons m ms ih =>
    have h1 := length_memberBytes_mod (hdata m mem_cons_self)
    have h2 := ih fun x hx => hdata x (mem_cons_of_mem m hx)
    rw [membersBytes, flatMap_cons, length_append]
    rw [membersBytes] at h2
    rw [hb] at h1 h2 ⊢
    omega

theorem emit_ok {b : List UInt8} (h : w.written + b.length < 2 ^ 64) :
    emit b w = .ok () { w with inner := w.inner ++ b, written := w.written + b.length } := by
  rw [emit, Checked.add_eq_some.mpr ⟨h, rfl⟩]

theorem appendHeader_ok (hr : w.remaining = 0) (hp : w.pad = 0)
    (h : w.written + (headerBytes e).length < 2 ^ 64) :
    appendHeader e w = .ok () { w with
      inner := w.inner ++ headerBytes e
      written := w.written + (headerBytes e).length
      remaining := storedSize e
      pad := padding (storedSize e) } := by
  rw [appendHeader, bind_ok (run_get w), if_neg (by simp [hr, hp])]
  by_cases hpax : paxPayload e = []
  · have hbytes : headerBytes e
        = headerBlock e (headerName e).1 (headerName e).2 e.kind.flag (storedSize e) := by
      rw [headerBytes, paxBytes, if_pos hpax, nil_append]
    rw [hbytes] at h ⊢
    rw [if_neg (by simp [hpax])]
    beta_reduce
    rw [bind_ok (emit_ok h)]
    rfl
  have hbytes : headerBytes e = headerBlock (paxEntry e) (paxName e) [] (ascii 'x') (paxPayload e).length ++
      (paxPayload e ++ zeros (padding (paxPayload e).length)) ++
      headerBlock e (headerName e).1 (headerName e).2 e.kind.flag (storedSize e) := by
    rw [headerBytes, paxBytes, if_neg hpax]
  have hlen := congrArg length hbytes
  simp only [length_append] at hlen
  rw [if_pos hpax]
  rw [bind_ok (emit_ok (by omega)), bind_ok (emit_ok (by simp only; omega)),
    bind_ok (emit_ok (by simp only [length_replicate]; rw [length_zeros] at hlen; omega))]
  beta_reduce
  rw [bind_ok (emit_ok (by simp only [length_replicate]; rw [length_zeros] at hlen; omega)), hbytes]
  simp only [modify, modifyGet, MonadStateOf.modifyGet, EStateM.modifyGet, append_assoc,
    length_append, zeros, add_assoc]

theorem writeData_ok {b : List UInt8} (hr : b.length ≤ w.remaining) (h : w.written + b.length < 2 ^ 64) :
    writeData b w = .ok () { w with
      inner := w.inner ++ b
      written := w.written + b.length
      remaining := w.remaining - b.length } := by
  rw [writeData, bind_ok (run_get w), if_neg (by omega), bind_ok (emit_ok h)]
  rfl

theorem writeChunks_ok : ∀ (cs : List (List UInt8)) (w : TarWriter), cs.flatten.length ≤ w.remaining →
    w.written + cs.flatten.length < 2 ^ 64 → writeChunks cs w = .ok () { w with
      inner := w.inner ++ cs.flatten
      written := w.written + cs.flatten.length
      remaining := w.remaining - cs.flatten.length } := by
  intro cs
  induction cs with
  | nil =>
    intro w _ _
    simp [writeChunks, pure, EStateM.pure]
  | cons c cs ih =>
    intro w hr h
    rw [flatten_cons, length_append] at hr h
    rw [writeChunks, bind_ok (writeData_ok (by omega) (by omega)), ih _ (by simp only; omega)
      (by simp only; omega)]
    simp only [flatten_cons, append_assoc, length_append, add_assoc, Nat.sub_sub]

theorem finishEntry_ok (hr : w.remaining = 0) (h : w.written + w.pad < 2 ^ 64) :
    finishEntry w = .ok () { w with
      inner := w.inner ++ zeros w.pad
      written := w.written + w.pad
      pad := 0 } := by
  rw [finishEntry, bind_ok (run_get w), if_neg (by simp [hr]),
    bind_ok (emit_ok (by rw [length_replicate]; exact h)), length_replicate]
  rfl

theorem writeMembers_ok : ∀ (ms : List Member) (w : TarWriter),
    (∀ m ∈ ms, m.data.length = storedSize m.entry) → w.remaining = 0 → w.pad = 0 →
    w.written + (membersBytes ms).length < 2 ^ 64 → writeMembers ms w = .ok () { w with
      inner := w.inner ++ membersBytes ms
      written := w.written + (membersBytes ms).length } := by
  intro ms
  induction ms with
  | nil =>
    intro w _ _ _ _
    simp [writeMembers, membersBytes, pure, EStateM.pure]
  | cons m ms ih =>
    intro w hdata hr hp h
    have hm := hdata m mem_cons_self
    have hbytes : membersBytes (m :: ms) = headerBytes m.entry ++
        (m.chunks.flatten ++ (zeros (padding (storedSize m.entry)) ++ membersBytes ms)) := by
      rw [membersBytes, flatMap_cons, memberBytes]
      simp only [append_assoc]
      rfl
    have hlen := congrArg length hbytes
    simp only [length_append, length_zeros] at hlen
    have hml : m.chunks.flatten.length = storedSize m.entry := hm
    rw [writeMembers, bind_ok (appendHeader_ok hr hp (by omega)),
      bind_ok (writeChunks_ok m.chunks _ (by simp only; omega) (by simp only; omega)),
      bind_ok (finishEntry_ok (by simp only; omega) (by simp only; omega)),
      ih _ (fun x hx => hdata x (mem_cons_of_mem m hx)) (by simp only; omega) rfl
        (by simp only; omega), hbytes]
    simp only [append_assoc, length_append, length_zeros, Nat.add_assoc, hml, Nat.sub_self, hr, hp]

theorem fillRecord_ok : ∀ (rounds : Nat) (w : TarWriter), w.written % 512 = 0 →
    recordPad w.written + 512 ≤ rounds * 512 → w.written + recordPad w.written < 2 ^ 64 →
    fillRecord rounds w = .ok () { w with
      inner := w.inner ++ zeros (recordPad w.written)
      written := w.written + recordPad w.written } := by
  intro rounds
  induction rounds with
  | zero =>
    intro w _ hle _
    omega
  | succ rounds ih =>
    intro w hmod hle h
    have := recordPad_eq w.written
    have := recordPad_eq (w.written + 512)
    rw [fillRecord, bind_ok (run_get w)]
    by_cases hz : w.written % record = 0
    · have hz' : w.written % 10240 = 0 := hz
      have h0 : recordPad w.written = 0 := by omega
      rw [if_pos hz, h0]
      simp [zeros, pure, EStateM.pure]
    have hz' : w.written % 10240 ≠ 0 := hz
    have hstep : recordPad w.written = 512 + recordPad (w.written + 512) := by omega
    rw [if_neg hz]
    rw [bind_ok (emit_ok (by
      rw [length_replicate, show block = 512 from rfl]; omega))]
    rw [length_replicate, show block = 512 from rfl,
      ih _ (by simp only; omega) (by simp only; omega) (by simp only; omega)]
    simp only [hstep, zeros, append_assoc, replicate_append_replicate, add_assoc]

/-- The writer puts out the members and the end of the archive. -/
theorem archive_ok (hdata : ∀ m ∈ ms, m.data.length = storedSize m.entry)
    (h : (image ms).length < 2 ^ 64) : archive ms = .ok (image ms) := by
  have : (membersBytes ms).length % 512 = 0 := length_membersBytes_mod hdata
  have := recordPad_eq ((membersBytes ms).length + (512 + 512))
  rw [image, tailBytes] at h
  simp only [length_append, length_zeros, show block = 512 from rfl] at h
  have hrun : (do writeMembers ms; TarWriter.finish : WriteM Unit) .new = .ok () { TarWriter.new with
      inner := image ms
      written := (image ms).length } := by
    rw [bind_ok (writeMembers_ok ms .new hdata rfl rfl (by simp only [TarWriter.new]; omega))]
    rw [TarWriter.finish, bind_ok (run_get _), if_neg (by simp [TarWriter.new])]
    simp only [TarWriter.new, nil_append, zero_add, show block = 512 from rfl,
      show record / 512 = 20 from rfl]
    rw [bind_ok (emit_ok (by simp only [length_replicate]; omega)),
      bind_ok (emit_ok (by simp only [length_replicate]; omega))]
    simp only [length_replicate, add_assoc]
    rw [fillRecord_ok _ _ (by simp only; omega) (by simp only; omega) (by simp only; omega)]
    simp only [image, tailBytes, zeros, append_assoc, length_append, length_replicate,
      add_assoc, show block = 512 from rfl]
  rw [archive, hrun]

/-- The reader has the given bytes before it; no global settings were met. -/
structure At (r : TarReader) (data : List UInt8) : Prop where
  ahead : r.inner.data = data
  globals : r.globals = {}
  going : r.done = false
  offset : r.offset + data.length < 2 ^ 64

variable {front rest data : List UInt8} {n : Nat}

theorem advance_ok (h : r.offset + n < 2 ^ 64) :
    advance n r = .ok () { r with offset := r.offset + n } := by
  rw [advance, Checked.add_eq_some.mpr ⟨h, rfl⟩]

theorem readFull_ok (hd : r.inner.data = front ++ rest) :
    ∃ inner, readFull front.length r = .ok (some front) { r with inner := inner } ∧
      inner.data = rest := by
  obtain ⟨reads, hfill⟩ := r.inner.fill_spec front.length le_rfl
  refine ⟨{ r.inner with data := r.inner.data.drop front.length, reads := reads }, ?_,
    show r.inner.data.drop front.length = rest by rw [hd, drop_left]⟩
  rw [readFull, hfill, hd, take_left]
  exact if_pos rfl

theorem readExact_ok (hd : r.inner.data = front ++ rest) :
    ∃ inner, readExact front.length r = .ok front { r with inner := inner } ∧
      inner.data = rest := by
  obtain ⟨reads, hfill⟩ := r.inner.fill_spec front.length le_rfl
  refine ⟨{ r.inner with data := r.inner.data.drop front.length, reads := reads }, ?_,
    show r.inner.data.drop front.length = rest by rw [hd, drop_left]⟩
  rw [readExact, hfill, hd, take_left]
  exact if_pos rfl

theorem read_front {s : Source} {k : Nat} (hd : s.data = front ++ rest) (hk : 0 < k)
    (hle : k ≤ front.length) : ∃ got more inner, front = got ++ more ∧ got ≠ [] ∧ got.length ≤ k ∧
      s.read k = (got, inner) ∧ inner.data = more ++ rest := by
  obtain ⟨j, hjk, -, hpos, hread⟩ := s.read_spec hk
  have hne : s.data ≠ [] := by
    rw [hd]
    intro h
    have := congrArg length h
    rw [length_append, length_nil] at this
    omega
  have hj := hpos hne
  have htake : s.data.take j = front.take j := by
    rw [hd, take_append_of_le_length (by omega)]
  refine ⟨front.take j, front.drop j, { s with data := s.data.drop j, reads := s.reads + 1 }, (take_append_drop j front).symm, ?_, ?_, ?_, ?_⟩
  · rw [← length_pos_iff, length_take]
    omega
  · rw [length_take]
    omega
  · rw [hread, htake]
  · simp only [hd, drop_append_of_le_length (show j ≤ front.length by omega)]

theorem discardFrom_ok : ∀ (rounds : Nat) (front : List UInt8) (r : TarReader),
    r.inner.data = front ++ rest → front.length < rounds → r.offset + front.length < 2 ^ 64 →
    ∃ inner, discardFrom rounds front.length r = .ok () { r with
        inner := inner
        offset := r.offset + front.length } ∧ inner.data = rest := by
  intro rounds
  induction rounds with
  | zero =>
    intro front r _ h
    omega
  | succ rounds ih =>
    intro front r hd hlt hoff
    by_cases hnil : front.length = 0
    · have hfront : front = [] := length_eq_zero_iff.mp hnil
      refine ⟨r.inner, ?_, by rw [hd, hfront, nil_append]⟩
      simp only [discardFrom, hnil, if_true, add_zero]
    have : scratch = 8192 := rfl
    obtain ⟨got, more, inner, hfront, hne, -, hread, hinner⟩ := read_front hd
      (k := min front.length scratch) (by omega) (by omega)
    have hlen : front.length = got.length + more.length := by rw [hfront, length_append]
    have := length_pos_iff.mpr hne
    obtain ⟨inner', hrun, hdata⟩ := ih more { r with inner := inner, offset := r.offset + got.length }
      hinner (by omega) (by simp only; omega)
    refine ⟨inner', ?_, hdata⟩
    simp only [discardFrom, if_neg hnil, hread, if_neg hne]
    rw [bind_ok (advance_ok (by simp only; omega)), show front.length - got.length = more.length by omega,
      hrun]
    simp only [hlen, add_assoc]

theorem discard_ok (hd : r.inner.data = front ++ rest) (hoff : r.offset + front.length < 2 ^ 64) :
    ∃ inner, discard front.length r = .ok () { r with
        inner := inner
        offset := r.offset + front.length } ∧ inner.data = rest := by
  refine discardFrom_ok _ front r hd ?_ hoff
  rw [hd, length_append]
  omega

theorem readMeta_ok (hd : r.inner.data = data ++ (zeros (padding data.length) ++ rest))
    (hmax : data.length ≤ maxMeta) (hoff : r.offset + (data.length + padding data.length) < 2 ^ 64) :
    ∃ inner, readMeta data.length r = .ok data { r with
        inner := inner
        offset := r.offset + (data.length + padding data.length) } ∧ inner.data = rest := by
  obtain ⟨inner1, hread, hd1⟩ := readExact_ok hd
  obtain ⟨inner2, hskip, hd2⟩ := discard_ok
    (r := { r with inner := inner1, offset := r.offset + data.length }) hd1
    (by rw [length_zeros]; simp only; omega)
  rw [length_zeros] at hskip
  refine ⟨inner2, ?_, hd2⟩
  rw [readMeta, if_neg (by omega), bind_ok hread,
    bind_ok (advance_ok (by simp only; omega)), bind_ok hskip]
  simp only [pure, EStateM.pure, add_assoc]

theorem check_ok {α : Type} (a : α) (r : TarReader) : check (.ok a) r = .ok a r := rfl

theorem nextFrom_header (rounds : Nat) (own : Pax) {e' : Entry} {path pre : Text} {flag : UInt8} {size : Nat}
    (hsize : size < 2 ^ 64) (h : At r (headerBlock e' path pre flag size ++ rest)) :
    ∃ r', At r' rest ∧ r'.remaining = r.remaining ∧ r'.pad = r.pad ∧
      nextFrom (rounds + 1) own none none r = handle (nextFrom rounds) own
        none none (headerBlock e' path pre flag size) flag size r' := by
  have hlen : (headerBlock e' path pre flag size).length = block := length_headerBlock
  obtain ⟨inner, hread, hd⟩ := readFull_ok h.ahead
  rw [hlen] at hread
  have hoff := h.offset
  rw [length_append, hlen] at hoff
  refine ⟨{ r with inner := inner, offset := r.offset + block }, ⟨hd, h.globals, h.going, ?_⟩, rfl, rfl, ?_⟩
  · simp only
    omega
  rw [nextFrom, bind_ok hread]
  simp only
  rw [bind_ok (advance_ok (by simp only; omega)), headerBlock_not_zero]
  simp only [Bool.false_eq_true, if_false]
  rw [verifyChecksum_headerBlock, bind_ok (check_ok () _), headerBlock_flag, headerBlock_size hsize,
    bind_ok (check_ok size _)]

theorem nextFrom_member (hw : Writable e) (rounds : Nat)
    (h : At r (headerBlock e (headerName e).1 (headerName e).2 e.kind.flag (storedSize e) ++ rest)) :
    ∃ r', nextFrom (rounds + 1) (ownPax e) none none r = .ok (some (stored e)) r' ∧ At r' rest ∧
      r'.remaining = storedSize e ∧ r'.pad = padding (storedSize e) := by
  obtain ⟨r', hat, -, -, hrun⟩ := nextFrom_header rounds (ownPax e) (storedSize_lt hw.size) h
  have hflags : ∀ c ∈ ['x', 'g', 'L', 'K', 'V'], e.kind.flag ≠ ascii c := by
    intro c hc
    have hk := hw.kind
    cases hkind : e.kind with
    | other f => exact absurd hkind (hk f)
    | _ =>
      simp only [mem_cons, not_mem_nil, or_false] at hc
      rcases hc with rfl | rfl | rfl | rfl | rfl <;> decide
  refine ⟨{ r' with remaining := storedSize e, pad := padding (storedSize e) }, ?_,
    ⟨hat.ahead, hat.globals, hat.going, hat.offset⟩, rfl, rfl⟩
  rw [hrun, handle, if_neg (hflags 'x' (by decide)), if_neg (hflags 'g' (by decide)),
    if_neg (hflags 'L' (by decide)), if_neg (hflags 'K' (by decide)), if_neg (hflags 'V' (by decide)),
    bind_ok (run_get r'), show r'.globals = {} from hat.globals, entryOf_header hw,
    bind_ok (check_ok _ r'), if_neg (show (stored e).path ≠ [] from storedPath_ne_nil hw.path)]
  exact congrArg (fun g => EStateM.Result.ok (some (stored e)) { r' with
    remaining := storedSize e, pad := padding (storedSize e), globals := g }) hat.globals

theorem merge_empty (p : Pax) : Pax.merge {} p = p := by
  simp [Pax.merge]

theorem nextFrom_ok (hw : Writable e) (hmeta : metaSize e ≤ maxMeta) (rounds : Nat)
    (h : At r (headerBytes e ++ rest)) :
    ∃ r', nextFrom (rounds + 2) {} none none r = .ok (some (stored e)) r' ∧ At r' rest ∧
      r'.remaining = storedSize e ∧ r'.pad = padding (storedSize e) := by
  have hpax := parsePax_payload hw hmeta
  by_cases hempty : paxPayload e = []
  · have hown : ownPax e = {} := by
      rw [hempty] at hpax
      exact (Except.ok.inj hpax).symm
    rw [headerBytes, paxBytes, if_pos hempty, nil_append] at h
    rw [← hown]
    exact nextFrom_member hw (rounds + 1) h
  rw [headerBytes, paxBytes, if_neg hempty] at h
  simp only [append_assoc] at h
  have := length_paxPayload (e := e)
  have : maxMeta = 2 ^ 20 := rfl
  obtain ⟨r1, hat, -, -, hrun⟩ := nextFrom_header (rounds + 1) {} (by omega) h
  have hoff := hat.offset
  simp only [length_append, length_zeros] at hoff
  obtain ⟨inner, hread, hd⟩ := readMeta_ok hat.ahead (by omega) (by omega)
  obtain ⟨r', hnext, hat', hr, hp⟩ := nextFrom_member
    (r := { r1 with
      inner := inner
      offset := r1.offset + ((paxPayload e).length + padding (paxPayload e).length) }) hw rounds
    ⟨hd, hat.globals, hat.going, by simp only [length_append]; omega⟩
  refine ⟨r', ?_, hat', hr, hp⟩
  rw [hrun, handle, if_pos rfl, bind_ok hread, hpax, bind_ok (check_ok _ _), merge_empty]
  exact hnext

theorem nextFrom_tooLarge (hsize : metaSize e < 2 ^ 64) (hmeta : maxMeta < metaSize e) (rounds : Nat)
    (h : At r (headerBytes e ++ rest)) :
    ∃ r', nextFrom (rounds + 1) {} none none r
      = .error (.error (.tooLarge "extended header")) r' := by
  have := length_paxPayload (e := e)
  have hempty : paxPayload e ≠ [] := by
    rw [← length_pos_iff]
    omega
  rw [headerBytes, paxBytes, if_neg hempty] at h
  simp only [append_assoc] at h
  obtain ⟨r1, -, -, -, hrun⟩ := nextFrom_header rounds {} (by omega) h
  refine ⟨r1, ?_⟩
  rw [hrun, handle, if_pos rfl]
  apply bind_error
  rw [readMeta, if_pos (by omega)]
  rfl

/-- A reader between members: the padding of the last one is before it. -/
theorem nextEntry_skip (hr : r.remaining = 0) (h : At r (zeros r.pad ++ data)) :
    ∃ r', At r' data ∧ nextEntry r = nextFrom (data.length + 1) {} none none r' := by
  have hoff := h.offset
  rw [length_append, length_zeros] at hoff
  obtain ⟨inner, hskip, hd⟩ := discard_ok (r := { r with remaining := 0, pad := 0 }) h.ahead
    (by rw [length_zeros]; simp only; omega)
  rw [length_zeros] at hskip
  have hrun : skipData r = .ok () { r with
      inner := inner, remaining := 0, pad := 0, offset := r.offset + r.pad } := by
    rw [skipData, hr, Checked.add_eq_some.mpr ⟨by omega, zero_add r.pad⟩]
    exact hskip
  refine ⟨{ r with inner := inner, remaining := 0, pad := 0, offset := r.offset + r.pad },
    ⟨hd, h.globals, h.going, by simp only; omega⟩, ?_⟩
  rw [h.going] at hrun
  rw [nextEntry, h.going]
  refine (bind_ok hrun).trans ?_
  simp only [hd]

/-- The data of a member is read to its end, whatever the buffers. -/
theorem readRest_ok (sizes : Nat → Nat) : ∀ (rounds i : Nat) (data : List UInt8) (r : TarReader),
    At r (data ++ rest) → r.remaining = data.length → data.length < rounds →
    ∃ r', readRest sizes rounds i r = .ok data r' ∧ At r' rest ∧ r'.remaining = 0 ∧ r'.pad = r.pad := by
  intro rounds
  induction rounds with
  | zero =>
    intro i data r _ _ h
    omega
  | succ rounds ih =>
    intro i data r h hr hlt
    by_cases hnil : data = []
    · subst hnil
      refine ⟨r, ?_, by simpa using h, hr, rfl⟩
      have hread : readData (sizes i + 1) r = .ok [] r := by
        rw [readData, if_pos (.inl hr)]
      rw [readRest, bind_ok hread, if_pos rfl]
      rfl
    have := length_pos_iff.mpr hnil
    obtain ⟨got, more, inner, hfront, hne, -, hread, hinner⟩ := read_front h.ahead
      (k := min (sizes i + 1) r.remaining) (by omega) (by omega)
    have : data.length = got.length + more.length := by rw [hfront, length_append]
    have := length_pos_iff.mpr hne
    have hoff := h.offset
    rw [length_append] at hoff
    have hdata : readData (sizes i + 1) r = .ok got { r with
        inner := inner
        remaining := r.remaining - got.length
        offset := r.offset + got.length } := by
      rw [readData, if_neg (by omega)]
      simp only [hread, if_neg hne]
      rw [bind_ok (advance_ok (by simp only; omega))]
      rfl
    obtain ⟨r', hrest, hat, hr', hp'⟩ := ih (i + 1) more { r with
        inner := inner
        remaining := r.remaining - got.length
        offset := r.offset + got.length }
      ⟨hinner, h.globals, h.going, by simp only [length_append]; omega⟩ (by simp only; omega) (by omega)
    refine ⟨r', ?_, hat, hr', hp'⟩
    rw [readRest, bind_ok hdata, if_neg hne, bind_ok hrest, hfront]
    rfl

theorem nextEntry_end (n : Nat) (hr : r.remaining = 0) (h : At r (zeros r.pad ++ tailBytes n)) :
    ∃ r', nextEntry r = .ok none r' := by
  obtain ⟨r1, hat, hrun⟩ := nextEntry_skip hr h
  have hoff := hat.offset
  rw [tailBytes] at hoff hat
  simp only [length_append, length_zeros] at hoff
  obtain ⟨inner, hread, hd⟩ := readFull_ok hat.ahead
  rw [length_zeros] at hread
  obtain ⟨reads, hfill⟩ := inner.fill_spec block le_rfl
  have htake : inner.data.take block = zeros block := by
    rw [hd]
    exact take_left' (length_zeros block)
  have hzero : (zeros block).all (fun b => decide (b = 0)) = true := by simp [zeros]
  refine ⟨{ r1 with
    inner := { inner with data := inner.data.drop block, reads := reads }
    offset := r1.offset + block + block
    done := true }, ?_⟩
  rw [hrun, nextFrom, bind_ok hread]
  simp only
  rw [bind_ok (advance_ok (by simp only; omega)), hzero]
  simp only [if_true, endOfArchive, hfill, htake, length_zeros]
  refine (bind_ok (advance_ok (by simp only; omega))).trans ?_
  rfl

/-- The reader between two members, with the padding of the last one before it. -/
structure Between (r : TarReader) (data : List UInt8) : Prop where
  at_ : At r (zeros r.pad ++ data)
  read : r.remaining = 0

theorem member_ok (sizes : Nat → Nat) (hw : Writable m.entry) (hdata : m.data.length = storedSize m.entry)
    (hmeta : metaSize m.entry ≤ maxMeta) (h : Between r (memberBytes m ++ rest)) :
    ∃ r1 r2, nextEntry r = .ok (some (stored m.entry)) r1 ∧
      readRest sizes (r1.remaining + 1) 0 r1 = .ok m.data r2 ∧ Between r2 rest := by
  obtain ⟨r0, hat, hrun⟩ := nextEntry_skip h.read h.at_
  have hbytes : memberBytes m ++ rest
      = headerBytes m.entry ++ (m.data ++ (zeros (padding (storedSize m.entry)) ++ rest)) := by
    simp only [memberBytes, append_assoc]
  have hrounds : ∃ n, (memberBytes m ++ rest).length + 1 = n + 2 := by
    refine ⟨(memberBytes m ++ rest).length - 1, ?_⟩
    have hb : block = 512 := rfl
    rw [hbytes, headerBytes]
    simp only [length_append, length_headerBlock]
    omega
  obtain ⟨n, hn⟩ := hrounds
  rw [hbytes] at hat
  obtain ⟨r1, hnext, hat1, hr1, hp1⟩ := nextFrom_ok hw hmeta n hat
  rw [hn, hnext] at hrun
  rw [← hdata] at hr1
  obtain ⟨r2, hrest, hat2, hr2, hp2⟩ := readRest_ok sizes (r1.remaining + 1) 0 m.data r1 hat1 hr1 (by omega)
  rw [← hp1, ← hp2] at hat2
  exact ⟨r1, r2, hrun, hrest, hat2, hr2⟩

/-- A member with a long extended header stops the reader. -/
theorem member_tooLarge (hsize : metaSize m.entry < 2 ^ 64) (hmeta : maxMeta < metaSize m.entry)
    (h : Between r (memberBytes m ++ rest)) :
    ∃ r', nextEntry r = .error (.error (.tooLarge "extended header")) r' := by
  obtain ⟨r0, hat, hrun⟩ := nextEntry_skip h.read h.at_
  rw [show memberBytes m ++ rest
    = headerBytes m.entry ++ (m.data ++ (zeros (padding (storedSize m.entry)) ++ rest)) by
      simp only [memberBytes, append_assoc]] at hat
  rw [hrun]
  exact nextFrom_tooLarge hsize hmeta _ hat

/-- What the reader says of an archive: its members, or that one cannot be read. -/
def outcome : List Member → Except Stop (List (Entry × List UInt8))
  | [] => .ok []
  | m :: ms =>
    if metaSize m.entry ≤ maxMeta then (outcome ms).map ((stored m.entry, m.data) :: ·)
    else .error (.error (.tooLarge "extended header"))

/-- The result of a run, without the reader. -/
def result {α : Type} : EStateM.Result Stop TarReader α → Except Stop α
  | .ok a _ => .ok a
  | .error e _ => .error e

theorem readMembers_ok (sizes : Nat → Nat) (n : Nat) : ∀ (ms : List Member) (rounds : Nat) (r : TarReader),
    (∀ m ∈ ms, Writable m.entry) → (∀ m ∈ ms, m.data.length = storedSize m.entry) →
    (∀ m ∈ ms, metaSize m.entry < 2 ^ 64) →
    Between r (membersBytes ms ++ tailBytes n) → ms.length < rounds →
    result (readMembers sizes rounds r) = outcome ms := by
  intro ms
  induction ms with
  | nil =>
    intro rounds r _ _ _ h hlt
    obtain ⟨k, rfl⟩ : ∃ k, rounds = k + 1 := ⟨rounds - 1, by simp at hlt; omega⟩
    obtain ⟨r', hrun⟩ := nextEntry_end n h.read h.at_
    rw [readMembers, bind_ok hrun]
    rfl
  | cons m ms ih =>
    intro rounds r hw hdata hmeta h hlt
    obtain ⟨k, rfl⟩ : ∃ k, rounds = k + 1 := ⟨rounds - 1, by simp at hlt; omega⟩
    rw [membersBytes, flatMap_cons, append_assoc, ← membersBytes] at h
    by_cases hm : metaSize m.entry ≤ maxMeta
    · obtain ⟨r1, r2, hnext, hrest, hbetween⟩ := member_ok sizes (hw m mem_cons_self)
        (hdata m mem_cons_self) hm h
      have hms := ih k r2 (fun x hx => hw x (mem_cons_of_mem m hx))
        (fun x hx => hdata x (mem_cons_of_mem m hx))
        (fun x hx => hmeta x (mem_cons_of_mem m hx)) hbetween (by simpa using hlt)
      rw [readMembers, bind_ok hnext, outcome, if_pos hm, ← hms]
      refine (congrArg result (bind_ok hrest)).trans ?_
      cases hrun : readMembers sizes k r2 with
      | ok members r3 =>
        rw [bind_ok hrun]
        rfl
      | error stop r3 =>
        rw [bind_error hrun]
        rfl
    · obtain ⟨r', hrun⟩ := member_tooLarge (hmeta m mem_cons_self) (by omega) h
      rw [readMembers, bind_error hrun, outcome, if_neg hm]
      rfl

theorem metaSize_le_image (hm : m ∈ ms) : metaSize m.entry ≤ (image ms).length := by
  have : (paxPayload m.entry).length ≤ (memberBytes m).length := by
    rw [memberBytes, headerBytes, paxBytes]
    split
    · rename_i hnil
      rw [hnil]
      exact Nat.zero_le _
    · simp only [length_append]
      omega
  have : (memberBytes m).length ≤ (membersBytes ms).length := by
    obtain ⟨before, after, rfl⟩ := append_of_mem hm
    rw [membersBytes, flatMap_append, flatMap_cons]
    simp only [length_append]
    omega
  rw [← length_paxPayload, image, length_append]
  omega

theorem length_le_image (ms : List Member) : ms.length ≤ (membersBytes ms).length := by
  induction ms with
  | nil => exact Nat.zero_le _
  | cons m ms ih =>
    rw [membersBytes, flatMap_cons, ← membersBytes, length_append, length_cons]
    have hb : block = 512 := rfl
    have : block ≤ (memberBytes m).length := by
      rw [memberBytes, headerBytes]
      simp only [length_append, length_headerBlock]
      omega
    omega

theorem readArchive_image (hw : ∀ m ∈ ms, Writable m.entry)
    (hdata : ∀ m ∈ ms, m.data.length = storedSize m.entry) (hlen : (image ms).length < 2 ^ 64)
    (sizes hints : Nat → Nat) : readArchive sizes hints (image ms) = outcome ms := by
  have hrounds : ms.length < (image ms).length + 1 := by
    have := length_le_image ms
    rw [image, length_append]
    omega
  refine Eq.trans ?_ (readMembers_ok sizes (membersBytes ms).length ms ((image ms).length + 1)
    (.new ⟨image ms, hints, 0⟩) hw hdata
    (fun m hm => lt_of_le_of_lt (metaSize_le_image hm) hlen)
    ⟨⟨rfl, rfl, rfl, ?_⟩, rfl⟩ hrounds)
  · rw [readArchive]
    cases readMembers sizes ((image ms).length + 1) (.new ⟨image ms, hints, 0⟩) <;> rfl
  · show 0 + (image ms).length < 2 ^ 64
    omega

/-- An entry is stored as it is, in a header the reader accepts. -/
structure Fits (e : Entry) : Prop where
  extended : metaSize e ≤ maxMeta
  mode : e.mode < 2 ^ 12
  directory : e.kind = .directory → e.path.getLast? = some '/'
  size : e.kind ≠ .file → e.size = 0
  device : ¬ IsDevice e → e.devMajor = 0 ∧ e.devMinor = 0

theorem stored_eq_iff : metaSize e ≤ maxMeta ∧ stored e = e ↔ Fits e := by
  constructor
  · rintro ⟨hmeta, h⟩
    have hpath : storedPath e = e.path := congrArg path h
    have hmode : e.mode % 2 ^ 12 = e.mode := congrArg mode h
    have hsize : storedSize e = e.size := congrArg size h
    have hmajor : (if IsDevice e then e.devMajor else 0) = e.devMajor := congrArg devMajor h
    have hminor : (if IsDevice e then e.devMinor else 0) = e.devMinor := congrArg devMinor h
    constructor
    · exact hmeta
    · omega
    · intro hdir
      by_contra hlast
      rw [storedPath, if_pos ⟨hdir, hlast⟩] at hpath
      exact absurd (congrArg length hpath) (by simp)
    · intro hfile
      rw [storedSize, if_neg hfile] at hsize
      exact hsize.symm
    · intro hdev
      rw [if_neg hdev] at hmajor hminor
      exact ⟨hmajor.symm, hminor.symm⟩
  intro h
  refine ⟨h.extended, ?_⟩
  have hpath : storedPath e = e.path := by
    rw [storedPath, if_neg]
    rintro ⟨hdir, hlast⟩
    exact hlast (h.directory hdir)
  have hmode : e.mode % 2 ^ 12 = e.mode := Nat.mod_eq_of_lt h.mode
  have hsize : storedSize e = e.size := by
    rw [storedSize]
    split
    · rfl
    · rename_i hfile
      exact (h.size hfile).symm
  have hmajor : (if IsDevice e then e.devMajor else 0) = e.devMajor := by
    split
    · rfl
    · rename_i hdev
      exact (h.device hdev).1.symm
  have hminor : (if IsDevice e then e.devMinor else 0) = e.devMinor := by
    split
    · rfl
    · rename_i hdev
      exact (h.device hdev).2.symm
  rw [stored, hpath, hmode, hsize, hmajor, hminor]

theorem outcome_eq_iff : outcome ms = .ok (ms.map fun m => (m.entry, m.data)) ↔
    ∀ m ∈ ms, Fits m.entry := by
  induction ms with
  | nil => simp [outcome]
  | cons m ms ih =>
    rw [forall_mem_cons, ← ih, ← stored_eq_iff, outcome]
    by_cases hm : metaSize m.entry ≤ maxMeta
    · rw [if_pos hm]
      cases outcome ms with
      | error stop => simp [Except.map]
      | ok members => simp [Except.map, hm]
    · simp [hm]

/-- The round trip: the writer's archive is read back as the entries that were written, with
their data, exactly if every entry is stored as it is. -/
theorem tar_round_trip (ms : List Member) (hw : ∀ m ∈ ms, Writable m.entry)
    (hdata : ∀ m ∈ ms, m.data.length = storedSize m.entry) (hlen : (image ms).length < 2 ^ 64) :
    ∃ bytes, archive ms = .ok bytes ∧
      ((∀ sizes hints, readArchive sizes hints bytes = .ok (ms.map fun m => (m.entry, m.data))) ↔
        ∀ m ∈ ms, Fits m.entry) := by
  refine ⟨image ms, archive_ok hdata hlen, ?_⟩
  rw [← outcome_eq_iff]
  constructor
  · intro h
    rw [← readArchive_image hw hdata hlen (fun _ => 0) (fun _ => 0)]
    exact h _ _
  · intro h sizes hints
    rw [readArchive_image hw hdata hlen, h]

/-- A short name and some data come back. -/
theorem tar_round_trip_small :
    let m : Member := ⟨{ new ['a'] .file with size := 3 }, [[1, 2], [3]]⟩
    ∃ bytes, archive [m] = .ok bytes ∧
      ((∀ sizes hints, readArchive sizes hints bytes = .ok [(m.entry, [1, 2, 3])]) ↔
        ∀ x ∈ [m], Fits x.entry) := by
  refine tar_round_trip [⟨{ new ['a'] .file with size := 3 }, [[1, 2], [3]]⟩] ?_ ?_ ?_
  · intro m hm
    rw [mem_singleton.mp hm]
    constructor
    case kind => exact fun f h => Kind.noConfusion h
    all_goals decide
  · decide
  · decide +kernel

theorem length_encode_replicate (n : Nat) : (encode (replicate n 'a')).length = n := by
  induction n with
  | zero => rfl
  | succ n ih =>
    rw [replicate_succ, encode_cons, length_append, ih, String.length_utf8EncodeChar]
    exact add_comm 1 n

/-- A path that is too long for the fields takes an extended header with one record. -/
theorem metaSize_long {path : Text} (h : 256 < (encode path).length) :
    metaSize (.new path .file) = recordLength (recordBase keyPath path) := by
  have hfits : ¬ FitsHeader path := by
    intro hfits
    cases hfits with
    | inl hshort => omega
    | inr hsplit =>
      obtain ⟨pre, name, rfl, -, hpre, -, hname⟩ := hsplit
      rw [length_encode_slash] at h
      omega
  have hpath : storedPath (.new path .file) = path := if_neg fun h => Kind.noConfusion h.1
  rw [metaSize, hpath, if_neg hfits]
  simp [Entry.new, storedSize]

/-- One byte short of a mebibyte. -/
@[irreducible] def longPath : Text := List.replicate (2 ^ 20 - 1) 'a'

theorem length_encode_longPath : (encode longPath).length = 2 ^ 20 - 1 := by
  rw [longPath, length_encode_replicate]

theorem mem_longPath {c : Char} (h : c ∈ longPath) : c = 'a' := by
  rw [longPath] at h
  exact eq_of_mem_replicate h

def longMember : Member := ⟨.new longPath .file, []⟩

theorem metaSize_longMember :
    maxMeta < metaSize longMember.entry ∧ metaSize longMember.entry ≤ 2 ^ 20 + 20 := by
  have hlen := length_encode_longPath
  have hbase : recordBase keyPath longPath = 2 ^ 20 + 6 := by
    rw [recordBase, hlen]
    rfl
  have : ownDigits (2 ^ 20 + 6) ≤ 7 := Nat.find_min' _ (by decide)
  have : maxMeta = 2 ^ 20 := rfl
  have hsize : metaSize longMember.entry = recordLength (2 ^ 20 + 6) := by
    rw [← hbase]
    exact metaSize_long (by omega)
  rw [hsize, recordLength]
  omega

theorem writable_longMember : Writable longMember.entry := by
  have hlen := length_encode_longPath
  constructor
  case kind => exact fun f h => Kind.noConfusion h
  case path =>
    intro h
    rw [show longPath = [] from h] at hlen
    exact absurd hlen (by decide)
  case pathNul => exact fun h => absurd (mem_longPath h) (by decide)
  case pathSize =>
    show (encode longPath).length < 2 ^ 20
    omega
  case file => exact fun _ h => absurd (mem_longPath (mem_of_getLast? h)) (by decide)
  all_goals decide

theorem length_memberBytes_le (m : Member) :
    (memberBytes m).length ≤ metaSize m.entry + m.data.length + 2048 := by
  have hb : block = 512 := rfl
  have h1 : padding (storedSize m.entry) < 512 := Nat.mod_lt _ (by decide)
  have h2 : padding (metaSize m.entry) < 512 := Nat.mod_lt _ (by decide)
  rw [memberBytes, headerBytes, paxBytes]
  split
  · simp only [length_append, length_headerBlock, length_zeros, length_nil]
    omega
  · simp only [length_append, length_headerBlock, length_zeros, length_paxPayload]
    omega

theorem length_image_longMember : (image [longMember]).length < 2 ^ 64 := by
  have := length_memberBytes_le longMember
  have := metaSize_longMember.2
  have : longMember.data.length = 0 := rfl
  have hb : block = 512 := rfl
  have hpad : ∀ n, recordPad n < 10240 := fun n => Nat.mod_lt _ (by decide)
  have := hpad ((memberBytes longMember).length + (block + block))
  have hbytes : (image [longMember]).length = (memberBytes longMember).length
      + (block + (block + recordPad ((memberBytes longMember).length + (block + block)))) := by
    simp only [image, membersBytes, flatMap_cons, flatMap_nil, append_nil, length_append,
      tailBytes, length_zeros]
  rw [hbytes]
  omega

/-- A regular file with such a path is written, and the reader refuses the archive. -/
theorem long_path_refused :
    (∀ m ∈ [longMember], Writable m.entry ∧ m.data.length = storedSize m.entry) ∧
      ∃ bytes, archive [longMember] = .ok bytes ∧
        readArchive (fun _ => 0) (fun _ => 0) bytes
          = .error (.error (.tooLarge "extended header")) := by
  have hw : ∀ m ∈ [longMember], Writable m.entry := by
    intro m hm
    rw [mem_singleton.mp hm]
    exact writable_longMember
  have hdata : ∀ m ∈ [longMember], m.data.length = storedSize m.entry := by
    intro m hm
    rw [mem_singleton.mp hm]
    rfl
  obtain ⟨hlong, hle⟩ := metaSize_longMember
  have hlen : (image [longMember]).length < 2 ^ 64 := length_image_longMember
  refine ⟨fun m hm => ⟨hw m hm, hdata m hm⟩, image [longMember], archive_ok hdata hlen, ?_⟩
  rw [readArchive_image hw hdata hlen, outcome, if_neg (by omega)]

end Fastros.Archive.Tar
