import Fastros.Archive.TarHeader

/-!
# Entries

What the format stores of an entry, and that a header with the settings of its extended
header gives back exactly that.
-/

namespace Fastros.Archive.Tar

open TarReader

open List hiding get set modify

open Lib.Texts (decimal decimalInt decimal_ne_nil)
open Lib.Utf8 (encode zero_not_mem_encode encode_eq_nil encode_append encode_cons length_encode_pos)

variable {e : Entry} {path pre name s : Text} {len i : Nat}
variable {r : Text × Text}

/-- The path fits the name field, or the name and prefix fields around one of its slashes. -/
def FitsHeader (path : Text) : Prop :=
  (encode path).length ≤ 100 ∨ ∃ pre name, path = pre ++ '/' :: name ∧
    0 < (encode pre).length ∧ (encode pre).length ≤ 155 ∧
    0 < (encode name).length ∧ (encode name).length ≤ 100

theorem utf8Size_slash : ('/' : Char).utf8Size = 1 := by decide

theorem length_encode_slash (pre name : Text) :
    (encode (pre ++ '/' :: name)).length = (encode pre).length + 1 + (encode name).length := by
  rw [encode_append, encode_cons, length_append, length_append, String.length_utf8EncodeChar,
    utf8Size_slash]
  omega

theorem splitFrom_some : ∀ (s : Text) (i : Nat) (before : Text),
    splitFrom len i before s = some (name, pre) →
    ∃ t, s = t ++ '/' :: name ∧ pre = before.reverse ++ t ∧ 0 < i + (encode t).length ∧
      i + (encode t).length ≤ 155 ∧ len - (i + (encode t).length) - 1 ≤ 100 ∧
      0 < len - (i + (encode t).length) - 1 := by
  intro s
  induction s with
  | nil =>
    intro i before h
    cases h
  | cons c cs ih =>
    intro i before h
    rw [splitFrom] at h
    by_cases hc : c = '/' ∧ 0 < i ∧ len - i - 1 ≤ 100 ∧ 0 < len - i - 1
    · rw [if_pos hc] at h
      by_cases hi : i ≤ 155
      · rw [if_pos hi] at h
        cases h
        refine ⟨[], by rw [hc.1]; rfl, by rw [append_nil], ?_⟩
        exact ⟨hc.2.1, hi, hc.2.2⟩
      · rw [if_neg hi] at h
        cases h
    · rw [if_neg hc] at h
      obtain ⟨t, rfl, rfl, hpos, hle, hrest⟩ := ih _ _ h
      refine ⟨c :: t, rfl, by simp, ?_⟩
      rw [encode_cons, length_append, String.length_utf8EncodeChar, ← add_assoc]
      exact ⟨hpos, hle, hrest⟩

/-- A slash that would do means that one is found. -/
theorem splitFrom_ne_none : ∀ (s : Text) (i : Nat) (before t : Text), s = t ++ '/' :: name →
    0 < i + (encode t).length → i + (encode t).length ≤ 155 →
    len - (i + (encode t).length) - 1 ≤ 100 → 0 < len - (i + (encode t).length) - 1 →
    splitFrom len i before s ≠ none := by
  intro s
  induction s with
  | nil =>
    intro i before t hs
    exact absurd (congrArg length hs) (by simp)
  | cons c cs ih =>
    intro i before t hs h1 h2 h3 h4
    rw [splitFrom]
    by_cases hc : c = '/' ∧ 0 < i ∧ len - i - 1 ≤ 100 ∧ 0 < len - i - 1
    · rw [if_pos hc, if_pos (by omega)]
      exact Option.some_ne_none _
    rw [if_neg hc]
    cases t with
    | nil =>
      exact absurd ⟨(cons.inj hs).1, h1, h3, h4⟩ hc
    | cons x t =>
      obtain ⟨rfl, htail⟩ := cons.inj hs
      rw [encode_cons, length_append, String.length_utf8EncodeChar, ← add_assoc] at h1 h2 h3 h4
      exact ih _ _ t htail h1 h2 h3 h4

theorem splitUstar_some (h : splitUstar path = some (name, pre)) :
    (pre = [] ∧ name = path ∧ (encode name).length ≤ 100) ∨
    (path = pre ++ '/' :: name ∧ pre ≠ [] ∧ (encode pre).length ≤ 155 ∧ (encode name).length ≤ 100 ∧
      0 < (encode name).length) := by
  rw [splitUstar] at h
  by_cases hlen : (encode path).length ≤ 100
  · rw [if_pos hlen] at h
    cases h
    exact .inl ⟨rfl, rfl, hlen⟩
  rw [if_neg hlen] at h
  obtain ⟨t, hpath, hpre, hpos, hle, hrest⟩ := splitFrom_some _ _ _ h
  obtain rfl : pre = t := hpre
  rw [hpath, length_encode_slash] at hrest
  refine .inr ⟨hpath, ?_, by omega, by omega, by omega⟩
  rintro rfl
  exact absurd hpos (by decide)

theorem splitUstar_eq_none : splitUstar path = none ↔ ¬ FitsHeader path := by
  constructor
  · intro h hfit
    rcases hfit with hlen | ⟨pre, name, rfl, h1, h2, h3, h4⟩
    · rw [splitUstar, if_pos hlen] at h
      cases h
    rw [splitUstar] at h
    split at h
    · cases h
    · have hlen := length_encode_slash pre name
      exact splitFrom_ne_none _ 0 [] pre rfl (by omega) (by omega) (by omega) (by omega) h
  · intro hfit
    cases h : splitUstar path with
    | none => rfl
    | some np =>
      obtain ⟨name, pre⟩ := np
      refine absurd ?_ hfit
      rcases splitUstar_some h with ⟨-, rfl, hlen⟩ | ⟨hpath, hpre, h1, h2, h3⟩
      · exact .inl hlen
      · exact .inr ⟨pre, name, hpath, length_encode_pos hpre, h1, h3, h2⟩

instance : DecidablePred FitsHeader := fun path =>
  decidable_of_iff (splitUstar path ≠ none) (by rw [ne_eq, splitUstar_eq_none, not_not])

/-- An entry in the range of its types that can be a member: not of an unknown kind, with
a path and without zero bytes in its texts. -/
structure Writable (e : Entry) : Prop where
  kind : ∀ f, e.kind ≠ .other f
  path : e.path ≠ []
  pathNul : '\x00' ∉ e.path
  linkNul : '\x00' ∉ e.link
  unameNul : '\x00' ∉ e.uname
  gnameNul : '\x00' ∉ e.gname
  pathSize : (encode e.path).length < 2 ^ 20
  linkSize : (encode e.link).length < 2 ^ 20
  file : e.kind = .file → e.path.getLast? ≠ some '/'
  mode : e.mode < 2 ^ 32
  uid : e.uid < 2 ^ 32
  gid : e.gid < 2 ^ 32
  size : e.size < 2 ^ 64
  mtime : -2 ^ 63 < e.mtime ∧ e.mtime < 2 ^ 63
  devMajor : e.devMajor < 2 ^ 32
  devMinor : e.devMinor < 2 ^ 32

def IsDevice (e : Entry) : Prop := e.kind = .charDevice ∨ e.kind = .blockDevice

instance : Decidable (IsDevice e) := inferInstanceAs (Decidable (_ ∨ _))

/-- The entry as an archive has it. -/
def stored (e : Entry) : Entry :=
  { e with
    path := storedPath e
    mode := e.mode % 2 ^ 12
    size := storedSize e
    devMajor := if IsDevice e then e.devMajor else 0
    devMinor := if IsDevice e then e.devMinor else 0 }

/-- The settings of the extended header. -/
def ownPax (e : Entry) : Pax where
  path := if FitsHeader (storedPath e) then none else some (storedPath e)
  linkpath := if 100 < (encode e.link).length then some e.link else none
  size := if 0o77777777777 < storedSize e then some (storedSize e) else none
  uid := if 0o7777777 < e.uid then some e.uid else none
  gid := if 0o7777777 < e.gid then some e.gid else none
  mtime := if e.mtime < 0 ∨ 0o77777777777 < e.mtime then some e.mtime else none
  uname := if 32 < (encode e.uname).length then some e.uname else none
  gname := if 32 < (encode e.gname).length then some e.gname else none

/-- How long the extended header is: a record for each field that does not fit. -/
def metaSize (e : Entry) : Nat :=
  (if FitsHeader (storedPath e) then 0 else recordLength (recordBase keyPath (storedPath e))) +
  (if 100 < (encode e.link).length then recordLength (recordBase keyLinkpath e.link) else 0) +
  (if 0o77777777777 < storedSize e then recordLength (recordBase keySize (decimal (storedSize e))) else 0) +
  (if 0o7777777 < e.uid then recordLength (recordBase keyUid (decimal e.uid)) else 0) +
  (if 0o7777777 < e.gid then recordLength (recordBase keyGid (decimal e.gid)) else 0) +
  (if e.mtime < 0 ∨ 0o77777777777 < e.mtime then recordLength (recordBase keyMtime (decimalInt e.mtime))
    else 0) +
  (if 32 < (encode e.uname).length then recordLength (recordBase keyUname e.uname) else 0) +
  (if 32 < (encode e.gname).length then recordLength (recordBase keyGname e.gname) else 0)

theorem length_paxPayload : (paxPayload e).length = metaSize e := by
  have hone : ∀ (c : Prop) [Decidable c] (key value : Text),
      ((if c then [(key, value)] else []).flatMap fun r => paxRecord r.1 r.2).length
        = if c then recordLength (recordBase key value) else 0 := by
    intro c _ key value
    split
    · simp [length_paxRecord]
    · rfl
  rw [paxPayload, paxFields]
  simp only [flatMap_append, length_append, hone]
  simp only [splitUstar_eq_none, ite_not, metaSize]

theorem storedPath_ne_nil (h : e.path ≠ []) : storedPath e ≠ [] := by
  rw [storedPath]
  split
  · simp
  · exact h

theorem storedPath_nul (h : '\x00' ∉ e.path) : '\x00' ∉ storedPath e := by
  rw [storedPath]
  split
  · simp [h]
  · exact h

theorem storedSize_lt (h : e.size < 2 ^ 64) : storedSize e < 2 ^ 64 := by
  rw [storedSize]
  split
  · exact h
  · decide

theorem decimalInt_ne_nil (z : Int) : decimalInt z ≠ [] := by
  rw [decimalInt]
  split
  · simp
  · exact decimal_ne_nil

theorem mem_setting {c : Prop} [Decidable c] {key value : Text}
    (hr : r ∈ if c then [(key, value)] else []) : c ∧ r = (key, value) := by
  split at hr
  · next hc => exact ⟨hc, mem_singleton.mp hr⟩
  · cases hr

/-- The keys of the records have no separator, and no value is empty. -/
theorem paxFields_wellFormed (hpath : e.path ≠ []) (hr : r ∈ paxFields e) :
    ascii '=' ∉ encode r.1 ∧ r.2 ≠ [] := by
  have hkeys : ∀ k ∈ [keyPath, keyLinkpath, keySize, keyUid, keyGid, keyMtime, keyUname, keyGname],
      ascii '=' ∉ encode k := by decide
  have hlong : ∀ {s : Text} {n : Nat}, n < (encode s).length → s ≠ [] := by
    rintro s n h rfl
    exact absurd h (Nat.not_lt_zero n)
  simp only [paxFields, mem_append] at hr
  rcases hr with ((((((hr | hr) | hr) | hr) | hr) | hr) | hr) | hr <;>
    obtain ⟨hc, rfl⟩ := mem_setting hr
  · exact ⟨hkeys keyPath (by simp), storedPath_ne_nil hpath⟩
  · exact ⟨hkeys keyLinkpath (by simp), hlong hc⟩
  · exact ⟨hkeys keySize (by simp), decimal_ne_nil⟩
  · exact ⟨hkeys keyUid (by simp), decimal_ne_nil⟩
  · exact ⟨hkeys keyGid (by simp), decimal_ne_nil⟩
  · exact ⟨hkeys keyMtime (by simp), decimalInt_ne_nil _⟩
  · exact ⟨hkeys keyUname (by simp), hlong hc⟩
  · exact ⟨hkeys keyGname (by simp), hlong hc⟩

theorem length_le_paxPayload (hr : r ∈ paxFields e) :
    (paxRecord r.1 r.2).length ≤ (paxPayload e).length := by
  obtain ⟨l1, l2, hl⟩ := append_of_mem hr
  rw [paxPayload, hl, flatMap_append, flatMap_cons]
  simp only [length_append]
  omega

def Pax.store (p : Pax) (r : Text × Text) : Except Error Pax := p.set (encode r.1) (encode r.2)

theorem foldlM_setting {l : List (Text × Text)} {c : Prop} [Decidable c] {key value : Text}
    {p0 p q r : Pax} (hl : l.foldlM Pax.store p0 = .ok p)
    (hset : c → p.set (encode key) (encode value) = .ok q) (hr : (if c then q else p) = r) :
    (l ++ if c then [(key, value)] else []).foldlM Pax.store p0 = .ok r := by
  rw [foldlM_append, hl, ← hr]
  show (if c then [(key, value)] else []).foldlM Pax.store p = _
  split
  · next hc =>
    rw [foldlM_cons, Pax.store, hset hc]
    rfl
  · rfl

theorem foldlM_paxFields (hw : Writable e) : (paxFields e).foldlM Pax.store {} = .ok (ownPax e) := by
  obtain ⟨p, hp⟩ : ∃ p, p = ownPax e := ⟨_, rfl⟩
  have hpath : (if splitUstar (storedPath e) = none then [(keyPath, storedPath e)] else []).foldlM
      Pax.store {} = .ok { path := p.path } := by
    refine foldlM_setting (l := []) rfl (fun _ => set_path _) ?_
    simp only [splitUstar_eq_none, hp, ownPax, ite_not]
    split <;> rfl
  refine foldlM_setting (foldlM_setting (foldlM_setting (foldlM_setting (foldlM_setting (foldlM_setting
    (foldlM_setting hpath (fun _ => set_linkpath _)
      (r := { path := p.path, linkpath := p.linkpath }) ?_)
    (fun _ => set_size (storedSize_lt hw.size))
      (r := { path := p.path, linkpath := p.linkpath, size := p.size }) ?_)
    (fun _ => set_uid hw.uid)
      (r := { path := p.path, linkpath := p.linkpath, size := p.size, uid := p.uid }) ?_)
    (fun _ => set_gid hw.gid)
      (r := { path := p.path, linkpath := p.linkpath, size := p.size, uid := p.uid, gid := p.gid }) ?_)
    (fun _ => set_mtime hw.mtime.1 hw.mtime.2)
      (r := { path := p.path, linkpath := p.linkpath, size := p.size, uid := p.uid, gid := p.gid, mtime := p.mtime }) ?_)
    (fun _ => set_uname _)
      (r := { path := p.path, linkpath := p.linkpath, size := p.size, uid := p.uid, gid := p.gid, mtime := p.mtime, uname := p.uname }) ?_)
    (fun _ => set_gname _) ?_
  all_goals
    simp only [hp, ownPax]
    split <;> rfl

/-- The extended header is read as the settings it was written from. -/
theorem parsePax_payload (hw : Writable e) (hsize : metaSize e ≤ maxMeta) :
    parsePax (paxPayload e) = .ok (ownPax e) := by
  have := length_paxPayload (e := e)
  have : maxMeta = 2 ^ 20 := rfl
  rw [← foldlM_paxFields hw]
  refine parsePaxFrom_records (paxFields e) (fun r hr => ?_) {} _ le_rfl
  obtain ⟨hkey, hval⟩ := paxFields_wellFormed hw.path hr
  have := length_le_paxPayload hr
  exact ⟨hkey, hval, by omega⟩

theorem fromFlag_flag (hk : ∀ f, e.kind ≠ .other f) : Kind.fromFlag e.kind.flag = e.kind := by
  cases h : e.kind with
  | other f => exact absurd h (hk f)
  | _ => decide

theorem mode_and (m : Nat) : m &&& 0o7777 = m % 2 ^ 12 := Nat.and_two_pow_sub_one_eq_mod m 12

/-- The name in a header whose fields are the given ones. -/
theorem read_name {h : List UInt8} (hw : Writable e) (hfit : FitsHeader (storedPath e))
    (hname : field h 0 100 = putStr 100 (truncateStr 100 (headerName e).1))
    (hpre : field h 345 500 = putStr 155 (truncateStr 155 (headerName e).2)) :
    (if h.getD 345 0 ≠ 0 then cstr (field h 345 500) ++ '/' :: cstr (field h 0 100)
      else cstr (field h 0 100)) = storedPath e := by
  have hnul := storedPath_nul hw.pathNul
  rw [getD_field (z := 500) (by decide), hname, hpre]
  cases hsplit : splitUstar (storedPath e) with
  | none => exact absurd hfit (splitUstar_eq_none.mp hsplit)
  | some np =>
    obtain ⟨name, pre⟩ := np
    have hnp : headerName e = (name, pre) := by rw [headerName, hsplit]
    rw [hnp]
    rcases splitUstar_some hsplit with ⟨rfl, rfl, hlen⟩ | ⟨hpath, hne, h1, h2, -⟩
    · have hzero : ¬ (putStr 155 (truncateStr 155 [])).headD 0 ≠ 0 := by decide
      rw [if_neg hzero, truncateStr_eq hlen, cstr_putStr hlen hnul]
    rw [hpath] at hnul
    have hpnul : '\x00' ∉ pre := fun h => hnul (mem_append_left _ h)
    have hnnul : '\x00' ∉ name := fun h => hnul (mem_append_right _ (mem_cons_of_mem _ h))
    obtain ⟨x, xs, hx⟩ := exists_cons_of_ne_nil (fun h => hne (encode_eq_nil.mp h))
    have hx0 : x ≠ 0 := by
      rintro rfl
      exact zero_not_mem_encode hpnul (by rw [hx]; exact mem_cons_self)
    have hfirst : (putStr 155 pre).headD 0 ≠ 0 := by
      rw [putStr, hx, take_succ_cons]
      exact hx0
    rw [truncateStr_eq h1, truncateStr_eq h2, cstr_putStr h1 hpnul, cstr_putStr h2 hnnul,
      if_pos hfirst, hpath]

theorem read_text {n : Nat} (hs : '\x00' ∉ s) :
    (if n < (encode s).length then some s else none).getD (cstr (putStr n (truncateStr n s))) = s := by
  split
  · rfl
  · next h => rw [Option.getD_none, truncateStr_eq (by omega), cstr_putStr (by omega) hs]

theorem read_id {v : Nat} (hv : v < 2 ^ 32) :
    given (if 0o7777777 < v then some v else none) (parseU32 (putNum 8 v)) = .ok v := by
  split
  · rfl
  · exact parseU32_putNum hv

theorem read_mtime {t : Int} : given (if t < 0 ∨ 0o77777777777 < t then some t else none)
    (parseSigned (if 0 ≤ t then putNum 12 t.toNat else putZero 12)) = .ok t := by
  by_cases h : t < 0 ∨ 0o77777777777 < t
  · rw [if_pos h]
    rfl
  · rw [if_neg h, if_pos (by omega), parseSigned_putNum (by omega), Int.toNat_of_nonneg (by omega)]
    rfl

theorem read_device {v : Nat} (hv : v < 2 ^ 32) : parseDevice true
    (if e.kind = .charDevice ∨ e.kind = .blockDevice then putNum 8 v else putZero 8)
      = .ok (if IsDevice e then v else 0) := by
  rw [parseDevice, if_pos rfl]
  by_cases hd : e.kind = .charDevice ∨ e.kind = .blockDevice
  · rw [if_pos hd, if_pos (show IsDevice e from hd), parseU32_putNum hv]
  · rw [if_neg hd, if_neg (show ¬ IsDevice e from hd), putZero_eq (by decide), parseU32_putNum (by decide)]

/-- A header and the settings of its extended header give the entry as it is stored. -/
theorem entryOf_header (hw : Writable e) :
    entryOf (headerBlock e (headerName e).1 (headerName e).2 e.kind.flag (storedSize e))
      e.kind.flag (storedSize e) (ownPax e) {} none none = .ok (stored e) := by
  obtain ⟨h, hh, hfield⟩ : ∃ h, h = headerBlock e (headerName e).1 (headerName e).2 e.kind.flag (storedSize e) ∧
      ∀ i ≠ 6, ∀ f, (headerFields e (headerName e).1 (headerName e).2 e.kind.flag (storedSize e) [])[i]? = some f →
        field h (headerLengths.take i).sum (headerLengths.take (i + 1)).sum = f :=
    ⟨_, rfl, fun _ hi _ hf => headerBlock_field hi hf rfl rfl⟩
  have hname : field h 0 100 = putStr 100 (truncateStr 100 (headerName e).1) :=
    hfield 0 (by decide) _ rfl
  have hmode : field h 100 108 = putNum 8 (e.mode &&& 0o7777) := hfield 1 (by decide) _ rfl
  have huid : field h 108 116 = putNum 8 e.uid := hfield 2 (by decide) _ rfl
  have hgid : field h 116 124 = putNum 8 e.gid := hfield 3 (by decide) _ rfl
  have hmtime : field h 136 148 = if 0 ≤ e.mtime then putNum 12 e.mtime.toNat else putZero 12 :=
    hfield 5 (by decide) _ rfl
  have hlink : field h 157 257 = putStr 100 (truncateStr 100 e.link) := hfield 8 (by decide) _ rfl
  have hustar : field h 257 263 = encode ['u', 's', 't', 'a', 'r'] ++ [0] :=
    hfield 9 (by decide) _ rfl
  have huname : field h 265 297 = putStr 32 (truncateStr 32 e.uname) := hfield 11 (by decide) _ rfl
  have hgname : field h 297 329 = putStr 32 (truncateStr 32 e.gname) := hfield 12 (by decide) _ rfl
  have hmajor : field h 329 337 = if e.kind = .charDevice ∨ e.kind = .blockDevice then putNum 8 e.devMajor
      else putZero 8 :=
    hfield 13 (by decide) _ rfl
  have hminor : field h 337 345 = if e.kind = .charDevice ∨ e.kind = .blockDevice then putNum 8 e.devMinor
      else putZero 8 :=
    hfield 14 (by decide) _ rfl
  have hpre : field h 345 500 = putStr 155 (truncateStr 155 (headerName e).2) :=
    hfield 15 (by decide) _ rfl
  rw [← hh, entryOf]
  have hparse : parseNum (putNum 8 (e.mode % 2 ^ 12)) = .ok (e.mode % 2 ^ 12) :=
    parseNum_putNum (by decide) (by omega) (by omega)
  simp only [hustar, hmode, huid, hgid, hmtime, hmajor, hminor, hlink, huname, hgname, decide_true,
    true_and, Bool.true_or, if_true, mode_and, hparse, Option.or_none, ownPax,
    read_id hw.uid, read_id hw.gid, read_mtime, read_device hw.devMajor, read_device hw.devMinor,
    read_text hw.linkNul, read_text hw.unameNul, read_text hw.gnameNul]
  obtain ⟨n, hn⟩ : ∃ n, (if h.getD 345 0 ≠ 0 then cstr (field h 345 500) ++ '/' :: cstr (field h 0 100)
      else cstr (field h 0 100)) = n := ⟨_, rfl⟩
  have hpath : (if FitsHeader (storedPath e) then none else some (storedPath e)).getD n = storedPath e := by
    split
    · next hfit => rw [← hn, Option.getD_none, read_name hw hfit hname hpre]
    · rfl
  have hkind : (if Kind.fromFlag e.kind.flag = .file ∧ e.kind.flag ≠ ascii '7' ∧ n.getLast? = some '/' ∧
      (if FitsHeader (storedPath e) then none else some (storedPath e)) = none then .directory
      else Kind.fromFlag e.kind.flag) = e.kind := by
    rw [fromFlag_flag hw.kind, if_neg]
    rintro ⟨hfile, -, hlast, hnone⟩
    have hfit : FitsHeader (storedPath e) := by
      by_contra hno
      rw [if_neg hno] at hnone
      cases hnone
    rw [← hn, read_name hw hfit hname hpre, storedPath, if_neg fun hd => by rw [hfile] at hd; cases hd.1]
      at hlast
    exact hw.file hfile hlast
  have hsize : (if 0o77777777777 < storedSize e then some (storedSize e) else none).getD (storedSize e)
      = storedSize e := by
    split <;> rfl
  rw [hn]
  show Except.ok _ = Except.ok (stored e)
  simp only [hpath, hkind, hsize, Nat.mod_mod]
  rfl

end Fastros.Archive.Tar
