import Fastros.Archive.Stream
import Fastros.Lib.Texts
import Fastros.Lib.Utf8

/-!
# The tar format

`lib/archive/src/tar.rs`: reading and writing archives with ustar headers, pax
extended headers, GNU long names and base-256 numbers. Texts are lists of characters;
headers are blocks of 512 bytes. The counters of the reader and the writer have 64
bits and stop on overflow.
-/

namespace Fastros.Archive.Tar

open Lib (Checked.add)
open Lib.Numeral (digits push)
open Lib.Texts (decimal decimalInt)
open Lib.Utf8 (encode)
open List (replicate)

abbrev Text := List Char

def block : Nat := 512
/-- GNU tar's default record size. -/
def record : Nat := 20 * block
/-- The largest extended header that is accepted. -/
def maxMeta : Nat := 2 ^ 20

def ascii (c : Char) : UInt8 := UInt8.ofNat c.toNat

inductive Kind where
  | file
  | hardLink
  | symlink
  | charDevice
  | blockDevice
  | directory
  | fifo
  | other (flag : UInt8)
  deriving DecidableEq

def Kind.fromFlag (f : UInt8) : Kind :=
  if f = ascii '0' ∨ f = 0 ∨ f = ascii '7' then .file
  else if f = ascii '1' then .hardLink
  else if f = ascii '2' then .symlink
  else if f = ascii '3' then .charDevice
  else if f = ascii '4' then .blockDevice
  else if f = ascii '5' ∨ f = ascii 'D' then .directory
  else if f = ascii '6' then .fifo
  else .other f

def Kind.flag : Kind → UInt8
  | .file => ascii '0'
  | .hardLink => ascii '1'
  | .symlink => ascii '2'
  | .charDevice => ascii '3'
  | .blockDevice => ascii '4'
  | .directory => ascii '5'
  | .fifo => ascii '6'
  | .other f => f

/-- One archive member. The numbers are unsigned, of 32 bits and for `size` of 64; `mtime`
is signed, of 64 bits. -/
structure Entry where
  path : Text
  link : Text
  kind : Kind
  mode : Nat
  uid : Nat
  gid : Nat
  uname : Text
  gname : Text
  size : Nat
  mtime : Int
  devMajor : Nat
  devMinor : Nat
  deriving DecidableEq

def Entry.new (path : Text) (kind : Kind) : Entry where
  path := path
  link := []
  kind := kind
  mode := if kind = .directory then 0o755 else 0o644
  uid := 0
  gid := 0
  uname := []
  gname := []
  size := 0
  mtime := 0
  devMajor := 0
  devMinor := 0

def cstr (f : List UInt8) : Text := Lib.Utf8.decode (f.takeWhile fun b => b ≠ 0)

def isBlank (b : UInt8) : Bool := b = ascii ' ' ∨ b = 0

def isOctal (b : UInt8) : Bool := 0x30 ≤ b.toNat ∧ b.toNat ≤ 0x37

def parseBase256 : List UInt8 → Nat → Except Error Nat
  | [], v => .ok v
  | b :: bs, v =>
    if v / 2 ^ 56 ≠ 0 then .error (.tooLarge "numeric header field")
    else parseBase256 bs (v * 256 + b.toNat)

/-- An octal field, padded with blanks, or a GNU base-256 one. -/
def parseNum (f : List UInt8) : Except Error Nat :=
  let first := (f.headD 0).toNat
  if 0x80 ≤ first then
    if first = 0xFF then .error (.corrupt "negative number in header")
    else parseBase256 f.tail (first % 0x80)
  else
    let f := f.dropWhile isBlank
    match (f.takeWhile isOctal).foldlM (fun v b => push 64 8 v (b.toNat - 0x30)) 0 with
    | none => .error (.tooLarge "numeric header field")
    | some v =>
      if (f.dropWhile isOctal).all isBlank then .ok v
      else .error (.corrupt "bad numeric header field")

/-- A signed field: octal, or base-256 in two's complement. -/
def parseSigned (f : List UInt8) : Except Error Int :=
  if f.headD 0 = 0xFF then
    let v : Int := f.foldl (fun v b => v * 256 + b.toNat) (-1)
    if -2 ^ 63 ≤ v ∧ v < 2 ^ 63 then .ok v else .error (.tooLarge "time field")
  else do
    let v ← parseNum f
    if v < 2 ^ 63 then .ok v else .error (.tooLarge "time field")

def parseU32 (f : List UInt8) : Except Error Nat := do
  let v ← parseNum f
  if v < 2 ^ 32 then .ok v else .error (.unsupported "id or device number above 2^32")

/-- The digits of a number as bytes. -/
def numeral (b v : Nat) : List UInt8 := (digits b v).map fun d => UInt8.ofNat (0x30 + d)

/-- A number as octal digits that fill `n` bytes. -/
def padded (n v : Nat) : List UInt8 :=
  replicate (n - (numeral 8 v).length) (ascii '0') ++ numeral 8 v

/-- Octal digits that fill a field of `n` bytes but for a trailing NUL, if they fit. -/
def putOctal (n v : Nat) : Option (List UInt8) :=
  let s := padded (n - 1) v
  if n - 1 < s.length then none else some (s ++ [0])

def putBase256 (n v : Nat) : List UInt8 :=
  let k := min 8 (n - 1)
  let bytes := (List.range k).reverse.map fun i => UInt8.ofNat (v / 256 ^ i % 256)
  (replicate (n - k) 0 ++ bytes).modifyHead fun b => b ||| 0x80

def putNum (n v : Nat) : List UInt8 := (putOctal n v).getD (putBase256 n v)

def putZero (n : Nat) : List UInt8 := (putOctal n 0).getD (replicate n 0)

def putStr (n : Nat) (s : Text) : List UInt8 :=
  let b := (encode s).take n
  b ++ replicate (n - b.length) 0

/-- The sums of the bytes of a header, unsigned and signed, with blanks in place of the
checksum field. -/
def checksums (h : List UInt8) : Nat × Int :=
  let bytes := h.take 148 ++ replicate 8 (ascii ' ') ++ h.drop 156
  ((bytes.map fun b => b.toNat).sum,
    (bytes.map fun b => if b.toNat < 128 then (b.toNat : Int) else b.toNat - 256).sum)

/-- The bytes of a header from `lo` up to `hi`. -/
def field (h : List UInt8) (lo hi : Nat) : List UInt8 := (h.drop lo).take (hi - lo)

def verifyChecksum (h : List UInt8) : Except Error Unit :=
  match parseNum (field h 148 156) with
  | .error _ => .error (.corrupt "header checksum field")
  | .ok stored =>
    let (u, s) := checksums h
    if stored = u ∨ (if stored < 2 ^ 63 then (stored : Int) else stored - 2 ^ 64) = s then .ok ()
    else .error (.corrupt "header checksum mismatch")

def padding (size : Nat) : Nat := (block - size % block) % block

structure Pax where
  path : Option Text := none
  linkpath : Option Text := none
  size : Option Nat := none
  uid : Option Nat := none
  gid : Option Nat := none
  uname : Option Text := none
  gname : Option Text := none
  mtime : Option Int := none

/-- What the second has goes before what the first has. -/
def Pax.merge (p o : Pax) : Pax where
  path := o.path.or p.path
  linkpath := o.linkpath.or p.linkpath
  size := o.size.or p.size
  uid := o.uid.or p.uid
  gid := o.gid.or p.gid
  uname := o.uname.or p.uname
  gname := o.gname.or p.gname
  mtime := o.mtime.or p.mtime

def isDigit (b : UInt8) : Bool := 0x30 ≤ b.toNat ∧ b.toNat ≤ 0x39

def parseDecimal (s : List UInt8) : Except Error Nat :=
  if s = [] ∨ 20 < s.length ∨ !s.all isDigit then .error (.corrupt "pax number")
  else
    match s.foldlM (fun v b => push 64 10 v (b.toNat - 0x30)) 0 with
    | none => .error (.corrupt "pax number")
    | some v => .ok v

/-- Seconds with an optional fraction, rounded down. -/
def parsePaxTime (s : List UInt8) : Except Error Int :=
  let neg : Bool := s.head? = some (ascii '-')
  let s := if neg then s.tail else s
  let (int, frac) := match s.findIdx? fun b => b = ascii '.' with
    | some i => (s.take i, s.drop (i + 1))
    | none => (s, [])
  if !frac.all isDigit then .error (.corrupt "pax time")
  else do
    let v ← parseDecimal int
    if 2 ^ 63 ≤ v then .error (.corrupt "pax time")
    else
      let part : Int := if frac.any fun d => d ≠ ascii '0' then 1 else 0
      .ok (if neg then -(v : Int) - part else v)

def keyPath : Text := ['p', 'a', 't', 'h']
def keyLinkpath : Text := ['l', 'i', 'n', 'k', 'p', 'a', 't', 'h']
def keySize : Text := ['s', 'i', 'z', 'e']
def keyUid : Text := ['u', 'i', 'd']
def keyGid : Text := ['g', 'i', 'd']
def keyUname : Text := ['u', 'n', 'a', 'm', 'e']
def keyGname : Text := ['g', 'n', 'a', 'm', 'e']
def keyMtime : Text := ['m', 't', 'i', 'm', 'e']
def sparsePrefix : Text := ['G', 'N', 'U', '.', 's', 'p', 'a', 'r', 's', 'e']

def parseId (val : List UInt8) (what : String) : Except Error Nat := do
  let v ← parseDecimal val
  if v < 2 ^ 32 then .ok v else .error (.unsupported what)

def Pax.set (p : Pax) (key val : List UInt8) : Except Error Pax :=
  if key = encode keyPath then .ok { p with path := some (Lib.Utf8.decode val) }
  else if key = encode keyLinkpath then .ok { p with linkpath := some (Lib.Utf8.decode val) }
  else if key = encode keySize then do
    let v ← parseDecimal val
    .ok { p with size := some v }
  else if key = encode keyUid then do
    let v ← parseId val "uid above 2^32"
    .ok { p with uid := some v }
  else if key = encode keyGid then do
    let v ← parseId val "gid above 2^32"
    .ok { p with gid := some v }
  else if key = encode keyUname then .ok { p with uname := some (Lib.Utf8.decode val) }
  else if key = encode keyGname then .ok { p with gname := some (Lib.Utf8.decode val) }
  else if key = encode keyMtime then do
    let v ← parsePaxTime val
    .ok { p with mtime := some v }
  else if (encode sparsePrefix).isPrefixOf key then .error (.unsupported "sparse files")
  else .ok p

/-- Each record has at least two bytes, so there are no more rounds than bytes. -/
def parsePaxFrom : (rounds : Nat) → Pax → List UInt8 → Except Error Pax
  | 0, p, _ => .ok p
  | rounds + 1, p, rest =>
    if rest.all fun b => b = 0 then .ok p
    else
      match rest.findIdx? fun b => b = ascii ' ' with
      | none => .error (.corrupt "pax record")
      | some sp => do
        let len ← parseDecimal (rest.take sp)
        if len ≤ sp + 1 ∨ rest.length < len ∨ rest.getD (len - 1) 0 ≠ ascii '\n' then
          .error (.corrupt "pax record length")
        else
          let body := (rest.take (len - 1)).drop (sp + 1)
          match body.findIdx? fun b => b = ascii '=' with
          | none => .error (.corrupt "pax record")
          | some eq =>
            let val := body.drop (eq + 1)
            if val = [] then parsePaxFrom rounds p (rest.drop len)
            else do
              let p ← p.set (body.take eq) val
              parsePaxFrom rounds p (rest.drop len)

def parsePax (data : List UInt8) : Except Error Pax := parsePaxFrom data.length {} data

/-- The loop of `pax_record`: the length of a record counts its own digits. -/
def settle (base : Nat) : (rounds len : Nat) → Nat
  | 0, len => len
  | rounds + 1, len =>
    let next := base + (numeral 10 len).length
    if len = next then len else settle base rounds next

def paxRecord (key value : Text) : List UInt8 :=
  let base := (encode key).length + (encode value).length + 3
  let len := settle base base (base + 1)
  numeral 10 len ++ ascii ' ' :: encode key ++ ascii '=' :: encode value ++ [ascii '\n']

structure TarReader where
  inner : Source
  remaining : Nat
  pad : Nat
  globals : Pax
  done : Bool
  offset : Nat

abbrev ReadM := EStateM Stop TarReader

namespace TarReader

def new (inner : Source) : TarReader where
  inner := inner
  remaining := 0
  pad := 0
  globals := {}
  done := false
  offset := 0

def scratch : Nat := 8192

/-- An error ends the call. -/
def check {α : Type} : Except Error α → ReadM α
  | .ok a => pure a
  | .error e => throw (.error e)

def advance (n : Nat) : ReadM Unit := fun r =>
  match Checked.add 64 r.offset n with
  | none => .error .panic r
  | some offset => .ok () { r with offset := offset }

/-- Every read that gives nothing ends the loop, so it is no longer than the data. -/
def discardFrom : (rounds n : Nat) → ReadM Unit
  | 0, _ => throw .endless
  | rounds + 1, n => fun r =>
    if n = 0 then .ok () r
    else
      let (got, inner) := r.inner.read (min n scratch)
      if got = [] then .error (.error .unexpectedEof) { r with inner := inner }
      else (do
        advance got.length
        discardFrom rounds (n - got.length)) { r with inner := inner }

def discard (n : Nat) : ReadM Unit := fun r => discardFrom (r.inner.data.length + 2) n r

/-- Skip what is left of the current member's data. -/
def skipData : ReadM Unit := fun r =>
  match Checked.add 64 r.remaining r.pad with
  | none => .error .panic r
  | some n => discard n { r with remaining := 0, pad := 0 }

def readExact (k : Nat) : ReadM (List UInt8) := fun r =>
  let (got, inner) := r.inner.fill k k
  if got.length = k then .ok got { r with inner := inner }
  else .error (.error .unexpectedEof) { r with inner := inner }

/-- Like `readExact`, but the end of the data before the first byte is no error. -/
def readFull (k : Nat) : ReadM (Option (List UInt8)) := fun r =>
  let (got, inner) := r.inner.fill k k
  if got.length = k then .ok (some got) { r with inner := inner }
  else if got = [] then .ok none { r with inner := inner }
  else .error (.error .unexpectedEof) { r with inner := inner }

def readMeta (size : Nat) : ReadM (List UInt8) := do
  if maxMeta < size then throw (.error (.tooLarge "extended header"))
  else
    let v ← readExact size
    advance size
    discard (padding size)
    pure v

def atEnd : ReadM (Option Entry) := fun r => .ok none { r with done := true }

/-- The second zero block is optional. -/
def endOfArchive : ReadM (Option Entry) := fun r =>
  let (got, inner) := r.inner.fill block block
  if got.length = block then (do
    advance block
    atEnd) { r with inner := inner }
  else atEnd { r with inner := inner }

/-- What a setting says, or else what a field says. -/
def given {α : Type} (setting : Option α) (read : Except Error α) : Except Error α :=
  match setting with
  | some a => .ok a
  | none => read

/-- Only some formats have device numbers. -/
def parseDevice (present : Bool) (f : List UInt8) : Except Error Nat :=
  if present then parseU32 f else .ok 0

/-- What the header says about the member, with what the extended headers say about it. -/
def entryOf (h : List UInt8) (flag : UInt8) (size : Nat) (own globals : Pax)
    (longName longLink : Option Text) : Except Error Entry := do
  let ustar : Bool := field h 257 263 = encode ['u', 's', 't', 'a', 'r'] ++ [0]
  let gnu : Bool := field h 257 265 = encode ['u', 's', 't', 'a', 'r', ' ', ' '] ++ [0]
  let name := if ustar ∧ h.getD 345 0 ≠ 0 then cstr (field h 345 500) ++ '/' :: cstr (field h 0 100)
    else cstr (field h 0 100)
  let kind := if Kind.fromFlag flag = .file ∧ flag ≠ ascii '7' ∧ name.getLast? = some '/' ∧
      longName = none ∧ own.path = none then .directory else Kind.fromFlag flag
  let mode ← parseNum (field h 100 108)
  let uid ← given (own.uid.or globals.uid) (parseU32 (field h 108 116))
  let gid ← given (own.gid.or globals.gid) (parseU32 (field h 116 124))
  let mtime ← given (own.mtime.or globals.mtime) (parseSigned (field h 136 148))
  let devMajor ← parseDevice (ustar || gnu) (field h 329 337)
  let devMinor ← parseDevice (ustar || gnu) (field h 337 345)
  pure {
    path := (own.path.or (longName.or globals.path)).getD name
    link := (own.linkpath.or (longLink.or globals.linkpath)).getD (cstr (field h 157 257))
    kind := kind
    mode := mode &&& 0o7777
    uid := uid
    gid := gid
    uname := (own.uname.or globals.uname).getD (if ustar || gnu then cstr (field h 265 297) else [])
    gname := (own.gname.or globals.gname).getD (if ustar || gnu then cstr (field h 297 329) else [])
    size := (own.size.or globals.size).getD size
    mtime := mtime
    devMajor := devMajor
    devMinor := devMinor }

/-- What follows a header: an extended header is noted and the loop goes on with `next`, a
volume label is skipped, and any other header is a member's. -/
def handle (next : Pax → Option Text → Option Text → ReadM (Option Entry)) (own : Pax)
    (longName longLink : Option Text) (h : List UInt8) (flag : UInt8) (size : Nat) :
    ReadM (Option Entry) :=
  if flag = ascii 'x' then do
    let d ← readMeta size
    let p ← check (parsePax d)
    next (own.merge p) longName longLink
  else if flag = ascii 'g' then do
    let d ← readMeta size
    let p ← check (parsePax d)
    modify fun r => { r with globals := r.globals.merge p }
    next own longName longLink
  else if flag = ascii 'L' then do
    let d ← readMeta size
    next own (some (cstr d)) longLink
  else if flag = ascii 'K' then do
    let d ← readMeta size
    next own longName (some (cstr d))
  else if flag = ascii 'V' then
    match Checked.add 64 size (padding size) with
    | none => throw .panic
    | some n => do
      discard n
      next own longName longLink
  else do
    let r ← get
    let e ← check (entryOf h flag size own r.globals longName longLink)
    if e.path = [] then throw (.error (.corrupt "member with an empty name"))
    else
      modify fun r => { r with remaining := e.size, pad := padding e.size }
      pure (some e)

/-- The loop of `next_entry`; each round takes a block. -/
def nextFrom : (rounds : Nat) → Pax → Option Text → Option Text → ReadM (Option Entry)
  | 0, _, _, _ => throw .endless
  | rounds + 1, own, longName, longLink => do
    match ← readFull block with
    | none => atEnd
    | some h =>
      advance block
      if h.all fun b => b = 0 then endOfArchive
      else
        check (verifyChecksum h)
        let size ← check (parseNum (field h 124 136))
        handle (nextFrom rounds) own longName longLink h (h.getD 156 0) size

/-- The next member, or `none` at the end of the archive. -/
def nextEntry : ReadM (Option Entry) := fun r =>
  if r.done then .ok none r
  else (do
    skipData
    fun r => nextFrom (r.inner.data.length + 1) {} none none r) r

/-- Read up to `k` bytes of the current member's data; none at its end. -/
def readData (k : Nat) : ReadM (List UInt8) := fun r =>
  if r.remaining = 0 ∨ k = 0 then .ok [] r
  else
    let (got, inner) := r.inner.read (min k r.remaining)
    if got = [] then .error (.error .unexpectedEof) { r with inner := inner }
    else (do
      advance got.length
      pure got) { r with inner := inner, remaining := r.remaining - got.length }

end TarReader

structure TarWriter where
  inner : List UInt8
  remaining : Nat
  pad : Nat
  written : Nat

abbrev WriteM := EStateM Stop TarWriter

/-- Split a path that is too long for the name field at its first slash that leaves enough
to it. The bytes of a slash are the slash, so the characters are gone through with the
offsets of their bytes. -/
def splitFrom (len : Nat) : (i : Nat) → (before : Text) → Text → Option (Text × Text)
  | _, _, [] => none
  | i, before, c :: cs =>
    if c = '/' ∧ 0 < i ∧ len - i - 1 ≤ 100 ∧ 0 < len - i - 1 then
      if i ≤ 155 then some (cs, before.reverse) else none
    else splitFrom len (i + c.utf8Size) (c :: before) cs

/-- The name and the prefix of a path, if it fits these fields. -/
def splitUstar (path : Text) : Option (Text × Text) :=
  if (encode path).length ≤ 100 then some (path, [])
  else splitFrom (encode path).length 0 [] path

/-- The longest front of the text that has at most `max` bytes. -/
def truncateStr : (max : Nat) → Text → Text
  | _, [] => []
  | max, c :: cs => if c.utf8Size ≤ max then c :: truncateStr (max - c.utf8Size) cs else []

/-- The header's fields in order; `sum` is the checksum's. -/
def headerFields (e : Entry) (path pre : Text) (flag : UInt8) (size : Nat) (sum : List UInt8) :
    List (List UInt8) :=
  [putStr 100 (truncateStr 100 path),
   putNum 8 (e.mode &&& 0o7777),
   putNum 8 e.uid,
   putNum 8 e.gid,
   putNum 12 size,
   if 0 ≤ e.mtime then putNum 12 e.mtime.toNat else putZero 12,
   sum,
   [flag],
   putStr 100 (truncateStr 100 e.link),
   encode ['u', 's', 't', 'a', 'r'] ++ [0],
   encode ['0', '0'],
   putStr 32 (truncateStr 32 e.uname),
   putStr 32 (truncateStr 32 e.gname),
   if e.kind = .charDevice ∨ e.kind = .blockDevice then putNum 8 e.devMajor else putZero 8,
   if e.kind = .charDevice ∨ e.kind = .blockDevice then putNum 8 e.devMinor else putZero 8,
   putStr 155 (truncateStr 155 pre),
   replicate 12 0]

/-- The checksum field: six octal digits, NUL and a blank. -/
def sumField (sum : Nat) : List UInt8 := padded 6 sum ++ [0, ascii ' ']

def headerBlock (e : Entry) (path pre : Text) (flag : UInt8) (size : Nat) : List UInt8 :=
  let (sum, _) := checksums (headerFields e path pre flag size (replicate 8 0)).flatten
  (headerFields e path pre flag size (sumField sum)).flatten

/-- A directory's path ends in a slash. -/
def storedPath (e : Entry) : Text :=
  if e.kind = .directory ∧ e.path.getLast? ≠ some '/' then e.path ++ ['/'] else e.path

/-- What the name and prefix fields get. -/
def headerName (e : Entry) : Text × Text :=
  match splitUstar (storedPath e) with
  | some np => np
  | none => (truncateStr 100 (storedPath e), [])

/-- Only regular files have data. -/
def storedSize (e : Entry) : Nat := if e.kind = .file then e.size else 0

/-- The records of the extended header: what does not fit the fields. -/
def paxFields (e : Entry) : List (Text × Text) :=
  (if splitUstar (storedPath e) = none then [(keyPath, storedPath e)] else []) ++
  (if 100 < (encode e.link).length then [(keyLinkpath, e.link)] else []) ++
  (if 0o77777777777 < storedSize e then [(keySize, decimal (storedSize e))] else []) ++
  (if 0o7777777 < e.uid then [(keyUid, decimal e.uid)] else []) ++
  (if 0o7777777 < e.gid then [(keyGid, decimal e.gid)] else []) ++
  (if e.mtime < 0 ∨ 0o77777777777 < e.mtime then [(keyMtime, decimalInt e.mtime)] else []) ++
  (if 32 < (encode e.uname).length then [(keyUname, e.uname)] else []) ++
  (if 32 < (encode e.gname).length then [(keyGname, e.gname)] else [])

def paxPayload (e : Entry) : List UInt8 := (paxFields e).flatMap fun r => paxRecord r.1 r.2

/-- The name of an extended header: the last part of the member's path. -/
def paxName (e : Entry) : Text :=
  let trimmed := ((storedPath e).reverse.dropWhile fun c => c = '/').reverse
  let base := (trimmed.reverse.takeWhile fun c => c ≠ '/').reverse
  ['P', 'a', 'x', 'H', 'e', 'a', 'd', 'e', 'r', 's', '/'] ++ truncateStr 88 base

def paxEntry (e : Entry) : Entry :=
  { Entry.new (paxName e) (.other (ascii 'x')) with
    mtime := max e.mtime 0
    uid := e.uid
    gid := e.gid }

namespace TarWriter

def new : TarWriter where
  inner := []
  remaining := 0
  pad := 0
  written := 0

def emit (b : List UInt8) : WriteM Unit := fun w =>
  match Checked.add 64 w.written b.length with
  | none => .error .panic { w with inner := w.inner ++ b }
  | some written => .ok () { w with inner := w.inner ++ b, written := written }

def appendHeader (e : Entry) : WriteM Unit := do
  let w ← get
  if w.remaining ≠ 0 ∨ w.pad ≠ 0 then throw (.error .length)
  else
    let pax := paxPayload e
    if pax ≠ [] then
      emit (headerBlock (paxEntry e) (paxName e) [] (ascii 'x') pax.length)
      emit pax
      emit (replicate (padding pax.length) 0)
    emit (headerBlock e (headerName e).1 (headerName e).2 e.kind.flag (storedSize e))
    modify fun w => { w with remaining := storedSize e, pad := padding (storedSize e) }

def writeData (data : List UInt8) : WriteM Unit := do
  let w ← get
  if w.remaining < data.length then throw (.error .length)
  else
    emit data
    modify fun w => { w with remaining := w.remaining - data.length }

/-- Pad the member to a block; all its data must be written. -/
def finishEntry : WriteM Unit := do
  let w ← get
  if w.remaining ≠ 0 then throw (.error .length)
  else
    emit (replicate w.pad 0)
    modify fun w => { w with pad := 0 }

/-- Zero blocks up to a full record. -/
def fillRecord : (rounds : Nat) → WriteM Unit
  | 0 => throw .endless
  | rounds + 1 => do
    let w ← get
    if w.written % record = 0 then pure ()
    else
      emit (replicate block 0)
      fillRecord rounds

/-- The end of the archive: two zero blocks, and more up to a full record. -/
def finish : WriteM Unit := do
  let w ← get
  if w.remaining ≠ 0 ∨ w.pad ≠ 0 then throw (.error .length)
  else
    emit (replicate block 0)
    emit (replicate block 0)
    fillRecord (record / block)

end TarWriter

/-- A member and the chunks its data is written in. -/
structure Member where
  entry : Entry
  chunks : List (List UInt8)

def Member.data (m : Member) : List UInt8 := m.chunks.flatten

def writeChunks : List (List UInt8) → WriteM Unit
  | [] => pure ()
  | c :: cs => do
    TarWriter.writeData c
    writeChunks cs

def writeMembers : List Member → WriteM Unit
  | [] => pure ()
  | m :: ms => do
    TarWriter.appendHeader m.entry
    writeChunks m.chunks
    TarWriter.finishEntry
    writeMembers ms

/-- The bytes of the archive, if the writer does not stop. -/
def archive (ms : List Member) : Except Stop (List UInt8) :=
  match (do writeMembers ms; TarWriter.finish : WriteM Unit) .new with
  | .ok _ w => .ok w.inner
  | .error e _ => .error e

/-- Read the current member's data to its end, with buffers of any sizes. -/
def readRest (sizes : Nat → Nat) : (rounds i : Nat) → ReadM (List UInt8)
  | 0, _ => throw .endless
  | rounds + 1, i => do
    let got ← TarReader.readData (sizes i + 1)
    if got = [] then pure []
    else
      let more ← readRest sizes rounds (i + 1)
      pure (got ++ more)

/-- Read all members with their data up to the end of the archive. -/
def readMembers (sizes : Nat → Nat) : (rounds : Nat) → ReadM (List (Entry × List UInt8))
  | 0 => throw .endless
  | rounds + 1 => do
    match ← TarReader.nextEntry with
    | none => pure []
    | some e =>
      let data ← fun r => readRest sizes (r.remaining + 1) 0 r
      let more ← readMembers sizes rounds
      pure ((e, data) :: more)

def readArchive (sizes hints : Nat → Nat) (bytes : List UInt8) :
    Except Stop (List (Entry × List UInt8)) :=
  match readMembers sizes (bytes.length + 1) (.new ⟨bytes, hints, 0⟩) with
  | .ok members _ => .ok members
  | .error e _ => .error e

end Fastros.Archive.Tar
