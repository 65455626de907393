import Fastros.Lib.Stateful

/-!
# The block cache

`kernel/src/fs/bcache.rs`: pages of a block device with read-ahead, eviction of
the least recently used clean pages, and write-back of dirty pages in runs. The
cache is only used under its owner's lock. Offsets are those of bytes on the device
and fit in 64 bits; the use counter is not exhausted. The statistics over all
caches are left out.
-/

namespace Fastros.Fs.Bcache

open Std (TreeMap)

def pageSize : Nat := 4096
def sectorSize : Nat := 512
def sectorsPerPage : Nat := pageSize / sectorSize
/-- Pages fetched at once on a miss. -/
def readAhead : Nat := 32
/-- Longest run written in one device command. -/
def maxRun : Nat := 64

abbrev PageData := Vector UInt8 pageSize

/-- Bytes written over others from `start` on. -/
def overlay (bytes : Nat → UInt8) (start : Nat) (buf : List UInt8) (a : Nat) : UInt8 :=
  if start ≤ a ∧ a < start + buf.length then buf.getD (a - start) 0 else bytes a

/-- A block device. Commands that end by byte `limit` succeed; the whole device is
among them. -/
structure Device where
  sectors : Nat
  bytes : Nat → UInt8
  limit : Nat
  reach : sectors * sectorSize ≤ limit

namespace Device

def read (d : Device) (lba len : Nat) : Option (List UInt8) :=
  if lba * sectorSize + len ≤ d.limit then
    some ((List.range len).map fun i => d.bytes (lba * sectorSize + i))
  else none

def write (d : Device) (lba : Nat) (buf : List UInt8) : Option Device :=
  if lba * sectorSize + buf.length ≤ d.limit then
    some { d with bytes := overlay d.bytes (lba * sectorSize) buf }
  else none

end Device

structure Page where
  data : PageData
  dirty : Bool
  lastUse : Nat

structure BlockCache where
  dev : Device
  pages : TreeMap Nat Page
  capacity : Nat
  tick : Nat
  pagesTotal : Nat

/-- `CacheError`, or a panic. -/
inductive Fault where
  | cacheError
  | panicked
  deriving DecidableEq

abbrev CacheM := EStateM Fault BlockCache

namespace BlockCache

/-- `capacity` is in pages. -/
def new (dev : Device) (capacity : Nat) : BlockCache where
  dev := dev
  pages := ∅
  capacity := max capacity 64
  tick := 0
  pagesTotal := dev.sectors / sectorsPerPage

def put (c : BlockCache) (idx : Nat) (p : Page) : BlockCache :=
  { c with pages := c.pages.insert idx p }

def remove (c : BlockCache) (idx : Nat) : BlockCache := { c with pages := c.pages.erase idx }

end BlockCache

def touch : CacheM Nat := do
  modify fun c => { c with tick := c.tick + 1 }
  return (← get).tick

def insert (idx : Nat) (data : PageData) (lastUse : Nat) : CacheM Unit :=
  modify fun c => c.put idx ⟨data, false, lastUse⟩

/-- The page, which the caller knows to be there. -/
def expectPage (idx : Nat) : CacheM Page := do
  match (← get).pages[idx]? with
  | some p => return p
  | none => throw .panicked

/-- The length of the run of consecutive numbers from `start` on. -/
def runLength (start : Nat) : (len : Nat) → List Nat → Nat
  | len, [] => len
  | len, k :: rest =>
    if k = start + len ∧ len < maxRun then runLength start (len + 1) rest else len

/-- The contents of `n` pages from `start` on, one after the other. -/
def gather (start : Nat) : (n : Nat) → CacheM (List UInt8)
  | 0 => return []
  | n + 1 => do
    let buf ← gather start n
    let p ← expectPage (start + n)
    return buf ++ p.data.toList

def BlockCache.setClean (c : BlockCache) (idx : Nat) : BlockCache :=
  match c.pages[idx]? with
  | some p => c.put idx { p with dirty := false }
  | none => c

/-- The pages from `start` on are no longer dirty. -/
def markClean (start : Nat) : (n : Nat) → CacheM Unit
  | 0 => return ()
  | n + 1 => do
    markClean start n
    modify fun c => c.setClean (start + n)

def devWrite (lba : Nat) (buf : List UInt8) : CacheM Unit := do
  match (← get).dev.write lba buf with
  | some dev => modify fun c => { c with dev := dev }
  | none => throw .cacheError

def writeRuns : (fuel : Nat) → List Nat → CacheM Unit
  | _, [] => return ()
  | 0, _ :: _ => return ()
  | fuel + 1, start :: rest => do
    let len := runLength start 1 rest
    let buf ← gather start len
    devWrite (start * sectorsPerPage) buf
    markClean start len
    writeRuns fuel ((start :: rest).drop len)

def BlockCache.dirtyKeys (c : BlockCache) : List Nat :=
  (c.pages.toList.filter fun p => p.2.dirty).map Prod.fst

/-- Write every dirty page back, in ascending order, coalescing runs. -/
def writeback : CacheM Unit := do
  let dirty := (← get).dirtyKeys
  writeRuns dirty.length dirty

/-- Write back; that the device then makes its writes durable changes no bytes. -/
def flush : CacheM Unit := writeback

/-- The clean pages, as last use and number. -/
def BlockCache.cleanPages (c : BlockCache) : List (Nat × Nat) :=
  (c.pages.toList.filter fun p => !p.2.dirty).map fun p => (p.2.lastUse, p.1)

def olderFirst (a b : Nat × Nat) : Bool := a.1 < b.1 || (a.1 = b.1 && a.2 ≤ b.2)

/-- Evict the clean pages that were not used for longest. -/
def evict (excess : Nat) : CacheM Unit := modify fun c =>
  ((c.cleanPages.mergeSort olderFirst).take excess).foldl (fun c e => c.remove e.2) c

/-- Evict clean pages, writing dirty ones back if need be, until `want` slots are free. -/
def makeRoom (want : Nat) : CacheM Unit := do
  let c ← get
  if c.pages.size + want ≤ c.capacity then return ()
  else
    let excess := c.pages.size + want - c.capacity
    if c.cleanPages.length < excess then writeback
    evict excess

/-- How many pages from `idx` on are fetched, at least `n`. -/
def BlockCache.ahead (c : BlockCache) (idx : Nat) : (fuel n : Nat) → Nat
  | 0, n => n
  | fuel + 1, n =>
    if n < readAhead ∧ idx + n < c.pagesTotal ∧ ¬ c.pages.contains (idx + n) then
      c.ahead idx fuel (n + 1)
    else n

/-- The `i`-th page of a buffer. -/
def pageOf (buf : List UInt8) (i : Nat) : PageData :=
  Vector.ofFn fun x => buf.getD (i * pageSize + x.val) 0

/-- Enter the first `n` pages of a buffer; those read ahead start older. -/
def fill (idx t : Nat) (buf : List UInt8) : (n : Nat) → CacheM Unit
  | 0 => return ()
  | n + 1 => do
    fill idx t buf n
    insert (idx + n) (pageOf buf n) (if n = 0 then t else t - 1000000)

def devRead (lba len : Nat) : CacheM (List UInt8) := do
  match (← get).dev.read lba len with
  | some buf => return buf
  | none => throw .cacheError

/-- Make sure a page is cached, reading ahead on a miss. -/
def load (idx : Nat) (needData : Bool) : CacheM Unit := do
  if (← get).pages.contains idx then return ()
  else
    makeRoom readAhead
    let t ← touch
    if !needData then
      insert idx (Vector.replicate pageSize 0) t
    else
      let n := (← get).ahead idx (readAhead - 1) 1
      let buf ← devRead (idx * sectorsPerPage) (n * pageSize)
      fill idx t buf n

/-- `n` bytes of a page from `po` on. -/
def slice (data : PageData) (po n : Nat) : List UInt8 := (data.toList.drop po).take n

/-- Bytes written into a page from `po` on. -/
def splice (data : PageData) (po : Nat) (chunk : List UInt8) : PageData :=
  Vector.ofFn fun x =>
    if po ≤ x.val ∧ x.val < po + chunk.length then chunk.getD (x.val - po) 0 else data[x]

/-- Enter the new use of a page. -/
def putPage (idx : Nat) (p : Page) : CacheM Unit := modify fun c => c.put idx p

def readLoop (offset len : Nat) : (fuel done : Nat) → List UInt8 → CacheM (List UInt8)
  | 0, _, buf => return buf
  | fuel + 1, done, buf =>
    if done < len then do
      let pos := offset + done
      let idx := pos / pageSize
      let po := pos % pageSize
      let n := min (pageSize - po) (len - done)
      load idx true
      let t ← touch
      let p ← expectPage idx
      putPage idx { p with lastUse := t }
      readLoop offset len fuel (done + n) (buf ++ slice p.data po n)
    else return buf

def read (offset len : Nat) : CacheM (List UInt8) := readLoop offset len len 0 []

def writeLoop (offset : Nat) (buf : List UInt8) : (fuel done : Nat) → CacheM Unit
  | 0, _ => return ()
  | fuel + 1, done =>
    if done < buf.length then do
      let pos := offset + done
      let idx := pos / pageSize
      let po := pos % pageSize
      let n := min (pageSize - po) (buf.length - done)
      load idx (n != pageSize)
      let t ← touch
      let p ← expectPage idx
      putPage idx ⟨splice p.data po ((buf.drop done).take n), true, t⟩
      writeLoop offset buf fuel (done + n)
    else return ()

def write (offset : Nat) (buf : List UInt8) : CacheM Unit := writeLoop offset buf buf.length 0

/-- Drop every clean page. -/
def dropClean : CacheM Unit := modify fun c => { c with pages := c.pages.filter fun _ p => p.dirty }

inductive Call where
  | read (offset len : Nat)
  | write (offset : Nat) (buf : List UInt8)
  | writeback
  | flush
  | dropClean

/-- The bytes read; nothing for the other calls. -/
def call : Call → CacheM (List UInt8)
  | .read offset len => read offset len
  | .write offset buf => do write offset buf; return []
  | .writeback => do writeback; return []
  | .flush => do flush; return []
  | .dropClean => do dropClean; return []

/-- The answers of a sequence of calls. -/
def calls : List Call → CacheM (List (List UInt8))
  | [] => return []
  | c :: rest => do
    let answer ← call c
    let answers ← calls rest
    return answer :: answers

end Fastros.Fs.Bcache
