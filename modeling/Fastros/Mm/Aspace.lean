import Fastros.Mm.Frame

/-!
# User address spaces

`AddressSpace` of the kernel, function by function. A space is named by its
number `s`; the lists of regions are edited by the pure functions `unmapRegion`
and `protectRegion`, which stop where an offset computation would overflow.
-/

namespace Fastros.Mm

variable {φ : Type}

def overlaps (regions : List Region) (start «end» : Nat) : Bool :=
  regions.any fun r => start < r.end ∧ r.start < «end»

def Region.contains (r : Region) (addr : Nat) : Bool := r.start ≤ addr ∧ addr < r.end

/-- The first region of the list that covers `addr`. -/
def findRegion (regions : List Region) (addr : Nat) : Option Region :=
  regions.find? (·.contains addr)

def regionAt (s addr : Nat) : KM φ (Option Region) :=
  return findRegion (← space s).regions addr

/-- The untouched part of `r` below the edited range. -/
def headPiece (start : Nat) (r : Region) : List Region :=
  if r.start < start then [{ r with «end» := start }] else []

/-- The untouched part of `r` above the edited range: the file backing is
shifted, every other field is `r`'s (`..r.clone()`). -/
def tailPiece {σ : Type} («end» : Nat) (r : Region) : EStateM Stop σ (List Region) := do
  if «end» < r.end then
    let backing ← shiftBacking r.backing («end» - r.start)
    return [{ r with start := «end», backing := backing }]
  return []

/-- What `unmap` leaves of one region. -/
def unmapRegion {σ : Type} (start «end» : Nat) (r : Region) : EStateM Stop σ (List Region) := do
  if «end» ≤ r.start ∨ r.end ≤ start then return [r]
  let tail ← tailPiece «end» r
  return headPiece start r ++ tail

/-- What `protect` makes of one region. -/
def protectRegion {σ : Type} (start «end» : Nat) (prot : Prot) (r : Region) :
    EStateM Stop σ (List Region) := do
  if «end» ≤ r.start ∨ r.end ≤ start then return [r]
  let midStart := max start r.start
  let backing ← shiftBacking r.backing (midStart - r.start)
  let base ← add r.sharedBase (midStart - r.start)
  let tail ← tailPiece «end» r
  return headPiece start r ++
    { r with start := midStart, «end» := min «end» r.end, prot := prot,
             backing := backing, sharedBase := base } :: tail

/-- Replace every region of a list by its pieces, in order. -/
def splitRegions {σ : Type} (f : Region → EStateM Stop σ (List Region)) :
    List Region → EStateM Stop σ (List Region)
  | [] => return []
  | r :: rs => do
    let pieces ← f r
    let rest ← splitRegions f rs
    return pieces ++ rest

def setRegions (s : Nat) (regions : List Region) : KM φ Unit :=
  modifySpace s fun sp => { sp with regions := regions }

def chargePage (s : Nat) : KM φ Bool := do
  let ok ← match (← space s).container with
    | none => pure true
    | some cid => tryChargePage cid
  if ok then modifySpace s fun sp => { sp with committed := sp.committed + 1 }
  return ok

def unchargePages (s n : Nat) : KM φ Unit := do
  if n = 0 then return
  modifySpace s fun sp => { sp with committed := sp.committed - min n sp.committed }
  match (← space s).container with
  | none => return
  | some cid => cgroupUnchargePages cid n

def chargeSwap (s : Nat) : KM φ Bool := do
  match (← space s).container with
  | none => return true
  | some cid => tryChargeSwap cid

def unchargeSwap (s n : Nat) : KM φ Unit := do
  match (← space s).container with
  | none => return
  | some cid => cgroupUnchargeSwap cid n

/-- The range and overlap checks of the `map_*_region` family, then the push. -/
def pushRegion (s : Nat) (r : Region) : KM φ Unit := do
  let start := alignDown r.start
  let «end» ← alignUp r.end
  if start < userStart ∨ userEnd < «end» ∨ «end» ≤ start then throw (.errno .einval)
  let regions := (← space s).regions
  if overlaps regions start «end» then throw (.errno .eexist)
  setRegions s (regions ++ [{ r with start := start, «end» := «end» }])

def mapRegion (s start «end» : Nat) (prot : Prot) (growsDown : Bool) : KM φ Unit :=
  pushRegion s { start := start, «end» := «end», prot := prot, growsDown := growsDown }

/-- `SharedAnon::new()`. -/
def newShared : KM φ Nat := do
  let o := (← get).nobjs
  modify fun k => { k with nobjs := o + 1, objs := Function.update k.objs o [] }
  return o

def mapSharedRegion (s start «end» : Nat) (prot : Prot) : KM φ Unit := do
  let obj ← newShared
  pushRegion s { start := start, «end» := «end», prot := prot, shared := some obj }

def mapSharedFileRegion (s start «end» : Nat) (prot : Prot) (obj base : Nat) : KM φ Unit :=
  pushRegion s { start := start, «end» := «end», prot := prot, shared := some obj,
                 sharedBase := base }

def mapFileRegion (s start «end» : Nat) (prot : Prot) (file offset length : Nat) : KM φ Unit :=
  pushRegion s { start := start, «end» := «end», prot := prot,
                 backing := some { file := file, offset := offset, length := length } }

/-- Some region of a space, or a handle outside the spaces, names the object. -/
def Kernel.referenced (k : Kernel φ) (o : Nat) : Bool :=
  k.held o || (List.range k.nspaces).any fun s =>
    (k.spaces s).regions.any fun r => r.shared = some o

variable (A : FrameAllocator φ)

/-- `Drop for SharedAnon`: release the object's reference to each frame. -/
def putAll : List (Nat × PhysAddr) → KM φ Unit
  | [] => return
  | (_, p) :: rest => do
    pagePut A p
    putAll rest

/-- The last `Arc` of an object going away. -/
def reapShared : List Nat → KM φ Unit
  | [] => return
  | o :: os => do
    if (← get).referenced o then reapShared os
    else
      let pages := (← get).objs o
      modify fun k => { k with objs := Function.update k.objs o [] }
      putAll A pages
      reapShared os

/-- `free_swap_entry`. -/
def freeSwapEntry (s va : Nat) : KM φ Bool := do
  let e ← leafEntry s va
  if !e.present ∧ e.swapped then
    freeSlot (e.addr / pageSize)
    setLeafEntry s va {}
    return true
  return false

/-- The page loop of `unmap` and of `Drop`: `(freed, swapped)`. -/
def releasePages (s va : Nat) : Nat → KM φ (Nat × Nat)
  | 0 => return (0, 0)
  | n + 1 => do
    if ← freeSwapEntry s va then
      let (freed, swapped) ← releasePages s (va + pageSize) n
      return (freed, swapped + 1)
    match ← unmap4k s va with
    | none => releasePages s (va + pageSize) n
    | some e =>
      pagePut A e.addr
      let (freed, swapped) ← releasePages s (va + pageSize) n
      return (freed + 1, swapped)

def pagesIn (start «end» : Nat) : Nat := («end» - start + (pageSize - 1)) / pageSize

/-- The second half of `unmap`: drop the old regions, then the pages. -/
def releaseRange (s start «end» : Nat) (old : List Region) : KM φ Unit := do
  reapShared A (old.filterMap (·.shared))
  let (freed, swapped) ← releasePages A s start (pagesIn start «end»)
  unchargePages s freed
  unchargeSwap s swapped

def unmap (s start len : Nat) : KM φ Unit := do
  let sum ← add start len
  let «end» ← alignUp sum
  let regions := (← space s).regions
  let out ← splitRegions (unmapRegion (alignDown start) «end») regions
  setRegions s out
  releaseRange A s (alignDown start) «end» regions

/-- The re-flagging of one present entry by `protect`: a copy-on-write entry
stays read-only until the copy happens. -/
def Pte.reflag (e : Pte) (prot : Prot) : Pte :=
  { e with user := true, writable := prot.write && !e.cow, noExecute := !prot.exec,
           swapped := false }

def protectPages (s va : Nat) (prot : Prot) : Nat → KM φ Unit
  | 0 => return
  | n + 1 => do
    let e ← leafEntry s va
    if e.present then setLeafEntry s va (e.reflag prot)
    protectPages s (va + pageSize) prot n

def protect (s start len : Nat) (prot : Prot) : KM φ Unit := do
  let sum ← add start len
  let «end» ← alignUp sum
  let regions := (← space s).regions
  if !regions.any (fun r => r.start ≤ alignDown start ∧ «end» ≤ r.end) then
    throw (.errno .enomem)
  let out ← splitRegions (protectRegion (alignDown start) «end» prot) regions
  setRegions s out
  protectPages s (alignDown start) prot (pagesIn (alignDown start) «end»)

/-- Run a call and drop its error code (`.ok()`); a panic still stops. -/
def ignoreErr (x : KM φ Unit) : KM φ Unit := fun k =>
  match x k with
  | .error (.errno _) k' => .ok () k'
  | r => r

/-- The `place` closure of `mmap`. -/
def place (s start len : Nat) (prot : Prot) (file : Option (Nat × Nat)) (shared : Bool) :
    KM φ Unit := do
  let «end» ← add start len
  match file with
  | some (f, off) =>
    if shared then
      match ((← get).files f).sharedMmap with
      | some obj => mapSharedFileRegion s start «end» prot obj off
      | none => mapFileRegion s start «end» prot f off len
    else mapFileRegion s start «end» prot f off len
  | none =>
    if shared then mapSharedRegion s start «end» prot
    else mapRegion s start «end» prot false

/-- A hinted placement: is `[start, start + len)` free and inside user space? -/
def hintFits (s start len : Nat) : KM φ Bool := do
  let «end» ← add start len
  return !overlaps (← space s).regions start «end» && («end» ≤ userEnd : Bool)

def mmap (s hint len : Nat) (prot : Prot) (fixed : Bool) (file : Option (Nat × Nat))
    (shared : Bool) : KM φ Nat := do
  let len ← alignUp (max len 1)
  if fixed then
    let start := alignDown hint
    ignoreErr (unmap A s start len)
    place s start len prot file shared
    return start
  if userStart ≤ hint then
    let start := alignDown hint
    if ← hintFits s start len then
      place s start len prot file shared
      return start
  let top := (← space s).mmapTop
  if top < len then throw (.errno .enomem)
  let start := alignDown (top - len)
  place s start len prot file shared
  modifySpace s fun sp => { sp with mmapTop := start }
  return start

/-- Where `attach_shared` puts the mapping: at the hint if that is free, else
below `mmap_top`, which moves down even if the attach fails later. -/
def attachSlot (s hint len : Nat) : KM φ Nat := do
  if userStart ≤ hint then
    if ← hintFits s (alignDown hint) len then return alignDown hint
  let top := (← space s).mmapTop
  if top < len then throw (.errno .enomem)
  modifySpace s fun sp => { sp with mmapTop := alignDown (top - len) }
  return alignDown (top - len)

def attachAt (s start len : Nat) (prot : Prot) (obj : Nat) : KM φ Nat := do
  let «end» ← add start len
  let regions := (← space s).regions
  if overlaps regions start «end» then throw (.errno .eexist)
  setRegions s (regions ++ [{ start := start, «end» := «end», prot := prot, shared := some obj }])
  return start

def attachShared (s hint len : Nat) (prot : Prot) (obj : Nat) : KM φ Nat := do
  let len ← alignUp (max len 1)
  let start ← attachSlot s hint len
  attachAt s start len prot obj

def setBrkBase (s base : Nat) : KM φ Unit := do
  let base ← alignUp base
  modifySpace s fun sp => { sp with brkBase := base, brk := base }

/-- The region `brk` extends in place: the first that ends at the break. -/
def isHeap (base cur : Nat) (r : Region) : Bool := r.end = cur ∧ base ≤ r.start ∧ !r.growsDown

/-- `*regions.iter_mut().find(p) = f(..)`. -/
def updateFirst (p : Region → Bool) (f : Region → Region) : List Region → List Region
  | [] => []
  | r :: rs => if p r then f r :: rs else r :: updateFirst p f rs

/-- `brk(addr)`; `addr` below the base queries the break. -/
def brk (s addr : Nat) : KM φ Nat := do
  let sp ← space s
  if addr < sp.brkBase then return sp.brk
  let new ← alignUp addr
  let cur := sp.brk
  if cur < new then
    if sp.regions.any (isHeap sp.brkBase cur) then
      setRegions s (updateFirst (isHeap sp.brkBase cur) (fun r => { r with «end» := new }) sp.regions)
    else if !overlaps sp.regions cur new then
      setRegions s (sp.regions ++
        [{ start := max sp.brkBase cur, «end» := new, prot := { read := true, write := true } }])
    else return cur
  else if new < cur then ignoreErr (unmap A s new (cur - new))
  modifySpace s fun sp => { sp with brk := new }
  return new

end Fastros.Mm
