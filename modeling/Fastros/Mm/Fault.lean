import Fastros.Mm.Aspace

/-!
# Page faults, reclaim, fork and teardown

The paths that take and drop frames: demand filling, copy-on-write, swapping,
`fork` and `Drop for AddressSpace`.
-/

namespace Fastros.Mm

open Function (update)

variable {φ : Type} (A : FrameAllocator φ)

/-- `try_evict`: move one present, singly owned, non-COW page to swap. -/
def tryEvict (s va : Nat) (force : Bool) : KM φ Bool := do
  let e ← leafEntry s va
  if !e.present || e.cow then return false
  if (← pageCount e.addr) ≠ 1 then return false
  if !force && e.accessed then
    setLeafEntry s va { e with accessed := false }
    return false
  setLeafEntry s va { e with dirty := false }
  match ← storePage e.addr with
  | none => return false
  | some slot =>
    let e' ← leafEntry s va
    if !e'.present || e'.addr ≠ e.addr || e'.dirty then
      freeSlot slot
      return false
    if !(← chargeSwap s) then
      freeSlot slot
      return false
    setLeafEntry s va { addr := slot * pageSize, swapped := true }
    pagePut A e.addr
    unchargePages s 1
    return true

/-- The pages of one region, until `target` have been freed. -/
def reclaimRegion (s va : Nat) (force : Bool) (target : Nat) : Nat → Nat → KM φ Nat
  | 0, freed => return freed
  | n + 1, freed => do
    if target ≤ freed then return freed
    let ok ← tryEvict A s va force
    reclaimRegion s (va + pageSize) force target n (if ok then freed + 1 else freed)

/-- Only writable anonymous private memory is swapped. -/
def swappable (r : Region) : Bool := r.backing.isNone && r.shared.isNone && r.prot.write

def reclaimRegions (s : Nat) (force : Bool) (target : Nat) : List Region → Nat → KM φ Nat
  | [], freed => return freed
  | r :: rs, freed => do
    if swappable r then
      let freed ← reclaimRegion A s r.start force target (pagesIn r.start r.end) freed
      if target ≤ freed then return freed
      reclaimRegions s force target rs freed
    else reclaimRegions s force target rs freed

def reclaimPass (s target : Nat) (force : Bool) : KM φ Nat := do
  reclaimRegions A s force target (← space s).regions 0

def reclaim (s target : Nat) : KM φ Nat := do
  if !(← get).swap.enabled then return 0
  let freed ← reclaimPass A s target false
  if freed < target then
    return freed + (← reclaimPass A s (target - freed) true)
  return freed

def allocPressure (s : Nat) : KM φ (Option PhysAddr) := do
  match ← allocUserPage A with
  | some p => return some p
  | none =>
    let _ ← reclaim A s reclaimBatch
    allocUserPage A

/-- Charge one page, reclaiming once when the cgroup is full. -/
def chargePressure (s : Nat) : KM φ Unit := do
  if !(← chargePage s) then
    let _ ← reclaim A s reclaimBatch
    if !(← chargePage s) then throw (.errno .enomem)

/-- Allocate a frame for a charged page, giving the charge back on failure. -/
def allocCharged (s : Nat) : KM φ PhysAddr := do
  match ← allocPressure A s with
  | some p => return p
  | none =>
    unchargePages s 1
    throw (.errno .enomem)

/-- `do_cow`: the sole owner takes the frame, anybody else a copy. -/
def doCow (s page : Nat) (e : Pte) : KM φ Unit := do
  if (← pageCount e.addr) = 1 then
    setLeafEntry s page { e with cow := false, writable := true }
  else
    match ← allocUserPage A with
    | none => throw (.errno .enomem)
    | some new =>
      modify fun k => { k with mem := update k.mem new (k.mem e.addr) }
      setLeafEntry s page { present := true, writable := true, user := e.user,
                            noExecute := e.noExecute, addr := new }
      pagePut A e.addr

/-- `swap_in`: read a slot into a fresh frame and restore the entry. -/
def swapIn (s page : Nat) (e : Pte) (r : Region) : KM φ Unit := do
  let slot := e.addr / pageSize
  chargePressure A s
  let phys ← allocCharged A s
  if !(← readSlot slot phys) then
    pagePut A phys
    unchargePages s 1
    throw (.errno .eio)
  map4k A s page phys (toPageFlags r.prot)
  freeSlot slot
  unchargeSwap s 1

/-- The frame a shared object holds under `key`, created on first use; the
caller owns one reference to it. -/
def sharedFrame (s obj key : Nat) : KM φ PhysAddr := do
  match ((← get).objs obj).lookup key with
  | some p =>
    pageGet p
    return p
  | none =>
    let p ← allocCharged A s
    modify fun k => { k with objs := update k.objs obj ((key, p) :: k.objs obj) }
    pageGet p
    return p

/-- Fill a fresh (zeroed) frame of a file mapping; past `length` it stays zero. -/
def fillFromFile (phys page : Nat) (r : Region) : KM φ Unit := do
  match r.backing with
  | none => return
  | some b =>
    let pageOff := page - r.start
    if pageOff < b.length then
      let n := min (b.length - pageOff) pageSize
      let off ← add b.offset pageOff
      modify fun k =>
        let bytes := ((k.files b.file).pread off n).take n
        { k with mem := update k.mem phys fun i => bytes.getD i 0 }

def ensurePage (s page : Nat) (r : Region) (write : Bool) : KM φ Unit := do
  let e ← leafEntry s page
  if e.present then
    if write && e.cow then doCow A s page e
    else return
  else if e.swapped then swapIn A s page e r
  else
    chargePressure A s
    match r.shared with
    | some obj =>
      let key ← add r.sharedBase (page - r.start)
      let phys ← sharedFrame A s obj key
      map4k A s page phys (toPageFlags r.prot)
    | none =>
      let phys ← allocCharged A s
      fillFromFile phys page r
      map4k A s page phys (toPageFlags r.prot)

/-- A fault just below a grows-down region extends it, unless something is in
the way. -/
def tryGrowStack (s page : Nat) : KM φ (Option Region) := do
  let regions := (← space s).regions
  match regions.findIdx? (fun r => r.growsDown ∧ page < r.start ∧ r.start - page ≤ 64 * pageSize) with
  | none => return none
  | some idx =>
    match regions[idx]? with
    | none => return none
    | some r =>
      if overlaps (regions.eraseIdx idx) page r.end then return none
      let r' := { r with start := page }
      setRegions s (regions.set idx r')
      return some r'

/-- `handle_fault`: resolved or not. An error code of `ensure_page` is a fault
that stays unresolved. -/
def handleFault (s addr : Nat) (write exec : Bool) : KM φ Bool := do
  if addr < userStart ∨ userEnd ≤ addr then return false
  let page := alignDown addr
  let region ← match ← regionAt s page with
    | some r => pure (some r)
    | none => tryGrowStack s page
  match region with
  | none => return false
  | some r =>
    if write && !r.prot.write then return false
    if exec && !r.prot.exec then return false
    fun k => match ensurePage A s page r write k with
      | .ok _ k' => .ok true k'
      | .error (.errno _) k' => .ok false k'
      | .error e k' => .error e k'

/-- `fault_in`: the kernel touches a page of user memory. -/
def faultIn (s page : Nat) (write : Bool) : KM φ Unit := do
  match ← regionAt s page with
  | none => throw (.errno .efault)
  | some r =>
    if write && !r.prot.write then throw (.errno .efault)
    ensurePage A s page r write

/-- A user store retired by the CPU: the entry must be present, writable and a
user page; the hardware sets the accessed and dirty bits. -/
def userStore (s va : Nat) (b : UInt8) : KM φ Bool := do
  let e ← leafEntry s va
  if e.present && e.writable && e.user then
    setLeafEntry s va { e with accessed := true, dirty := true }
    modify fun k => { k with
      mem := update k.mem e.addr (update (k.mem e.addr) (va % pageSize) b) }
    return true
  return false

/-- `AddressSpace::new`. -/
def newSpace : KM φ Nat := do
  match ← allocZeroed A with
  | none => throw (.errno .enomem)
  | some pml4 =>
    let s := (← get).nspaces
    modify fun k => { k.setSpace s { pml4 := pml4 } with nspaces := s + 1 }
    return s

/-- One page of `fork`: bring a swapped page back, then share it. -/
def forkPage (s child va : Nat) (r : Region) : KM φ Unit := do
  let e ← leafEntry s va
  if !e.present && e.swapped then ignoreErr (swapIn A s va e r)
  let e ← leafEntry s va
  if e.present then
    let e' := if r.shared.isNone && e.writable then { e with writable := false, cow := true } else e
    setLeafEntry s va e'
    pageGet e.addr
    map4k A child va e.addr e'

def forkPages (s child va : Nat) (r : Region) : Nat → KM φ Unit
  | 0 => return
  | n + 1 => do
    forkPage A s child va r
    forkPages s child (va + pageSize) r n

def forkRegions (s child : Nat) : List Region → KM φ Unit
  | [] => return
  | r :: rs => do
    forkPages A s child r.start r (pagesIn r.start r.end)
    forkRegions s child rs

def releaseRegions (s : Nat) : List Region → KM φ (Nat × Nat)
  | [] => return (0, 0)
  | r :: rs => do
    let (freed, swapped) ← releasePages A s r.start (pagesIn r.start r.end)
    let (freed', swapped') ← releaseRegions s rs
    return (freed + freed', swapped + swapped')

def freeTables : List ((Nat × Nat) × PhysAddr) → KM φ Unit
  | [] => return
  | (_, p) :: rest => do
    freeFrame A p
    freeTables rest

/-- `Drop for AddressSpace`: the user pages of its regions, then its tables.
With the tables go whatever leaf entries they still held. -/
def dropSpace (s : Nat) : KM φ Unit := do
  let sp ← space s
  setRegions s []
  let (freed, swapped) ← releaseRegions A s sp.regions
  reapShared A (sp.regions.filterMap (·.shared))
  unchargePages s freed
  unchargeSwap s swapped
  freeTables A (← space s).tables
  freeFrame A sp.pml4
  modify fun k => k.setSpace s {}

/-- `AddressSpace::fork`; a failure drops the unfinished child. -/
def fork (s : Nat) : KM φ Nat := do
  let child ← newSpace A
  let sp ← space s
  fun k => match forkRegions A s child sp.regions k with
    | .error (.errno e) k' => (do dropSpace A child; throw (.errno e) : KM φ Nat) k'
    | .error e k' => .error e k'
    | .ok _ k' => (do
        let sp' ← space s
        modifySpace child fun c =>
          { c with regions := sp.regions, brk := sp'.brk, brkBase := sp'.brkBase,
                   mmapTop := sp'.mmapTop }
        return child : KM φ Nat) k'

/-- `set_container`. -/
def setContainer (s : Nat) (cid : Option String) : KM φ Unit :=
  modifySpace s fun sp => { sp with container := cid }

end Fastros.Mm
