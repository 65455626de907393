import Fastros.Lib.Checked
import Fastros.Lib.Dyadic
import Fastros.Lib.Linked

/-!
# The buddy allocator

`lib/alloc/src/buddy.rs`: blocks of `2^order` frames over a range of frame
numbers. One state byte per frame says what the frame heads; the free blocks of
each order are on a doubly linked list whose nodes are in the frames themselves.
A function that would panic answers `none`: a counter below zero, or a block that
is not found where it was just seen. Sums stay close to the number of frames, which
is the size of an array, and do not overflow.
-/

namespace Fastros.Alloc

open Lib (Checked.sub)
open Lib.Linked (Link)
open Function (update)

def maxOrder : Nat := 10

def stNone : UInt8 := 0x00
def stReserved : UInt8 := 0x40
def stFree : UInt8 := 0x80
def stUsed : UInt8 := 0xC0
def stKind : UInt8 := 0xC0
def stOrder : UInt8 := 0x0F

/-- The state byte of the head of a free block. -/
def freeMark (order : Nat) : UInt8 := stFree ||| UInt8.ofNat order

/-- The state byte of the head of an allocated block. -/
def usedMark (order : Nat) : UInt8 := stUsed ||| UInt8.ofNat order

inductive FreeError where
  | outOfRange
  | notAllocated
  | wrongOrder (allocated : Nat)
  deriving DecidableEq, Repr

/-- `links` is the memory of the frames as far as the allocator uses it; the end of
a list (`NIL`) is `none`. -/
structure Buddy where
  state : Nat → UInt8
  links : Nat → Link Nat
  frames : Nat
  heads : Nat → Option Nat
  counts : Nat → Nat
  freeFrames : Nat
  managedFrames : Nat

namespace Buddy

/-- All frames are reserved at first. -/
def new (memory : Nat → Link Nat) (frames : Nat) : Buddy where
  state := fun _ => stReserved
  links := memory
  frames := frames
  heads := fun _ => none
  counts := fun _ => 0
  freeFrames := 0
  managedFrames := 0

def set (b : Buddy) (idx : Nat) (v : UInt8) : Buddy := { b with state := update b.state idx v }

def push (b : Buddy) (idx order : Nat) : Buddy :=
  set { b with
    links := Lib.Linked.push b.links (b.heads order) idx
    heads := update b.heads order (some idx)
    counts := update b.counts order (b.counts order + 1) } idx (freeMark order)

def unlink (b : Buddy) (idx order : Nat) : Option Buddy := do
  let count ← Checked.sub (b.counts order) 1
  some { b with
    links := Lib.Linked.unlink b.links idx
    heads := match (b.links idx).prev with
      | some _ => b.heads
      | none => update b.heads order (b.links idx).next
    counts := update b.counts order count }

/-- The loop of `release`: merge with the buddy as long as it is free. -/
def merge : (rounds idx order : Nat) → Buddy → Option Buddy
  | 0, idx, order, b => some (b.push idx order)
  | rounds + 1, idx, order, b =>
    let buddy := idx ^^^ 2 ^ order
    if b.frames ≤ buddy ∨ b.state buddy ≠ freeMark order then some (b.push idx order)
    else do
      let b ← b.unlink buddy order
      merge rounds (min idx buddy) (order + 1) (b.set buddy stNone)

/-- Merge the block with free buddies and put it on a free list. -/
def release (b : Buddy) (idx order : Nat) : Option Buddy :=
  merge (maxOrder - order) idx order (b.set idx stNone)

/-- The largest order, at most `order`, of an aligned block at `idx` that ends by `stop`. -/
def fitting (idx stop : Nat) : (order : Nat) → Nat
  | 0 => 0
  | order + 1 =>
    if idx % 2 ^ (order + 1) ≠ 0 ∨ stop < idx + 2 ^ (order + 1) then fitting idx stop order
    else order + 1

/-- Set the states of `n` frames from `idx` on to `ST_NONE`. -/
def clear (b : Buddy) (idx : Nat) : (n : Nat) → Buddy
  | 0 => b
  | n + 1 => (b.clear idx n).set (idx + n) stNone

def addRun (stop : Nat) : (fuel idx : Nat) → Buddy → Option Buddy
  | 0, _, b => some b
  | fuel + 1, idx, b =>
    if idx < stop then do
      let order := fitting idx stop maxOrder
      let b := b.clear idx (2 ^ order)
      let b := { b with
        freeFrames := b.freeFrames + 2 ^ order
        managedFrames := b.managedFrames + 2 ^ order }
      let b ← b.release idx order
      addRun stop fuel (idx + 2 ^ order) b
    else some b

/-- The end of the run of reserved frames that goes on at `idx`. -/
def runEnd (b : Buddy) (stop : Nat) : (fuel idx : Nat) → Nat
  | 0, idx => idx
  | fuel + 1, idx =>
    if idx < stop ∧ b.state idx = stReserved then b.runEnd stop fuel (idx + 1) else idx

def addFrom (stop : Nat) : (fuel idx : Nat) → Buddy → Option Buddy
  | 0, _, b => some b
  | fuel + 1, idx, b =>
    if idx < stop then
      if b.state idx ≠ stReserved then addFrom stop fuel (idx + 1) b
      else do
        let last := b.runEnd stop (stop - idx) idx
        let b ← addRun last (last - idx) idx b
        addFrom stop fuel last b
    else some b

/-- Release the reserved frames in a range; other frames are skipped. -/
def addRange (b : Buddy) (start stop : Nat) : Option Buddy :=
  let stop := min stop b.frames
  addFrom stop (stop - start) start b

/-- A free block that contains `idx` starts at `idx` rounded down to its size. -/
def freeBlockContaining (b : Buddy) (idx : Nat) : Option (Nat × Nat) :=
  if b.frames ≤ idx then none
  else (List.range (maxOrder + 1)).findSome? fun order =>
    let head := idx / 2 ^ order * 2 ^ order
    if b.state head = freeMark order then some (head, order) else none

def isFree (b : Buddy) (idx : Nat) : Bool := (b.freeBlockContaining idx).isSome

/-- The next `n` frames of a block taken apart: those in the range become reserved,
the others are released one by one. -/
def carve (start stop : Nat) : (n i : Nat) → Buddy → Option Buddy
  | 0, _, b => some b
  | n + 1, i, b =>
    if start ≤ i ∧ i < stop then do
      let managed ← Checked.sub b.managedFrames 1
      carve start stop n (i + 1) { b.set i stReserved with managedFrames := managed }
    else do
      let b ← release { b with freeFrames := b.freeFrames + 1 } i 0
      carve start stop n (i + 1) b

def reserveFrom (start stop : Nat) : (fuel idx : Nat) → Buddy → Option Buddy
  | 0, _, b => some b
  | fuel + 1, idx, b =>
    if idx < stop then do
      let (head, order) ← b.freeBlockContaining idx
      let b ← b.unlink head order
      let freeFrames ← Checked.sub b.freeFrames (2 ^ order)
      let b ← carve start stop (2 ^ order) head { b with freeFrames := freeFrames }
      reserveFrom start stop fuel (head + 2 ^ order) b
    else some b

/-- Mark a range reserved again, if all of it is free. -/
def reserveRange (b : Buddy) (start stop : Nat) : Option (Bool × Buddy) :=
  let stop := min stop b.frames
  if (List.range' start (stop - start)).all b.isFree then do
    let b ← reserveFrom start stop (stop - start) start b
    some (true, b)
  else some (false, b)

/-- The first order from `order` on, of the next `fuel`, whose list is not empty. -/
def firstOrder (b : Buddy) : (fuel order : Nat) → Nat
  | 0, order => order
  | fuel + 1, order =>
    if b.heads order = none then b.firstOrder fuel (order + 1) else order

/-- Put the upper halves of a block of order `o` on the lists, down to `order`. -/
def split (idx order : Nat) : (o : Nat) → Buddy → Buddy
  | 0, b => b
  | o + 1, b => if order < o + 1 then split idx order o (b.push (idx + 2 ^ o) o) else b

/-- Allocate a block of `2^order` frames. -/
def alloc (b : Buddy) (order : Nat) : Option (Option Nat × Buddy) :=
  if maxOrder < order then some (none, b)
  else
    let o := b.firstOrder (maxOrder + 1 - order) order
    if maxOrder < o then some (none, b)
    else do
      let idx ← b.heads o
      let b ← b.unlink idx o
      let b := (split idx order o b).set idx (usedMark order)
      let freeFrames ← Checked.sub b.freeFrames (2 ^ order)
      some (some idx, { b with freeFrames := freeFrames })

/-- Return a block that `alloc` handed out. -/
def free (b : Buddy) (idx order : Nat) : Option (Except FreeError Unit × Buddy) :=
  if b.frames ≤ idx then some (.error .outOfRange, b)
  else if b.state idx &&& stKind ≠ stUsed then some (.error .notAllocated, b)
  else
    let allocated := (b.state idx &&& stOrder).toNat
    if allocated ≠ order then some (.error (.wrongOrder allocated), b)
    else do
      let b ← release { b with freeFrames := b.freeFrames + 2 ^ order } idx order
      some (.ok (), b)

end Buddy

/-- A call of the allocator, or a write by whoever owns a frame into its first words. -/
inductive Call where
  | addRange (start stop : Nat)
  | reserveRange (start stop : Nat)
  | alloc (order : Nat)
  | free (idx order : Nat)
  | scribble (idx : Nat) (words : Link Nat)

/-- The allocator with what its callers know: the ranges they added, the frames they
reserved since, and the blocks (first frame and order) they got and have not
returned. -/
structure Ledger where
  buddy : Buddy
  added : List (Nat × Nat)
  reserved : List Nat
  live : List (Nat × Nat)

def boot (memory : Nat → Link Nat) (frames : Nat) : Ledger := ⟨.new memory frames, [], [], []⟩

/-- A call; the frames of free blocks belong to nobody but the allocator. -/
def step : Call → Ledger → Option Ledger
  | .addRange start stop, s => do
    let b ← s.buddy.addRange start stop
    -- adding a range again gives its reserved frames back
    some { s with
      buddy := b, added := (start, stop) :: s.added
      reserved := s.reserved.filter fun j => ¬ (start ≤ j ∧ j < stop) }
  | .reserveRange start stop, s => do
    let (done, b) ← s.buddy.reserveRange start stop
    if done then
      let frames := List.range' start (min stop s.buddy.frames - start)
      some { s with buddy := b, reserved := frames ++ s.reserved }
    else some { s with buddy := b }
  | .alloc order, s => do
    let (got, b) ← s.buddy.alloc order
    match got with
    | some idx => some { s with buddy := b, live := (idx, order) :: s.live }
    | none => some { s with buddy := b }
  | .free idx order, s => do
    let (answer, b) ← s.buddy.free idx order
    match answer with
    | .ok () => some { s with buddy := b, live := s.live.erase (idx, order) }
    | .error _ => some { s with buddy := b }
  | .scribble idx words, s =>
    if s.buddy.isFree idx then some s
    else some { s with
      buddy := { s.buddy with links := update s.buddy.links idx words } }

end Fastros.Alloc
