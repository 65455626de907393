import Fastros.Lib.Checked

/-!
# The slab allocator

`lib/alloc/src/slab.rs`: small objects of eight size classes, carved out of blocks
of pages. A block starts with a header; the free objects of a block are on a list
threaded through their first words, and the blocks of a class that have a free
object are on a doubly linked list threaded through their headers.

Memory is a map from the addresses of words to words; addresses and words are
numbers below `2^64`. `0` is the null pointer. A counter that would go below zero
and a list that ends too early answer `none`.
-/

namespace Fastros.Alloc.Slabs

open Lib (Checked.sub)
open Function (update)

def pageSize : Nat := 4096
def wordSize : Nat := 8
def sizeClasses : List Nat := [16, 32, 64, 128, 256, 512, 1024, 2048]
/-- Pages per slab, as an order, for each class. -/
def slabOrders : List Nat := [0, 0, 0, 0, 0, 1, 2, 2]
def headerSize : Nat := 64
def headerMagic : Nat := 0x5AB51AB5F4572005

def classSize (c : Nat) : Nat := sizeClasses.getD c 0
def slabOrder (c : Nat) : Nat := slabOrders.getD c 0

/-! The header of a slab: where its fields are. -/

def classField : Nat := 8
def inUseField : Nat := 16
def capacityField : Nat := 24
def freeField : Nat := 32
def nextField : Nat := 40
def prevField : Nat := 48
def onPartialField : Nat := 56

inductive SlabError where
  | notASlabObject
  | misaligned
  | doubleFree
  deriving DecidableEq, Repr

/-- The smallest class that fits `size` bytes aligned to `align`. -/
def classFor (size align : Nat) : Option Nat :=
  sizeClasses.findIdx? fun c => max (max size align) 1 ≤ c

def slabBytes (c : Nat) : Nat := pageSize * 2 ^ slabOrder c

def firstOffset (c : Nat) : Nat := max (classSize c) headerSize

def capacity (c : Nat) : Nat := (slabBytes c - firstOffset c) / classSize c

/-- The bytes of a word in the opposite order. -/
def swapBytes (n : Nat) : Nat :=
  (List.range wordSize).foldl (fun acc i => acc * 256 + n / 256 ^ i % 256) 0

/-- `heads` are the partial lists. `pages` is what the page provider has handed out:
addresses and orders. -/
structure Slab where
  mem : Nat → Nat
  secret : Nat
  heads : Nat → Nat
  empty : Nat → Nat
  slabs : Nat → Nat
  inUse : Nat → Nat
  pages : List (Nat × Nat)

namespace Slab

def new (mem : Nat → Nat) (secret : Nat) : Slab where
  mem := mem
  secret := secret ||| 1
  heads := fun _ => 0
  empty := fun _ => 0
  slabs := fun _ => 0
  inUse := fun _ => 0
  pages := []

def write (st : Slab) (a v : Nat) : Slab := { st with mem := update st.mem a v }

/-- Zero `n` bytes from `a` on. -/
def zero (st : Slab) (a n : Nat) : Slab :=
  { st with mem := fun x => if a ≤ x ∧ x < a + n then 0 else st.mem x }

/-- Encode, and being an exclusive or also decode, a list pointer stored at `slot`. -/
def encode (st : Slab) (ptr slot : Nat) : Nat := ptr ^^^ st.secret ^^^ swapBytes slot

def linkPartial (st : Slab) (c slab : Nat) : Slab :=
  let head := st.heads c
  let st := ((st.write (slab + nextField) head).write (slab + prevField) 0).write
    (slab + onPartialField) 1
  let st := if head ≠ 0 then st.write (head + prevField) slab else st
  { st with heads := update st.heads c slab }

def unlinkPartial (st : Slab) (c slab : Nat) : Slab :=
  let next := st.mem (slab + nextField)
  let prev := st.mem (slab + prevField)
  let st := if prev ≠ 0 then st.write (prev + nextField) next
    else { st with heads := update st.heads c next }
  let st := if next ≠ 0 then st.write (next + prevField) prev else st
  ((st.write (slab + onPartialField) 0).write (slab + nextField) 0).write (slab + prevField) 0

/-- A block does not overlap another. -/
def disjoint (a order b order' : Nat) : Bool :=
  a + pageSize * 2 ^ order ≤ b || b + pageSize * 2 ^ order' ≤ a

/-- The provider hands out a naturally aligned block of its choice that lies in memory
and apart from those it has handed out, or none. -/
def allocPages (st : Slab) (order : Nat) (offer : Option Nat) : Option (Nat × Slab) := do
  let a ← offer
  if a ≠ 0 ∧ a % (pageSize * 2 ^ order) = 0 ∧ a + pageSize * 2 ^ order ≤ 2 ^ 64 ∧
      st.pages.all (fun p => disjoint a order p.1 p.2) then
    some (a, { st with pages := (a, order) :: st.pages })
  else none

/-- Only a block that was handed out can be returned. -/
def freePages (st : Slab) (addr order : Nat) : Option Slab :=
  if (addr, order) ∈ st.pages then some { st with pages := st.pages.erase (addr, order) } else none

/-- Thread the free list through the first `n` objects, from the last to the first. -/
def thread (c slab : Nat) : (n next : Nat) → Slab → Nat × Slab
  | 0, next, st => (next, st)
  | n + 1, next, st =>
    let obj := slab + firstOffset c + n * classSize c
    thread c slab n obj (st.write obj (st.encode next obj))

def grow (st : Slab) (c : Nat) (offer : Option Nat) : Option Slab := do
  let (slab, st) ← st.allocPages (slabOrder c) offer
  let st := ((((st.zero slab (slabBytes c)).write slab headerMagic).write (slab + classField) c).write
    (slab + capacityField) (capacity c))
  let (next, st) := thread c slab (capacity c) 0 st
  let st := st.write (slab + freeField) (st.encode next (slab + freeField))
  let st := { st with
    slabs := update st.slabs c (st.slabs c + 1)
    empty := update st.empty c (st.empty c + 1) }
  some (st.linkPartial c slab)

/-- Take the first free object of the first slab on the partial list. -/
def takeFirst (st : Slab) (c : Nat) : Option (Nat × Slab) := do
  let slab := st.heads c
  let obj := st.encode (st.mem (slab + freeField)) (slab + freeField)
  if obj = 0 then none
  else
    let next := st.encode (st.mem obj) obj
    let st := (st.write (slab + freeField) (st.encode next (slab + freeField))).write obj 0
    let empty ← if st.mem (slab + inUseField) = 0 then Checked.sub (st.empty c) 1
      else some (st.empty c)
    let st : Slab := { st.write (slab + inUseField) (st.mem (slab + inUseField) + 1) with
      empty := update st.empty c empty
      inUse := update st.inUse c (st.inUse c + 1) }
    let st := if next = 0 then st.unlinkPartial c slab else st
    some (obj, st)

/-- Allocate an object of class `c`; no object if the provider has no pages. -/
def alloc (st : Slab) (c : Nat) (offer : Option Nat) : Option (Option Nat × Slab) :=
  if st.heads c = 0 then
    match st.grow c offer with
    | none => some (none, st)
    | some st => do
      let (obj, st) ← st.takeFirst c
      some (some obj, st)
  else do
    let (obj, st) ← st.takeFirst c
    some (some obj, st)

/-- The object is zero except for its first word, and that decodes to an object of the
slab or to the end of the list. -/
def looksFree (st : Slab) (slab obj size : Nat) : Bool :=
  let next := st.mem obj ^^^ st.secret ^^^ swapBytes obj
  let bytes := slabBytes (st.mem (slab + classField))
  let isPlausible := next = 0 ∨ (next / bytes * bytes = slab ∧ min headerSize size ≤ next - slab ∧
    (next - slab) % size = 0)
  isPlausible && (List.range' 1 (size / wordSize - 1)).all fun i => st.mem (obj + wordSize * i) = 0

/-- Zero the object and put it on the free list of its slab. -/
def putBack (st : Slab) (c slab obj : Nat) : Option Slab := do
  let st := st.zero obj (classSize c)
  let head := st.encode (st.mem (slab + freeField)) (slab + freeField)
  let st := st.write obj (st.encode head obj)
  let st := st.write (slab + freeField) (st.encode obj (slab + freeField))
  let inUse ← Checked.sub (st.mem (slab + inUseField)) 1
  let total ← Checked.sub (st.inUse c) 1
  let st : Slab :=
    { st.write (slab + inUseField) inUse with inUse := update st.inUse c total }
  some (if st.mem (slab + onPartialField) = 0 then st.linkPartial c slab else st)

/-- Keep one empty slab per class; give back the rest. -/
def release (st : Slab) (c slab : Nat) : Option Slab :=
  if st.mem (slab + inUseField) = 0 then
    if 1 ≤ st.empty c then do
      let st := (st.unlinkPartial c slab).write slab 0
      let slabs ← Checked.sub (st.slabs c) 1
      freePages { st with slabs := update st.slabs c slabs } slab (slabOrder c)
    else some { st with empty := update st.empty c (st.empty c + 1) }
  else some st

/-- Return an object to its slab. -/
def free (st : Slab) (obj c : Nat) : Option (Except SlabError Unit × Slab) :=
  let slab := obj / slabBytes c * slabBytes c
  if slab = 0 ∨ st.mem slab ≠ headerMagic ∨ st.mem (slab + classField) ≠ c then
    some (.error .notASlabObject, st)
  else
    let off := obj - slab
    if off < firstOffset c ∨ (off - firstOffset c) % classSize c ≠ 0 then
      some (.error .misaligned, st)
    else if st.looksFree slab obj (classSize c) then some (.error .doubleFree, st)
    else do
      let st ← st.putBack c slab obj
      let st ← st.release c slab
      some (.ok (), st)

end Slab

/-- What is asked for: a size, and an alignment, which is a power of two. -/
structure Layout where
  size : Nat
  alignShift : Nat
  deriving DecidableEq

def Layout.align (l : Layout) : Nat := 2 ^ l.alignShift

/-- An object that was handed out. -/
structure Object where
  ptr : Nat
  cls : Nat
  layout : Layout
  deriving DecidableEq

/-- The allocator and the objects its callers have. -/
structure Heap where
  slab : Slab
  live : List Object

def boot (mem : Nat → Nat) (secret : Nat) : Heap := ⟨.new mem secret, []⟩

/-- `offer` is the block the page provider would hand out. -/
inductive Event where
  | alloc (layout : Layout) (offer : Option Nat)
  | free (obj : Object)
  | write (a v : Nat)

/-- The address lies in one of the blocks. -/
def inPages (pages : List (Nat × Nat)) (a : Nat) : Bool :=
  pages.any fun p => p.1 ≤ a && a < p.1 + pageSize * 2 ^ p.2

def inLive (live : List Object) (a : Nat) : Bool :=
  live.any fun o => o.ptr ≤ a && a < o.ptr + classSize o.cls

/-- Callers free only objects they have, and write only into those or outside the
allocator's pages. A free that is refused changes nothing. -/
def step : Event → Heap → Option Heap
  | .alloc layout offer, h =>
    match classFor layout.size layout.align with
    | none => some h
    | some c => do
      let (got, slab) ← h.slab.alloc c offer
      match got with
      | none => some { h with slab := slab }
      | some ptr => some ⟨slab, ⟨ptr, c, layout⟩ :: h.live⟩
  | .free obj, h =>
    if obj ∈ h.live then do
      let (answer, slab) ← h.slab.free obj.ptr obj.cls
      match answer with
      | .ok () => some ⟨slab, h.live.erase obj⟩
      | .error _ => some { h with slab := slab }
    else some h
  | .write a v, h =>
    if inPages h.slab.pages a && !inLive h.live a then some h
    else some { h with slab := h.slab.write a v }

end Fastros.Alloc.Slabs
