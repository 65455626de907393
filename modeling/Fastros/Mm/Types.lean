import Fastros.Lib.Stateful

/-!
# The memory manager's data

`usize` and `u64` are naturals; every addition the source performs on them is
`add`, which stops with `Stop.overflow` where the build (overflow checks on)
would panic. A leaf page-table entry is the record of the bits the kernel
reads. Entry `0` and a missing intermediate table are the same entry here,
because no function of the source tells them apart.
-/

namespace Fastros.Mm

/-- Why a kernel computation stops: an error code for the caller, or a panic. -/
inductive Errno where
  | einval | eexist | enomem | efault | eio | ebadf
  deriving DecidableEq, Repr

inductive Stop where
  | errno (e : Errno)
  | overflow
  | assertion
  deriving DecidableEq, Repr

abbrev PhysAddr := Nat

def wordSize : Nat := 0x10000000000000000
def pageSize : Nat := 4096
def userStart : Nat := 0x10000
def userEnd : Nat := 0x7FFFFFFFF000
def userMmapTop : Nat := 0x7F0000000000
/-- Pages one reclaim pass tries to free when memory is exhausted. -/
def reclaimBatch : Nat := 32

/-- `a + b` on `usize`/`u64`, with the overflow check of the build. -/
def add {σ : Type} (a b : Nat) : EStateM Stop σ Nat :=
  if a + b < wordSize then pure (a + b) else throw .overflow

def alignDown (v : Nat) : Nat := v / pageSize * pageSize

/-- `(v + a - 1) & !(a - 1)`: the sum `v + a` is formed first and may trap. -/
def alignUp {σ : Type} (v : Nat) : EStateM Stop σ Nat := do
  let s ← add v pageSize
  return alignDown (s - 1)

/-- What a mapping permits. -/
structure Prot where
  read : Bool := false
  write : Bool := false
  exec : Bool := false
  deriving DecidableEq, Repr

/-- A private file mapping: `offset` is the file offset of the region's start,
`length` the bytes of real content from there; the rest is a zero tail. -/
structure FileBacking where
  file : Nat
  offset : Nat
  length : Nat
  deriving DecidableEq, Repr

/-- `FileBacking::shifted`. -/
def FileBacking.shifted {σ : Type} (b : FileBacking) (delta : Nat) :
    EStateM Stop σ FileBacking := do
  let offset ← add b.offset delta
  return { b with offset := offset, length := b.length - delta }

def shiftBacking {σ : Type} (b : Option FileBacking) (delta : Nat) :
    EStateM Stop σ (Option FileBacking) :=
  match b with
  | none => pure none
  | some fb => do
    let fb' ← fb.shifted delta
    return some fb'

/-- One contiguous mapping. `shared` names the object whose pages it shows,
keyed by `sharedBase + (page - start)`. -/
structure Region where
  start : Nat
  «end» : Nat
  prot : Prot
  growsDown : Bool := false
  backing : Option FileBacking := none
  shared : Option Nat := none
  sharedBase : Nat := 0
  deriving DecidableEq, Repr

/-- A leaf page-table entry. `addr` holds bits 12 and up: the frame of a present
entry, `slot << 12` of a swapped one. -/
structure Pte where
  present : Bool := false
  writable : Bool := false
  user : Bool := false
  accessed : Bool := false
  dirty : Bool := false
  cow : Bool := false
  swapped : Bool := false
  noExecute : Bool := false
  addr : Nat := 0
  deriving DecidableEq, Repr

def toPageFlags (prot : Prot) : Pte :=
  { user := true, writable := prot.write, noExecute := !prot.exec }

/-- A user address space: its regions, the leaf entries of its lower half and
the page-table frames (level and index path) that hold them. -/
structure AddressSpace where
  pml4 : PhysAddr := 0
  regions : List Region := []
  pt : Nat → Pte := fun _ => {}
  tables : List ((Nat × Nat) × PhysAddr) := []
  brk : Nat := 0
  brkBase : Nat := 0
  mmapTop : Nat := userMmapTop
  container : Option String := none
  committed : Nat := 0

structure Cgroup where
  memLimitPages : Nat := 0
  swapLimitPages : Nat := 0
  memPages : Int := 0
  swapPages : Int := 0

/-- The swap device: which slots are taken, what they hold, and whether a
transfer of a slot succeeds. -/
structure Swap where
  enabled : Bool := false
  slots : Nat := 0
  used : Nat → Bool := fun _ => false
  data : Nat → Nat → UInt8 := fun _ _ => 0
  writeOk : Nat → Bool := fun _ => true
  readOk : Nat → Bool := fun _ => true

/-- What the memory manager asks of an open file: a (possibly short) positioned
read, and the shared page set of a filesystem that has one. -/
structure File where
  pread : Nat → Nat → List UInt8 := fun _ _ => []
  sharedMmap : Option Nat := none

/-- A frame allocator: single frames are handed out and taken back, `free`
refusing a frame that is not allocated. -/
structure FrameAllocator (φ : Type) where
  alloc : φ → Option (PhysAddr × φ)
  free : φ → PhysAddr → Option φ
  isFree : φ → PhysAddr → Prop
  alloc_isFree : ∀ {s p s'}, alloc s = some (p, s') → isFree s p
  alloc_iff : ∀ {s p s'}, alloc s = some (p, s') → ∀ q, isFree s' q ↔ isFree s q ∧ q ≠ p
  alloc_none : ∀ {s}, alloc s = none → ∀ q, ¬ isFree s q
  free_iff : ∀ {s p s'}, free s p = some s' → ∀ q, isFree s' q ↔ isFree s q ∨ q = p

/-- Everything the memory manager reads and writes. Spaces and shared objects
are named by numbers below `nspaces` and `nobjs`; `held` are the objects an
open file or a System V segment keeps alive. -/
structure Kernel (φ : Type) where
  frames : φ
  refFrames : Nat
  refs : PhysAddr → Nat
  mem : PhysAddr → Nat → UInt8
  kpt : Nat → Pte
  spaces : Nat → AddressSpace
  nspaces : Nat
  objs : Nat → List (Nat × PhysAddr)
  nobjs : Nat
  held : Nat → Bool
  files : Nat → File
  swap : Swap
  cgroups : String → Option Cgroup

abbrev KM (φ : Type) := EStateM Stop (Kernel φ)

end Fastros.Mm
