import Fastros.Fs.Vfs
import Fastros.Lib.Bytes
import Fastros.Lib.Stateful

/-!
# An open file and the system calls on it

`InodeFile` and the descriptor calls that reach it, over an arbitrary inode. The
state is the open file description with its inode and the caller's memory;
`returned` collects the bytes that calls copied to the caller. A call's buffer is
at most 1 MiB, as in the source.
-/

namespace Fastros.Fs

open Lib.Stateful
open Lib.Bytes (fetch fromLeBytes store Writable)

def oRdonly : UInt32 := 0
def oWronly : UInt32 := 1
def oRdwr : UInt32 := 2
def oAccmode : UInt32 := 3
def oAppend : UInt32 := 0o2000
def oNonblock : UInt32 := 0o4000
def setflMask : UInt32 := oAppend ||| oNonblock

/-- An inode in state `σ`: what the calls use of it, and the bytes it holds.
Reading may touch timestamps, never the contents. -/
structure InodeOps (σ : Type) where
  contents : σ → List UInt8
  metadata : σ → Except Errno (FileType × Nat)
  readAt : Nat → Nat → σ → Except Errno (List UInt8) × σ
  writeAt : Nat → List UInt8 → σ → Except Errno Nat × σ
  setSize : Nat → σ → Except Errno Unit × σ
  readAt_contents : ∀ off len s, contents (readAt off len s).2 = contents s

structure OpenFile (σ : Type) where
  flags : UInt32
  offset : Nat := 0
  inode : σ
  mem : Nat → Option UInt8 := fun _ => none
  writable : Nat → Bool := fun _ => true
  returned : List UInt8 := []

variable {σ : Type}

abbrev FM (σ : Type) := EStateM Errno (OpenFile σ)

def OpenFile.readable (f : OpenFile σ) : Bool := f.flags &&& oAccmode != oWronly

def OpenFile.writeable (f : OpenFile σ) : Bool := f.flags &&& oAccmode != oRdonly

/-- `uaccess::copy_from`. -/
def copyFrom (addr n : Nat) : FM σ (List UInt8) := do
  let f ← get
  match fetch f.mem addr n with
  | some bytes => pure bytes
  | none => throw .efault

/-- `uaccess::copy_to`. -/
def copyTo (addr : Nat) (src : List UInt8) : FM σ Unit := do
  let f ← get
  if Writable f.mem addr f.writable src.length then
    modify fun f => { f with
      mem := store f.mem addr src
      returned := f.returned ++ src }
  else throw .efault

/-- `read_iovec`. -/
def readIovec (ptr : Nat) : Nat → FM σ (List (Nat × Nat))
  | 0 => pure []
  | cnt + 1 => do
    let base ← copyFrom ptr 8
    let len ← copyFrom (ptr + 8) 8
    let rest ← readIovec (ptr + 16) cnt
    return (fromLeBytes base, fromLeBytes len) :: rest

section

variable (ops : InodeOps σ)

def inodeMetadata : FM σ (FileType × Nat) := do
  let f ← get
  match ops.metadata f.inode with
  | .ok m => pure m
  | .error e => throw e

def inodeReadAt (off len : Nat) : FM σ (List UInt8) := do
  let f ← get
  modify fun f => { f with inode := (ops.readAt off len f.inode).2 }
  match (ops.readAt off len f.inode).1 with
  | .ok bytes => pure bytes
  | .error e => throw e

def inodeWriteAt (off : Nat) (buf : List UInt8) : FM σ Nat := do
  let f ← get
  modify fun f => { f with inode := (ops.writeAt off buf f.inode).2 }
  match (ops.writeAt off buf f.inode).1 with
  | .ok n => pure n
  | .error e => throw e

def inodeSetSize (len : Nat) : FM σ Unit := do
  let f ← get
  modify fun f => { f with inode := (ops.setSize len f.inode).2 }
  match (ops.setSize len f.inode).1 with
  | .ok _ => pure ()
  | .error e => throw e

def setOffset (off : Nat) : FM σ Unit := modify fun f => { f with offset := off }

def fileRead (len : Nat) : FM σ (List UInt8) := do
  let f ← get
  if f.readable then do
    let m ← inodeMetadata ops
    if m.1 = .directory then throw .eisdir
    else do
      let bytes ← inodeReadAt ops f.offset len
      setOffset (f.offset + bytes.length)
      return bytes
  else throw .ebadf

/-- Where `write` writes: at the end with `O_APPEND`. -/
def writePosition : FM σ Nat := do
  let f ← get
  if f.flags &&& oAppend ≠ 0 then do
    let m ← inodeMetadata ops
    return m.2
  else pure f.offset

def fileWrite (buf : List UInt8) : FM σ Nat := do
  let f ← get
  if f.writeable then do
    let off ← writePosition ops
    let n ← inodeWriteAt ops off buf
    setOffset (off + n)
    return n
  else throw .ebadf

/-- No access check: `InodeFile::pread` goes straight to the inode. -/
def filePread (off len : Nat) : FM σ (List UInt8) := inodeReadAt ops off len

/-- No access check: `InodeFile::pwrite` goes straight to the inode. -/
def filePwrite (off : Nat) (buf : List UInt8) : FM σ Nat := inodeWriteAt ops off buf

def fileTruncate (len : Nat) : FM σ Unit := do
  let f ← get
  if f.writeable then inodeSetSize ops len else throw .ebadf

def fileSetFlags (fl : UInt32) : FM σ Unit :=
  modify fun f => { f with flags := (f.flags &&& ~~~setflMask) ||| (fl &&& setflMask) }

inductive Whence where
  | set (p : Int)
  | cur (d : Int)
  | end_ (d : Int)

/-- `as i64` of a `u64`. -/
def toI64 (n : Nat) : Int := if n < 2 ^ 63 then n else (n : Int) - 2 ^ 64

def inI64 (n : Int) : Prop := -2 ^ 63 ≤ n ∧ n < 2 ^ 63

instance (n : Int) : Decidable (inI64 n) := inferInstanceAs (Decidable (_ ∧ _))

/-- The new offset; `checked_add` gives `EOVERFLOW`. -/
def seekTarget (w : Whence) : FM σ Int := do
  match w with
  | .set p => pure p
  | .cur d => do
    let f ← get
    if inI64 (toI64 f.offset + d) then pure (toI64 f.offset + d) else throw .eoverflow
  | .end_ d => do
    let m ← inodeMetadata ops
    if inI64 (toI64 m.2 + d) then pure (toI64 m.2 + d) else throw .eoverflow

def fileSeek (w : Whence) : FM σ Nat := do
  let new ← seekTarget ops w
  if new < 0 then throw .einval
  else do
    setOffset new.toNat
    return new.toNat

def sysRead (buf len : Nat) : FM σ Nat := do
  let f ← get
  if f.readable then do
    let tmp ← fileRead ops (min len (2 ^ 20))
    copyTo buf tmp
    return tmp.length
  else throw .ebadf

def sysWrite (buf len : Nat) : FM σ Nat := do
  let f ← get
  if f.writeable then do
    let tmp ← copyFrom buf (min len (2 ^ 20))
    fileWrite ops tmp
  else throw .ebadf

def sysPread (buf len off : Nat) : FM σ Nat := do
  let tmp ← filePread ops off (min len (2 ^ 20))
  copyTo buf tmp
  return tmp.length

def sysPwrite (buf len off : Nat) : FM σ Nat := do
  let tmp ← copyFrom buf (min len (2 ^ 20))
  filePwrite ops off tmp

/-- The loop of the vectored calls: go on while a transfer is complete. -/
def vectored (transfer : Nat → Nat → Nat → FM σ Nat) : List (Nat × Nat) → Nat → FM σ Nat
  | [], total => pure total
  | (base, len) :: rest, total => do
    let n ← transfer base len total
    if n < len then pure (total + n) else vectored transfer rest (total + n)

def sysReadv (iov cnt : Nat) : FM σ Nat := do
  let v ← readIovec iov cnt
  vectored (fun base len _ => sysRead ops base len) v 0

/-- `writev`, `preadv` and `pwritev` skip empty buffers. -/
def nonempty (v : List (Nat × Nat)) : List (Nat × Nat) := v.filter fun b => b.2 != 0

def sysWritev (iov cnt : Nat) : FM σ Nat := do
  let v ← readIovec iov cnt
  vectored (fun base len _ => sysWrite ops base len) (nonempty v) 0

/-- `total` bytes have been read, so the next position is `off + total`. -/
def sysPreadv (iov cnt : Nat) (off : Int) : FM σ Nat :=
  if off < 0 then sysReadv ops iov cnt
  else do
    let v ← readIovec iov cnt
    vectored (fun base len total => sysPread ops base len (off.toNat + total)) (nonempty v) 0

def sysPwritev (iov cnt : Nat) (off : Int) : FM σ Nat :=
  if off < 0 then sysWritev ops iov cnt
  else do
    let v ← readIovec iov cnt
    vectored (fun base len total => sysPwrite ops base len (off.toNat + total)) (nonempty v) 0

def sysLseek (off : Int) (whence : Nat) : FM σ Nat :=
  match whence with
  | 0 => fileSeek ops (.set off)
  | 1 => fileSeek ops (.cur off)
  | 2 => fileSeek ops (.end_ off)
  | _ => throw .einval

def sysFtruncate (len : Nat) : FM σ Nat := do
  fileTruncate ops len
  return 0

def sysFallocate (mode : Int) (offset len : Nat) : FM σ Nat :=
  if mode = 0 then
    if offset + len < 2 ^ 64 then do
      let m ← inodeMetadata ops
      if offset + len > m.2 then do
        fileTruncate ops (offset + len)
        return 0
      else return 0
    else throw .efbig
  else pure 0

inductive FileCall where
  | read (buf len : Nat)
  | write (buf len : Nat)
  | pread (buf len off : Nat)
  | pwrite (buf len off : Nat)
  | readv (iov cnt : Nat)
  | writev (iov cnt : Nat)
  | preadv (iov cnt : Nat) (off : Int)
  | pwritev (iov cnt : Nat) (off : Int)
  | lseek (off : Int) (whence : Nat)
  | setfl (arg : UInt32)
  | ftruncate (len : Nat)
  | fallocate (mode : Int) (offset len : Nat)

def FileCall.perform : FileCall → FM σ Nat
  | .read buf len => sysRead ops buf len
  | .write buf len => sysWrite ops buf len
  | .pread buf len off => sysPread ops buf len off
  | .pwrite buf len off => sysPwrite ops buf len off
  | .readv iov cnt => sysReadv ops iov cnt
  | .writev iov cnt => sysWritev ops iov cnt
  | .preadv iov cnt off => sysPreadv ops iov cnt off
  | .pwritev iov cnt off => sysPwritev ops iov cnt off
  | .lseek off whence => sysLseek ops off whence
  | .setfl arg => do
    fileSetFlags arg
    return 0
  | .ftruncate len => sysFtruncate ops len
  | .fallocate mode offset len => sysFallocate ops mode offset len

/-- A call made with the given user memory, whichever way it ends. -/
def OpenFile.step (c : (Nat → Option UInt8) × FileCall) (f : OpenFile σ) : OpenFile σ :=
  stateOf (c.2.perform ops { f with mem := c.1 })

end

end Fastros.Fs
