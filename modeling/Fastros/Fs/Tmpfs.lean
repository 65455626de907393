import Fastros.Fs.Vfs

/-!
# tmpfs

The in-memory filesystem, as a container's writable layer uses it: no byte limit,
so no operation runs out of space. Inodes are numbers into one table. The pages
of a regular file are the bytes they hold, with holes read as zeros, and the kind
of an inode is that of its data.
-/

namespace Fastros.Tmpfs

open Fs

abbrev Ino := Nat

structure Attr where
  perm : Nat := 0
  uid : Nat := 0
  gid : Nat := 0
  rdev : Nat := 0
  deriving DecidableEq, Repr

abbrev Directory := AList fun _ : Name => Ino

inductive Data where
  | file (bytes : List UInt8)
  | dir (entries : Directory)
  | symlink (target : List UInt8)
  | fifo
  | charDevice
  | blockDevice
  | socket

def Data.kind : Data → FileType
  | .file _ => .regular
  | .dir _ => .directory
  | .symlink _ => .symlink
  | .fifo => .fifo
  | .charDevice => .charDevice
  | .blockDevice => .blockDevice
  | .socket => .socket

/-- What `create` makes; a symbolic link needs a target. -/
def Data.make : FileType → Except Errno Data
  | .regular => .ok (.file [])
  | .directory => .ok (.dir ∅)
  | .fifo => .ok .fifo
  | .charDevice => .ok .charDevice
  | .blockDevice => .ok .blockDevice
  | .socket => .ok .socket
  | .symlink => .error .einval

structure TmpNode where
  attr : Attr := {}
  data : Data := .fifo

structure TmpFs where
  inodes : Ino → TmpNode
  nextIno : Ino

namespace TmpFs

def rootIno : Ino := 1

def new : TmpFs where
  inodes := Function.update (fun _ => {}) rootIno { attr := { perm := 0o755 }, data := .dir ∅ }
  nextIno := 2

variable (fs : TmpFs)

def kind (v : Ino) : FileType := (fs.inodes v).data.kind

/-- What a directory holds under a name; nothing when it is no directory. -/
def entry (u : Ino) (n : Name) : Option Ino :=
  match (fs.inodes u).data with
  | .dir es => es.lookup n
  | _ => none

def setNode (v : Ino) (x : TmpNode) : TmpFs := { fs with inodes := Function.update fs.inodes v x }

def setData (v : Ino) (d : Data) : TmpFs := fs.setNode v { fs.inodes v with data := d }

/-- A new inode that no directory holds yet. -/
def alloc (x : TmpNode) : TmpFs :=
  { inodes := Function.update fs.inodes fs.nextIno x, nextIno := fs.nextIno + 1 }

def lookup (u : Ino) (n : Name) : Except Errno Ino :=
  match (fs.inodes u).data with
  | .dir es => match es.lookup n with
    | some v => .ok v
    | none => .error .enoent
  | _ => .error .enotdir

def addChild (u : Ino) (n : Name) (v : Ino) : Except Errno TmpFs :=
  match (fs.inodes u).data with
  | .dir es => match es.lookup n with
    | some _ => .error .eexist
    | none => .ok (fs.setData u (.dir (es.insert n v)))
  | _ => .error .enotdir

def create (u : Ino) (n : Name) (kind : FileType) (attr : Attr) : Except Errno (Ino × TmpFs) := do
  let data ← Data.make kind
  let attr := { attr with perm := attr.perm &&& 0o7777 }
  let fs' ← (fs.alloc { attr := attr, data := data }).addChild u n fs.nextIno
  return (fs.nextIno, fs')

def symlink (u : Ino) (n : Name) (target : List UInt8) (uid gid : Nat) :
    Except Errno (Ino × TmpFs) := do
  let attr := { perm := 0o777, uid := uid, gid := gid }
  let fs' ← (fs.alloc { attr := attr, data := .symlink target }).addChild u n fs.nextIno
  return (fs.nextIno, fs')

def link (u : Ino) (n : Name) (v : Ino) : Except Errno (Unit × TmpFs) :=
  if fs.kind v = .directory then .error .eperm
  else do
    let fs' ← fs.addChild u n v
    return ((), fs')

def unlink (u : Ino) (n : Name) : Except Errno (Unit × TmpFs) :=
  match (fs.inodes u).data with
  | .dir es => match es.lookup n with
    | none => .error .enoent
    | some v =>
      if fs.kind v = .directory then .error .eisdir
      else .ok ((), fs.setData u (.dir (es.erase n)))
  | _ => .error .enotdir

def isEmptyDir (v : Ino) : Bool :=
  match (fs.inodes v).data with
  | .dir es => es.entries.isEmpty
  | _ => false

def rmdir (u : Ino) (n : Name) : Except Errno (Unit × TmpFs) :=
  match (fs.inodes u).data with
  | .dir es => match es.lookup n with
    | none => .error .enoent
    | some v =>
      if fs.kind v ≠ .directory then .error .enotdir
      else if !fs.isEmptyDir v then .error .enotempty
      else .ok ((), fs.setData u (.dir (es.erase n)))
  | _ => .error .enotdir

/-- May an entry holding `ex` give way to the inode `v`? -/
def replaceable (v ex : Ino) : Except Errno Unit :=
  let isDir := fs.kind v = .directory
  let exDir := fs.kind ex = .directory
  if isDir ∧ ¬ exDir then .error .enotdir
  else if ¬ isDir ∧ exDir then .error .eisdir
  else if exDir ∧ fs.isEmptyDir ex = false then .error .enotempty
  else .ok ()

/-- The two edits of `rename`: take the old name away, then put the new one. -/
def move (u : Ino) (old : Name) (u' : Ino) (new : Name) (v : Ino) : TmpFs :=
  let fs' := match (fs.inodes u).data with
    | .dir es => fs.setData u (.dir (es.erase old))
    | _ => fs
  match (fs'.inodes u').data with
  | .dir es => fs'.setData u' (.dir (es.insert new v))
  | _ => fs'

/-- An entry that already is the same inode is left alone. -/
def rename (u : Ino) (old : Name) (u' : Ino) (new : Name) : Except Errno (Unit × TmpFs) := do
  let v ← fs.lookup u old
  match (fs.inodes u').data with
  | .dir es => match es.lookup new with
    | none => .ok ((), fs.move u old u' new v)
    | some ex =>
      if ex = v then .ok ((), fs)
      else do
        fs.replaceable v ex
        .ok ((), fs.move u old u' new v)
  | _ => .error .enotdir

def readdir (u : Ino) : Except Errno (List Name) :=
  match (fs.inodes u).data with
  -- the map of the source keeps its names sorted
  | .dir es => .ok (es.keys.insertionSort (· ≤ ·))
  | _ => .error .enotdir

/-- The largest offset a file may reach. -/
def maxOffset : Nat := 2 ^ 40

/-- `bytes` with `buf` stored at `off`; a gap is filled with zeros. -/
def overwrite (bytes : List UInt8) (off : Nat) (buf : List UInt8) : List UInt8 :=
  let padded := bytes ++ List.replicate (off + buf.length - bytes.length) 0
  padded.take off ++ buf ++ padded.drop (off + buf.length)

def writeAt (v off : Nat) (buf : List UInt8) : Except Errno (Nat × TmpFs) :=
  if maxOffset < off + buf.length then .error .efbig
  else match (fs.inodes v).data with
    | .file bytes => .ok (buf.length, fs.setData v (.file (overwrite bytes off buf)))
    | _ => .error .eisdir

structure SetAttr where
  perm : Option Nat := none
  uid : Option Nat := none
  gid : Option Nat := none
  size : Option Nat := none

def truncate (v size : Nat) : Except Errno TmpFs :=
  match (fs.inodes v).data with
  | .file bytes =>
    .ok (fs.setData v (.file ((bytes ++ List.replicate (size - bytes.length) 0).take size)))
  | _ => .error .eisdir

def setAttr (v : Ino) (a : SetAttr) : Except Errno (Unit × TmpFs) := do
  let fs' ← match a.size with
    | none => .ok fs
    | some size => fs.truncate v size
  let x := fs'.inodes v
  let attr := { x.attr with perm := (a.perm.map (· &&& 0o7777)).getD x.attr.perm,
                            uid := a.uid.getD x.attr.uid, gid := a.gid.getD x.attr.gid }
  return ((), fs'.setNode v { x with attr := attr })

end TmpFs

end Fastros.Tmpfs
