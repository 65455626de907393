import Fastros.Fs.Vfs
import Fastros.Lib.Stateful

/-!
# Names and inodes of ext2

The part of an ext2 filesystem that names and counts inodes: the inode bitmap with its
counters, the mode and the link count of each inode and the entries of each directory.
Blocks are not modelled: whether an entry or a first block still finds a place is given
with each call, as is the group with the most free inodes and blocks. The device answers
every read and write.
-/

namespace Fastros.Fs.Ext2

open Function (update)

inductive Error where
  | readOnly | nameTooLong | notDir | isDir | exists_ | notFound | notEmpty | tooManyLinks
  | noSpace | invalid | corrupt
  deriving DecidableEq, Repr

structure Inode where
  mode : Nat
  links : Nat
  deriving DecidableEq, Repr

def formatMask : Nat := 0xF000
def dirFormat : Nat := 0x4000
def linkFormat : Nat := 0xA000

def Inode.isDir (i : Inode) : Bool := i.mode &&& formatMask = dirFormat

def rootIno : Nat := 2

/-- A mounted filesystem. `groups` has the free inodes of each group as its descriptor counts
them. `changes` is not in the source: the inode numbers freed or handed out since the
filesystem was last locked. -/
structure E2 where
  readOnly : Bool
  blockSize : Nat
  inodesCount : Nat
  inodesPerGroup : Nat
  firstIno : Nat
  freeInodes : Nat
  groups : List Nat
  used : Nat → Bool
  inodes : Nat → Inode
  entries : Nat → List (Name × Nat)
  changes : List Nat

namespace E2

def inode (s : E2) (ino : Nat) : Except Error Inode :=
  if ino = 0 ∨ s.inodesCount < ino then .error .invalid else .ok (s.inodes ino)

def lookup (s : E2) (dir : Nat) (name : Name) : Except Error Nat :=
  match s.inode dir with
  | .error e => .error e
  | .ok i =>
    if !i.isDir then .error .notDir
    else
      match (s.entries dir).lookup name with
      | some ino => .ok ino
      | none => .error .notFound

def dirIsEmpty (s : E2) (dir : Nat) : Except Error Bool :=
  match s.inode dir with
  | .error e => .error e
  | .ok i =>
    if !i.isDir then .error .notDir
    else .ok ((s.entries dir).all fun e => e.1 = dot ∨ e.1 = dotdot)

/-- The first free bit of a group; the first group starts with reserved inodes. -/
def freeBit (s : E2) (g : Nat) : Option Nat :=
  let firstOk := if g = 0 then s.firstIno - 1 else 0
  (List.range' firstOk (s.inodesPerGroup - firstOk)).find? fun i =>
    !s.used (g * s.inodesPerGroup + i + 1)

end E2

abbrev E2M := EStateM Error E2

/-- A question that leaves the filesystem as it is. -/
def ask {α : Type} (f : E2 → Except Error α) : E2M α := fun s =>
  match f s with
  | .ok a => .ok a s
  | .error e => .error e s

def checkRw : E2M Unit := ask fun s => if s.readOnly then .error .readOnly else .ok ()

def readInode (ino : Nat) : E2M Inode := ask fun s => s.inode ino

def lookup (dir : Nat) (name : Name) : E2M Nat := ask fun s => s.lookup dir name

/-- The answer of a lookup, `none` for any error. -/
def lookupOk (dir : Nat) (name : Name) : E2M (Option Nat) :=
  ask fun s => .ok (s.lookup dir name).toOption

def dirIsEmpty (dir : Nat) : E2M Bool := ask fun s => s.dirIsEmpty dir

def writeInode (ino : Nat) (i : Inode) : E2M Unit := do
  let _ ← readInode ino
  modify fun s => { s with inodes := update s.inodes ino i }

/-- An inode written with new contents: those of a directory are its entries. -/
def writeNew (ino : Nat) (i : Inode) (es : List (Name × Nat)) : E2M Unit := do
  writeInode ino i
  modify fun s => { s with entries := update s.entries ino es }

def allocFrom : List Nat → E2M Nat
  | [] => throw .noSpace
  | g :: gs => do
    let s ← get
    if s.groups.getD g 0 = 0 then allocFrom gs
    else
      match s.freeBit g with
      | none => do
        modify fun s => { s with groups := s.groups.set g 0 }
        allocFrom gs
      | some bit => do
        let ino := g * s.inodesPerGroup + bit + 1
        modify fun s => { s with
          used := update s.used ino true
          groups := s.groups.set g (s.groups.getD g 0 - 1)
          freeInodes := s.freeInodes - 1
          changes := ino :: s.changes }
        pure ino

/-- `emptiest` is the group that a directory goes to; files stay near their directory. -/
def allocInode (emptiest parent : Nat) (dir : Bool) : E2M Nat := do
  checkRw
  let s ← get
  if s.freeInodes = 0 then throw .noSpace
  else do
    let start := if dir then emptiest else (max parent 1 - 1) / s.inodesPerGroup
    allocFrom ((List.range s.groups.length).map fun k => (start + k) % s.groups.length)

def freeInode (ino : Nat) : E2M Unit := do
  let s ← get
  if !s.used ino then throw .corrupt
  else do
    let g := (ino - 1) / s.inodesPerGroup
    modify fun s => { s with
      used := update s.used ino false
      groups := s.groups.set g (s.groups.getD g 0 + 1)
      freeInodes := s.freeInodes + 1
      changes := ino :: s.changes }

def setFirst (name : Name) (ino : Nat) : List (Name × Nat) → List (Name × Nat)
  | [] => []
  | e :: es => if e.1 = name then (name, ino) :: es else e :: setFirst name ino es

/-- Whether a new entry and a first block find room, and the emptiest group. -/
structure Room where
  entry : Bool
  block : Bool
  emptiest : Nat
  deriving DecidableEq, Repr

def addEntry (room : Room) (dir : Nat) (name : Name) (ino : Nat) : E2M Unit :=
  if name = [] ∨ 255 < name.length then throw .nameTooLong
  else do
    let _ ← readInode dir
    if !room.entry then throw .noSpace
    else modify fun s => { s with
      entries := update s.entries dir (s.entries dir ++ [(name, ino)]) }

def removeEntry (dir : Nat) (name : Name) : E2M Unit := do
  let _ ← readInode dir
  let s ← get
  if ((s.entries dir).lookup name).isNone then throw .notFound
  else modify fun s => { s with
    entries := update s.entries dir ((s.entries dir).eraseP fun e => e.1 = name) }

def setEntry (dir : Nat) (name : Name) (ino : Nat) : E2M Unit := do
  let _ ← readInode dir
  let s ← get
  if ((s.entries dir).lookup name).isNone then throw .notFound
  else modify fun s => { s with
    entries := update s.entries dir (setFirst name ino (s.entries dir)) }

/-- The inode and its blocks are freed; its size is zero, so that no entry is left. -/
def release (ino : Nat) : E2M Unit := do
  let i ← readInode ino
  writeNew ino { i with mode := 0 } []
  freeInode ino

/-- Free an unlinked inode (nothing if it still has links). -/
def evict (ino : Nat) : E2M Unit := do
  let i ← readInode ino
  if 0 < i.links ∨ i.mode = 0 then pure () else release ino

def mkdir (room : Room) (parent : Nat) (name : Name) (mode : Nat) : E2M Nat := do
  checkRw
  if 255 < name.length then throw .nameTooLong
  else do
    let p ← readInode parent
    if !p.isDir then throw .notDir
    else do
      let old ← lookupOk parent name
      if old.isSome then throw .exists_
      else if 32000 ≤ p.links then throw .tooManyLinks
      else do
        let ino ← allocInode room.emptiest parent true
        if !room.block then do
          freeInode ino
          throw .noSpace
        else do
          writeNew ino ⟨dirFormat ||| (mode &&& 0o7777), 2⟩ [(dot, ino), (dotdot, parent)]
          -- a failure from here on leaves the inode allocated
          addEntry room parent name ino
          let p ← readInode parent
          writeInode parent { p with links := p.links + 1 }
          pure ino

/-- The entry of a new file; without one its inode is free again. -/
def enter (room : Room) (dir : Nat) (name : Name) (ino : Nat) : E2M Nat := fun s =>
  match addEntry room dir name ino s with
  | .ok _ s => .ok ino s
  | .error e s => (do freeInode ino; throw e : E2M Nat) s

def create (room : Room) (dir : Nat) (name : Name) (mode : Nat) : E2M Nat := do
  checkRw
  if mode &&& formatMask = dirFormat then mkdir room dir name mode
  else if 255 < name.length then throw .nameTooLong
  else do
    let d ← readInode dir
    if !d.isDir then throw .notDir
    else do
      let old ← lookupOk dir name
      if old.isSome then throw .exists_
      else do
        let ino ← allocInode room.emptiest dir false
        writeNew ino ⟨mode, 1⟩ []
        enter room dir name ino

/-- A symbolic link; a target of 60 bytes or more takes a block. -/
def symlink (room : Room) (dir : Nat) (name target : Name) : E2M Nat := do
  checkRw
  let s ← get
  if target = [] ∨ s.blockSize ≤ target.length then throw .nameTooLong
  else do
    let old ← lookupOk dir name
    if old.isSome then throw .exists_
    else do
      let ino ← allocInode room.emptiest dir false
      if 60 ≤ target.length ∧ !room.block then throw .noSpace
      else do
        writeNew ino ⟨linkFormat ||| 0o777, 1⟩ []
        addEntry room dir name ino
        pure ino

def link (room : Room) (dir : Nat) (name : Name) (ino : Nat) : E2M Unit := do
  checkRw
  let i ← readInode ino
  if i.isDir then throw .isDir
  else if 32000 ≤ i.links then throw .tooManyLinks
  else do
    let old ← lookupOk dir name
    if old.isSome then throw .exists_
    else do
      addEntry room dir name ino
      writeInode ino { i with links := i.links + 1 }

/-- The inode is released with its last link, unless the caller says that it is in use. -/
def unlink (dir : Nat) (name : Name) (inUse : Bool) : E2M Nat := do
  checkRw
  let ino ← lookup dir name
  let i ← readInode ino
  if i.isDir then throw .isDir
  else do
    removeEntry dir name
    writeInode ino { i with links := i.links - 1 }
    if i.links - 1 = 0 ∧ !inUse then do
      evict ino
      pure ino
    else pure ino

def rmdir (parent : Nat) (name : Name) : E2M Unit := do
  checkRw
  if name = dot ∨ name = dotdot then throw .invalid
  else do
    let ino ← lookup parent name
    let i ← readInode ino
    if !i.isDir then throw .notDir
    else do
      let empty ← dirIsEmpty ino
      if !empty then throw .notEmpty
      else do
        removeEntry parent name
        let i ← readInode ino
        writeInode ino { i with links := 0 }
        release ino
        let p ← readInode parent
        writeInode parent { p with links := p.links - 1 }

/-- The old target of a rename loses its links, and is released with the last one. -/
def dropTarget (existing ndir : Nat) (ex : Inode) : E2M Unit :=
  if ex.isDir then do
    writeInode existing { ex with links := 0 }
    release existing
    let nd ← readInode ndir
    writeInode ndir { nd with links := nd.links - 1 }
  else do
    writeInode existing { ex with links := ex.links - 1 }
    if ex.links - 1 = 0 then release existing else pure ()

/-- The end of a rename: the old entry goes, and a directory gets its new parent. -/
def finishRename (odir : Nat) (oname : Name) (ndir ino : Nat) (isDir : Bool) : E2M Unit := do
  removeEntry odir oname
  if isDir ∧ odir ≠ ndir then do
    setEntry ino dotdot ndir
    let o ← readInode odir
    writeInode odir { o with links := o.links - 1 }
    let n ← readInode ndir
    writeInode ndir { n with links := n.links + 1 }
    let i ← readInode ino
    writeInode ino i
  else do
    let i ← readInode ino
    writeInode ino i

/-- Whether the types allow the replacement; a directory must be empty. -/
def checkTarget (isDir exIsDir : Bool) (existing : Nat) : E2M Unit :=
  match isDir, exIsDir with
  | true, false => throw .notDir
  | false, true => throw .isDir
  | true, true => do
    let empty ← dirIsEmpty existing
    if !empty then throw .notEmpty else pure ()
  | false, false => pure ()

def rename (room : Room) (odir : Nat) (oname : Name) (ndir : Nat) (nname : Name) : E2M Unit := do
  checkRw
  if 255 < nname.length then throw .nameTooLong
  else do
    let ino ← lookup odir oname
    let i ← readInode ino
    let old ← lookupOk ndir nname
    match old with
    | some existing =>
      if existing = ino then pure ()
      else do
        let ex ← readInode existing
        checkTarget i.isDir ex.isDir existing
        setEntry ndir nname ino
        dropTarget existing ndir ex
        finishRename odir oname ndir ino i.isDir
    | none => do
      addEntry room ndir nname ino
      finishRename odir oname ndir ino i.isDir

end Fastros.Fs.Ext2
