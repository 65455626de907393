import Fastros.Fs.Tmpfs
import Fastros.Lib.Run
import Fastros.Lib.Stateful

/-!
# overlayfs

A read-only lower tree under a writable tmpfs. Nodes of the merged tree are
numbers into one table, in the order they were made; a node keeps what it found
in the two layers and caches the children that were looked up. A name starting
with `.wh.` in the upper layer hides the rest of the name in the lower one.
-/

namespace Fastros.Overlay

open Fs Tmpfs Lib.Stateful

/-- `.wh.` -/
def whPrefix : Name := [46, 119, 104, 46]

def whiteoutName (n : Name) : Name := whPrefix ++ n

/-- A directory tree that nobody changes: its names are unique in each directory
and no directory is below itself. -/
structure LowerTree (ι : Type) where
  root : ι
  kind : ι → FileType
  attr : ι → Attr
  /-- The contents of a regular file, the target of a symbolic link. -/
  data : ι → List UInt8
  entries : ι → AList fun _ : Name => ι
  root_dir : kind root = .directory
  only_dirs : ∀ i n, (entries i).lookup n ≠ none → kind i = .directory
  grounded : WellFounded fun j i => ∃ n, (entries i).lookup n = some j

abbrev NodeId := Nat

structure Node (ι : Type) where
  lower : Option ι
  upper : Option Ino
  parent : Option NodeId
  name : Name
  kind : FileType
  children : AList fun _ : Name => NodeId

/-- The upper layer and the nodes made so far. -/
structure State (ι : Type) where
  upper : TmpFs
  nodes : NodeId → Node ι
  next : NodeId

/-- An error code, or a recursion that the kernel stack cannot hold. -/
inductive Stop where
  | errno (e : Errno)
  | endless
  deriving DecidableEq

abbrev OM (ι : Type) := EStateM Stop (State ι)

variable {ι : Type}

def rootId : NodeId := 0

def State.setNode (s : State ι) (c : NodeId) (x : Node ι) : State ι :=
  { s with nodes := Function.update s.nodes c x }

def State.setUpper (s : State ι) (c : NodeId) (u : Ino) : State ι :=
  s.setNode c { s.nodes c with upper := some u }

/-- `OverlayNode::new`, put into the cache of its parent. -/
def State.addNode (s : State ι) (p : NodeId) (n : Name) (lower : Option ι) (upper : Option Ino)
    (kind : FileType) : State ι :=
  let x : Node ι := ⟨lower, upper, some p, n, kind, ∅⟩
  let y := { s.nodes p with children := (s.nodes p).children.insert n s.next }
  { (s.setNode p y).setNode s.next x with next := s.next + 1 }

/-- A name leaves the cache of its directory. -/
def State.forget (s : State ι) (p : NodeId) (n : Name) : State ι :=
  s.setNode p { s.nodes p with children := (s.nodes p).children.erase n }

/-- An operation on the upper layer whose error ends the call. -/
def onUpper {α : Type} (f : TmpFs → Except Errno (α × TmpFs)) : OM ι α := fun s =>
  match f s.upper with
  | .ok (a, fs) => .ok a { s with upper := fs }
  | .error e => .error (.errno e) s

/-- `let _ =` before an operation on the upper layer: an error is ignored. -/
def tryUpper {α : Type} (f : TmpFs → Except Errno (α × TmpFs)) : OM ι Unit := fun s =>
  match f s.upper with
  | .ok (_, fs) => .ok () { s with upper := fs }
  | .error _ => .ok () s

def ofExcept {α : Type} : Except Errno α → OM ι α
  | .ok a => pure a
  | .error e => throw (.errno e)

variable (L : LowerTree ι)

/-- The kind of the active inode, the upper one if there is one. -/
def kindAt (fs : TmpFs) (lower : Option ι) (upper : Option Ino) : Except Errno FileType :=
  match upper, lower with
  | some v, _ => .ok (fs.kind v)
  | none, some j => .ok (L.kind j)
  | none, none => .error .enoent

def kindOf (c : NodeId) : OM ι FileType := do
  let s ← get
  ofExcept (kindAt L s.upper (s.nodes c).lower (s.nodes c).upper)

def upperEntry (fs : TmpFs) (upper : Option Ino) (n : Name) : Option Ino := upper.bind (fs.entry · n)

def lowerEntry (lower : Option ι) (n : Name) : Option ι := lower.bind fun j => (L.entries j).lookup n

/-- What the two layers of a directory show under a name: the kind, and the
layers of the child. A whiteout hides the lower one, and a directory is merged
with a directory only. -/
def merge (fs : TmpFs) (lower : Option ι) (upper : Option Ino) (n : Name) :
    Option (FileType × Option ι × Option Ino) :=
  let whited := (upperEntry fs upper (whiteoutName n)).isSome
  let lowerChild := if whited then none else lowerEntry L lower n
  match upperEntry fs upper n, lowerChild with
  | some v, some j =>
    if fs.kind v = .directory ∧ L.kind j = .directory then some (.directory, some j, some v)
    else some (fs.kind v, none, some v)
  | some v, none => some (fs.kind v, none, some v)
  | none, some j => some (L.kind j, some j, none)
  | none, none => none

def child (p : NodeId) (n : Name) : OM ι NodeId := do
  if n = dot then return p
  else
    let s ← get
    match (s.nodes p).children.lookup n with
    | some c => return c
    | none =>
      match merge L s.upper (s.nodes p).lower (s.nodes p).upper n with
      | none => throw (.errno .enoent)
      | some (kind, lower, upper) =>
        set (s.addNode p n lower upper kind)
        return s.next

/-- Looking a path up, one name after the other. -/
def resolve : NodeId → List Name → OM ι NodeId
  | p, [] => return p
  | p, n :: q => do
    let c ← child L p n
    resolve c q

/-- The names one layer of a directory lists. -/
def lowerNames (j : ι) : Except Errno (List Name) :=
  if L.kind j = .directory then .ok (L.entries j).keys else .error .enotdir

/-- The names of both layers: those of the upper one without the whiteouts, then
those of the lower one that are neither there nor hidden. -/
def mergeNames (ups los : List Name) : List Name :=
  let seen := ups.filter fun n => !whPrefix.isPrefixOf n && n != dot && n != dotdot
  let whiteouts := (ups.filter whPrefix.isPrefixOf).map (·.drop whPrefix.length)
  seen ++ los.filter fun n => n != dot && n != dotdot && !seen.contains n && !whiteouts.contains n

/-- What `readdir` lists for two layers. -/
def listing (fs : TmpFs) (lower : Option ι) (upper : Option Ino) : Except Errno (List Name) := do
  let ups ← match upper with
    | some u => fs.readdir u
    | none => .ok []
  let los ← match lower with
    | some j => lowerNames L j
    | none => .ok []
  return mergeNames ups los

def readdir (c : NodeId) : OM ι (List Name) := do
  let s ← get
  ofExcept (listing L s.upper (s.nodes c).lower (s.nodes c).upper)

/-- `ensure_upper_dir`, going up at most `turns` parents. -/
def ensureUpperDirIn : Nat → NodeId → OM ι Ino
  | 0, _ => throw .endless
  | turns + 1, c => do
    let x := (← get).nodes c
    match x.upper with
    | some u => return u
    | none =>
      match x.parent with
      | none => throw (.errno .enoent)
      | some p =>
        let pupper ← ensureUpperDirIn turns p
        tryUpper (·.unlink pupper (whiteoutName x.name))
        let attr := match x.lower with
          | some j => { L.attr j with rdev := 0 }
          | none => { perm := 0o755 }
        let u ← match (← get).upper.lookup pupper x.name with
          | .ok existing => pure existing
          | .error _ => onUpper (·.create pupper x.name .directory attr)
        modify (·.setUpper c u)
        return u

/-- A node is newer than its parent, so its number bounds the way to the root. -/
def ensureUpperDir (c : NodeId) : OM ι Ino := ensureUpperDirIn L (c + 1) c

def copyBuffer : Nat := 256 * 1024

/-- The loop that copies the bytes of a lower file; a tmpfs write takes the whole
buffer. Each turn moves on by at least one byte. -/
def copyBytes (v : Ino) (bytes : List UInt8) : Nat → Nat → OM ι Unit
  | 0, _ => throw .endless
  | turns + 1, off => do
    let buf := (bytes.drop off).take copyBuffer
    if buf = [] then return ()
    else
      let n ← onUpper (·.writeAt v off buf)
      copyBytes v bytes turns (off + n)

/-- The upper twin of the lower inode `j`, named `n` in the directory `u`. -/
def copyInode (u : Ino) (n : Name) (j : ι) : OM ι Ino :=
  match L.kind j with
  | .symlink => onUpper (·.symlink u n (L.data j) (L.attr j).uid (L.attr j).gid)
  | .regular => do
    let v ← onUpper (·.create u n .regular { L.attr j with rdev := 0 })
    copyBytes v (L.data j) ((L.data j).length + 1) 0
    return v
  | kind => onUpper (·.create u n kind (L.attr j))

def copyUp (c : NodeId) : OM ι Ino := do
  let x := (← get).nodes c
  match x.upper with
  | some u => return u
  | none =>
    match x.lower with
    | none => throw (.errno .enoent)
    | some j =>
      match x.parent with
      | none => throw (.errno .enoent)
      | some p =>
        let pupper ← ensureUpperDir L p
        tryUpper (·.unlink pupper (whiteoutName x.name))
        let u ← copyInode L pupper x.name j
        modify (·.setUpper c u)
        return u

/-- `copy_up_recursive`, as deep as the kernel stack allows. -/
def copyUpRecursive : Nat → NodeId → OM ι Unit
  | 0, _ => throw .endless
  | depth + 1, c => do
    if (← kindOf L c) = .directory then
      let _ ← ensureUpperDir L c
      let names ← readdir L c
      names.forM fun n => do
        let k ← child L c n
        copyUpRecursive depth k
    else
      let _ ← copyUp L c
      return ()

def setAttr (c : NodeId) (a : TmpFs.SetAttr) : OM ι Unit := do
  let target ← if ((← get).nodes c).kind = .directory then ensureUpperDir L c else copyUp L c
  onUpper (·.setAttr target a)

def writeAt (c off : Nat) (buf : List UInt8) : OM ι Nat := do
  let u ← copyUp L c
  onUpper (·.writeAt u off buf)

/-- The new upper inode gets a node with no lower layer. -/
def adopt (p : NodeId) (n : Name) (u : Ino) (kind : FileType) : OM ι NodeId := do
  let s ← get
  set (s.addNode p n none (some u) kind)
  return s.next

/-- What `create` and `symlink` do: `f` makes the inode in the upper directory, once
a whiteout no longer hides its name. -/
def make (f : TmpFs → Ino → Except Errno (Ino × TmpFs)) (p : NodeId) (n : Name) (kind : FileType) :
    OM ι NodeId := do
  let updir ← ensureUpperDir L p
  tryUpper (·.unlink updir (whiteoutName n))
  let u ← onUpper (f · updir)
  adopt p n u kind

def create (p : NodeId) (n : Name) (kind : FileType) (attr : Attr) : OM ι NodeId :=
  make L (fun fs updir => fs.create updir n kind attr) p n kind

def symlink (p : NodeId) (n : Name) (target : List UInt8) (uid gid : Nat) : OM ι NodeId :=
  make L (fun fs updir => fs.symlink updir n target uid gid) p n .symlink

def link (p : NodeId) (n : Name) (target : NodeId) : OM ι Unit := do
  let tu ← copyUp L target
  let updir ← ensureUpperDir L p
  tryUpper (·.unlink updir (whiteoutName n))
  onUpper (·.link updir n tu)
  modify (·.forget p n)

def whiteout (u : Ino) (n : Name) : OM ι Unit := tryUpper (·.create u (whiteoutName n) .regular {})

/-- What `unlink` and `rmdir` do once the child may go: `drop` takes the upper
entry away if there is one, a whiteout hides the lower one. -/
def remove (drop : TmpFs → Ino → Name → Except Errno (Unit × TmpFs)) (p : NodeId) (n : Name)
    (c : NodeId) : OM ι Unit := do
  let inLower := ((← get).nodes c).lower.isSome
  let updir ← ensureUpperDir L p
  if ((← get).nodes c).upper.isSome then tryUpper (drop · updir n)
  if inLower then whiteout updir n
  modify (·.forget p n)

def unlink (p : NodeId) (n : Name) : OM ι Unit := do
  let c ← child L p n
  remove L TmpFs.unlink p n c

def rmdir (p : NodeId) (n : Name) : OM ι Unit := do
  let c ← child L p n
  if (← kindOf L c) ≠ .directory then throw (.errno .enotdir)
  else
    let names ← readdir L c
    if names ≠ [] then throw (.errno .enotempty)
    else remove L TmpFs.rmdir p n c

def rename (depth : Nat) (p : NodeId) (old : Name) (p' : NodeId) (new : Name) : OM ι Unit := do
  let c ← child L p old
  let _ ← kindOf L c
  copyUpRecursive L depth c
  let src ← ensureUpperDir L p
  let dst ← ensureUpperDir L p'
  tryUpper (·.unlink dst (whiteoutName new))
  onUpper (·.rename src old dst new)
  if ((← get).nodes c).lower.isSome then whiteout src old
  modify (·.forget p old)
  modify (·.forget p' new)

/-- `OverlayFs::new` over an upper layer. -/
def mount (fs : TmpFs) : State ι where
  upper := fs
  nodes := fun _ => ⟨some L.root, some TmpFs.rootIno, none, [], .directory, ∅⟩
  next := 1

def State.fresh : State ι := mount L TmpFs.new

inductive Op where
  | lookup (p : NodeId) (n : Name)
  | readdir (p : NodeId)
  | create (p : NodeId) (n : Name) (kind : FileType) (attr : Attr)
  | symlink (p : NodeId) (n : Name) (target : List UInt8) (uid gid : Nat)
  | link (p : NodeId) (n : Name) (target : NodeId)
  | writeAt (c off : Nat) (buf : List UInt8)
  | setAttr (c : NodeId) (a : TmpFs.SetAttr)
  | unlink (p : NodeId) (n : Name)
  | rmdir (p : NodeId) (n : Name)
  | rename (depth : Nat) (p : NodeId) (old : Name) (p' : NodeId) (new : Name)
  /-- A new overlay over the same two layers. -/
  | remount

def Op.run : Op → OM ι Unit
  | .lookup p n => effect (child L p n)
  | .readdir p => effect (Overlay.readdir L p)
  | .create p n kind attr => effect (Overlay.create L p n kind attr)
  | .symlink p n target uid gid => effect (Overlay.symlink L p n target uid gid)
  | .link p n target => Overlay.link L p n target
  | .writeAt c off buf => effect (Overlay.writeAt L c off buf)
  | .setAttr c a => Overlay.setAttr L c a
  | .unlink p n => Overlay.unlink L p n
  | .rmdir p n => Overlay.rmdir L p n
  | .rename depth p old p' new => Overlay.rename L depth p old p' new
  | .remount => modify fun s => mount L s.upper

/-- An error code is returned to the caller; a stack overflow ends the run. -/
def step (op : Op) (s : State ι) : Option (State ι) :=
  match op.run L s with
  | .ok _ s' => some s'
  | .error (.errno _) s' => some s'
  | .error .endless _ => none

/-- The call returned without an error. -/
def Op.succeeds (op : Op) (s : State ι) : Bool :=
  match op.run L s with
  | .ok .. => true
  | .error .. => false

/-- `readdir`, as the caller sees it. -/
def names (s : State ι) (p : NodeId) : Except Errno (List Name) :=
  listing L s.upper (s.nodes p).lower (s.nodes p).upper

end Fastros.Overlay
