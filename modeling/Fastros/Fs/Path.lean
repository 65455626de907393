import Fastros.Fs.Vfs

/-!
# Path resolution

`Resolver::walk` and its callers over an arbitrary set of inodes and an arbitrary
mount table. A `PathNode` is the chain of its ancestors, nearest first. The walk
recurses on symbolic links and crosses mounts in a loop; both are given fuel,
and `none` stands for a walk that has not ended yet. `followed` records the
links whose targets were walked.
-/

namespace Fastros.Fs

variable {ι : Type}

def maxSymlinks : Nat := 40
def nameMax : Nat := 255
def pathMax : Nat := 4096

/-- A mount. `ref` is the identity of its `Arc`, `parent` the mount id and inode
identity it is stacked on. -/
structure Mount (ι : Type) where
  ref : Nat
  id : UInt32
  root : ι
  parent : Option (UInt32 × (Nat × Nat)) := none

/-- One resolved component. -/
structure Hop (ι : Type) where
  mount : Mount ι
  inode : ι
  name : Name

structure PathNode (ι : Type) where
  self : Hop ι
  parents : List (Hop ι)

def PathNode.inode (n : PathNode ι) : ι := n.self.inode

def PathNode.mount (n : PathNode ι) : Mount ι := n.self.mount

def PathNode.parent (n : PathNode ι) : Option (PathNode ι) :=
  match n.parents with
  | [] => none
  | p :: ps => some ⟨p, ps⟩

def PathNode.child (n : PathNode ι) (name : Name) (inode : ι) : PathNode ι :=
  ⟨⟨n.mount, inode, name⟩, n.self :: n.parents⟩

/-- `MountNamespace::mounted_on`: the last mount stacked on the given inode. -/
def mountedOn (ns : List (Mount ι)) (parent : UInt32) (ino : Nat × Nat) : Option (Mount ι) :=
  ns.reverse.find? fun m => m.parent == some (parent, ino)

structure Resolver (ι : Type) where
  fs : Contents ι
  ns : List (Mount ι)
  root : PathNode ι
  cwd : PathNode ι
  cred : Cred

/-- How far a walk has come: links counted, and the links followed. -/
structure Progress (ι : Type) where
  depth : Nat := 0
  followed : List ι := []

/-- The result of a walk that ended. -/
abbrev Walked (ι : Type) := Except Errno (PathNode ι) × Progress ι

/-- The same mount and inode as the resolver's root. -/
def Resolver.isRootHop (r : Resolver ι) (h : Hop ι) : Bool :=
  h.mount.ref == r.root.mount.ref && r.fs.id h.inode == r.fs.id r.root.inode

def Resolver.isRootNode (r : Resolver ι) (n : PathNode ι) : Bool :=
  n.parent.isNone || r.isRootHop n.self

/-- The `..` component. A node that is pointer-equal to the root is a root node,
so the second test of the source decides. -/
def Resolver.up (r : Resolver ι) (cur : PathNode ι) : PathNode ι :=
  if r.isRootNode cur then cur
  else
    match cur.parent with
    | some p => p
    | none => cur

/-- The loop over stacked mounts. -/
def Resolver.cross (r : Resolver ι) : Nat → PathNode ι → Option (PathNode ι)
  | 0, _ => none
  | fuel + 1, node =>
    match mountedOn r.ns node.mount.id (r.fs.id node.inode) with
    | none => some node
    | some m => r.cross fuel { node with self := { node.self with mount := m, inode := m.root } }

/-- Follow `node` if it is a symbolic link; `again` walks the target from `cur`. -/
def Resolver.follow (r : Resolver ι) (again : PathNode ι → Name → Progress ι → Option (Walked ι))
    (cur node : PathNode ι) (t : Progress ι) : Option (Walked ι) :=
  match r.fs.kind node.inode with
  | .error e => some (.error e, t)
  | .ok kind =>
    if kind = .symlink then
      let t := { t with depth := t.depth + 1 }
      if t.depth > maxSymlinks then some (.error .eloop, t)
      else
        match r.fs.readlink node.inode with
        | .error e => some (.error e, t)
        | .ok target => again cur target { t with followed := node.inode :: t.followed }
    else some (.ok node, t)

/-- A component that is a name. -/
def Resolver.enter (r : Resolver ι) (fuel : Nat)
    (again : PathNode ι → Name → Progress ι → Option (Walked ι)) (follow : Bool)
    (name : Name) (cur : PathNode ι) (t : Progress ι) : Option (Walked ι) :=
  if name.length > nameMax then some (.error .enametoolong, t)
  else
    match r.fs.lookup cur.inode name with
    | .error e => some (.error e, t)
    | .ok inode =>
      (r.cross fuel (cur.child name inode)).bind fun node =>
        if follow then r.follow again cur node t else some (.ok node, t)

/-- One turn of the loop over the components. -/
def Resolver.component (r : Resolver ι) (fuel : Nat)
    (again : PathNode ι → Name → Progress ι → Option (Walked ι)) (follow : Bool)
    (c : Name) (cur : PathNode ι) (t : Progress ι) : Option (Walked ι) :=
  match r.fs.metadata cur.inode with
  | .error e => some (.error e, t)
  | .ok m =>
    if m.kind ≠ .directory then some (.error .enotdir, t)
    else
      match check r.cred m mayExec with
      | .error e => some (.error e, t)
      | .ok () =>
        if c = dot then some (.ok cur, t)
        else if c = dotdot then some (.ok (r.up cur), t)
        else r.enter fuel again follow c cur t

def Resolver.components (r : Resolver ι) (fuel : Nat)
    (again : PathNode ι → Name → Progress ι → Option (Walked ι)) (followLast : Bool) :
    List Name → PathNode ι → Progress ι → Option (Walked ι)
  | [], cur, t => some (.ok cur, t)
  | c :: rest, cur, t =>
    (r.component fuel again (!rest.isEmpty || followLast) c cur t).bind fun out =>
      match out with
      | (.ok cur, t) => r.components fuel again followLast rest cur t
      | (.error e, t) => some (.error e, t)

/-- `path.split('/').filter(|c| !c.is_empty())`. -/
def comps (path : Name) : List Name := (path.splitOn slash).filter fun c => !c.isEmpty

def Resolver.walk (r : Resolver ι) : Nat → PathNode ι → Name → Bool → Progress ι → Option (Walked ι)
  | 0, _, _, _, _ => none
  | fuel + 1, start, path, followLast, t =>
    let cur := if path.head? = some slash then r.root else start
    r.components fuel (fun cur target t => r.walk fuel cur target true t) followLast (comps path) cur t

def Resolver.resolve (r : Resolver ι) (fuel : Nat) (path : Name) (follow : Bool) :
    Option (Walked ι) :=
  if path.isEmpty then some (.error .enoent, {})
  else if path.length > pathMax then some (.error .enametoolong, {})
  else
    let mustBeDir := path.getLast? = some slash
    (r.walk fuel r.cwd path (follow || mustBeDir) {}).bind fun out =>
      match out with
      | (.ok node, t) =>
        if mustBeDir ∧ ¬ r.fs.isDir node.inode then some (.error .enotdir, t) else some (.ok node, t)
      | (.error e, t) => some (.error e, t)

/-- `resolve_parent`: the parent directory and the last name. -/
def Resolver.resolveParent (r : Resolver ι) (fuel : Nat) (path : Name) :
    Option (Except Errno (PathNode ι × Name) × Progress ι) :=
  if path.isEmpty then some (.error .enoent, {})
  else
    let trimmed := path.rdropWhile (· == slash)
    if trimmed.isEmpty then some (.error .ebusy, {})
    else
      -- up to and including the last slash, if there is one
      let head := trimmed.rdropWhile (· != slash)
      let name := trimmed.rtakeWhile (· != slash)
      let dir := if head.isEmpty then dot else if head.length = 1 then [slash] else head.dropLast
      if name.length > nameMax then some (.error .enametoolong, {})
      else
        (r.resolve fuel dir true).bind fun out =>
          match out with
          | (.ok parent, t) =>
            if r.fs.isDir parent.inode then some (.ok (parent, name), t) else some (.error .enotdir, t)
          | (.error e, t) => some (.error e, t)

end Fastros.Fs
