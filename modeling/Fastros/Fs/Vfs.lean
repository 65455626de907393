import Fastros.Errno

/-!
# Inodes and permissions

What the virtual filesystem asks of an inode: its metadata, the entries of a
directory and the target of a symbolic link. Strings are their bytes, since the
source measures names and paths in bytes.
-/

namespace Fastros.Fs

abbrev Name := List UInt8

def slash : UInt8 := 47
def dot : Name := [46]
def dotdot : Name := [46, 46]

inductive FileType where
  | regular | directory | symlink | charDevice | blockDevice | fifo | socket
  deriving DecidableEq, Repr

/-- The fields of `Metadata` that name an object and decide access to it. -/
structure Metadata where
  dev : Nat
  ino : Nat
  kind : FileType
  perm : Nat
  uid : Nat
  gid : Nat
  deriving DecidableEq, Repr

structure Cred where
  uid : Nat := 0
  gid : Nat := 0
  euid : Nat := 0
  egid : Nat := 0
  groups : List Nat := []
  deriving DecidableEq, Repr

def Cred.isRoot (c : Cred) : Bool := c.euid == 0

def Cred.inGroup (c : Cred) (gid : Nat) : Bool := c.egid == gid || c.groups.contains gid

def mayExec : Nat := 1

/-- `perm::check`. -/
def check (cred : Cred) (m : Metadata) (mask : Nat) : Except Errno Unit :=
  if cred.isRoot then
    if mask &&& mayExec ≠ 0 ∧ m.kind ≠ .directory ∧ m.perm &&& 0o111 = 0 then .error .eacces
    else .ok ()
  else
    let bits :=
      if m.uid = cred.euid then (m.perm >>> 6) &&& 7
      else if cred.inGroup m.gid then (m.perm >>> 3) &&& 7
      else m.perm &&& 7
    if bits &&& mask = mask then .ok () else .error .eacces

theorem check_root_dir {cred : Cred} {m : Metadata} (mask : Nat) (hc : cred.isRoot = true)
    (hm : m.kind = .directory) : check cred m mask = .ok () := by
  simp [check, hc, hm]

/-- The inodes of all mounted filesystems, named by `ι`. -/
structure Contents (ι : Type) where
  metadata : ι → Except Errno Metadata
  lookup : ι → Name → Except Errno ι
  readlink : ι → Except Errno Name

variable {ι : Type}

def Contents.kind (fs : Contents ι) (i : ι) : Except Errno FileType := (fs.metadata i).map Metadata.kind

def Contents.isDir (fs : Contents ι) (i : ι) : Bool :=
  match fs.metadata i with
  | .ok m => m.kind == .directory
  | .error _ => false

/-- `Inode::id`: device and inode number, all ones when the metadata is unreadable. -/
def Contents.id (fs : Contents ι) (i : ι) : Nat × Nat :=
  match fs.metadata i with
  | .ok m => (m.dev, m.ino)
  | .error _ => (2 ^ 64 - 1, 2 ^ 64 - 1)

end Fastros.Fs
