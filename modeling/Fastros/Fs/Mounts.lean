import Fastros.Fs.Rooted
import Fastros.Lib.Run

/-!
# Mount tables

The calls that change a namespace's mount table. A new mount takes its id from a
32-bit counter, so it is stacked on a mount with a smaller id until the counter
wraps around. From then on a mount can get the id of the mount it is stacked on,
and binding a directory over itself makes a stack without end.
-/

namespace Fastros.Fs

open Lib List

variable {ι : Type}
variable {ns : List (Mount ι)}

/-- A namespace's mounts, with the counters that name new ones: `NEXT_MOUNT_ID`
and the identity of the next allocation. -/
structure MountTable (ι : Type) where
  mounts : List (Mount ι)
  nextId : UInt32
  nextRef : Nat

/-- Push a new mount of `root` on `at_`. -/
def MountTable.push (s : MountTable ι) (fs : Contents ι) (at_ : PathNode ι) (root : ι) :
    MountTable ι :=
  { mounts := s.mounts ++ [⟨s.nextRef, s.nextId, root, some (at_.mount.id, fs.id at_.inode)⟩]
    nextId := s.nextId + 1
    nextRef := s.nextRef + 1 }

/-- `MountNamespace::mount` of a filesystem whose root is `root`. -/
def MountTable.mount (s : MountTable ι) (fs : Contents ι) (at_ : PathNode ι) (root : ι) :
    Except Errno (MountTable ι) :=
  if fs.isDir at_.inode then .ok (s.push fs at_ root) else .error .enotdir

def MountTable.bind (s : MountTable ι) (fs : Contents ι) (at_ src : PathNode ι) :
    Except Errno (MountTable ι) :=
  if fs.isDir at_.inode && fs.isDir src.inode then .ok (s.push fs at_ src.inode)
  else .error .enotdir

def MountTable.umount [DecidableEq ι] (s : MountTable ι) (at_ : PathNode ι) :
    Except Errno (MountTable ι) :=
  match s.mounts.find? fun m => m.id == at_.mount.id with
  | none => .error .einval
  | some m =>
    if m.root ≠ at_.inode then .error .einval
    else if m.parent.isNone then .error .ebusy
    else if s.mounts.any fun c => c.parent.any fun p => p.1 == m.id then .error .ebusy
    else .ok { s with mounts := s.mounts.eraseP fun m => m.id == at_.mount.id }

/-- `others` stands for what the other namespaces make of the counters they share
with this one. -/
inductive MountCall (ι : Type) where
  | mount (at_ : PathNode ι) (root : ι)
  | bind (at_ src : PathNode ι)
  | umount (at_ : PathNode ι)
  | others (nextId : UInt32) (nextRef : Nat)

def MountTable.attempt [DecidableEq ι] (fs : Contents ι) (c : MountCall ι) (s : MountTable ι) :
    Except Errno (MountTable ι) :=
  match c with
  | .mount at_ root => s.mount fs at_ root
  | .bind at_ src => s.bind fs at_ src
  | .umount at_ => s.umount at_
  | .others nextId nextRef => .ok { s with nextId, nextRef }

/-- A refused call leaves the table as it was. -/
def MountTable.step [DecidableEq ι] (fs : Contents ι) (c : MountCall ι) (s : MountTable ι) :
    MountTable ι :=
  match s.attempt fs c with
  | .ok s' => s'
  | .error _ => s

/-- `MountNamespace::new`, the first mount of the system. -/
def MountTable.boot (root : ι) : MountTable ι := ⟨[⟨0, 1, root, none⟩], 2, 1⟩

/-- Every mount has a greater id than the mount it is stacked on. -/
def Ordered (ns : List (Mount ι)) : Prop :=
  ∀ m ∈ ns, ∀ id ino, m.parent = some (id, ino) → id < m.id

theorem mountedOn_some {id : UInt32} {ino : Nat × Nat} {m : Mount ι}
    (h : mountedOn ns id ino = some m) : m ∈ ns ∧ m.parent = some (id, ino) := by
  have hm := mem_of_find?_eq_some h
  have hp := find?_some h
  exact ⟨mem_reverse.mp hm, by simpa using hp⟩

theorem ends_of_ordered (fs : Contents ι) (h : Ordered ns) (left : Nat) :
    ∀ (id : UInt32) ino, 2 ^ 32 - id.toNat ≤ left → Ends fs ns id ino := by
  induction left with
  | zero =>
    intro id ino hl
    have hlt := id.toNat_lt
    omega
  | succ left ih =>
    intro id ino hl
    cases hm : mountedOn ns id ino with
    | none => exact .top hm
    | some m =>
      obtain ⟨hmem, hpar⟩ := mountedOn_some hm
      have hlt := UInt32.lt_iff_toNat_lt.mp (h m hmem id ino hpar)
      exact .under hm (ih m.id _ (by omega))

theorem entriesEnd_of_ordered (fs : Contents ι) (h : Ordered ns) : EntriesEnd fs ns :=
  fun _ _ _ _ _ _ id => ends_of_ordered fs h _ id _ le_rfl

/-- The counter is past the id of the mount that the call stacks something on. -/
def MountCall.Fresh (s : MountTable ι) : MountCall ι → Prop
  | .mount at_ _ => at_.mount.id < s.nextId
  | .bind at_ _ => at_.mount.id < s.nextId
  | .umount _ | .others _ _ => True

theorem push_ordered {s : MountTable ι} (h : Ordered s.mounts) (fs : Contents ι) {at_ : PathNode ι}
    (hf : at_.mount.id < s.nextId) (root : ι) : Ordered (s.push fs at_ root).mounts := by
  intro m hm id ino hp
  rcases mem_append.mp hm with hm | hm
  · exact h m hm id ino hp
  · rw [mem_singleton.mp hm] at hp ⊢
    cases hp
    exact hf

open MountTable

theorem step_ordered [DecidableEq ι] (fs : Contents ι) {s : MountTable ι} {c : MountCall ι}
    (h : Ordered s.mounts) (hf : c.Fresh s) : Ordered (s.step fs c).mounts := by
  unfold MountTable.step
  cases hr : s.attempt fs c with
  | error e => exact h
  | ok s' =>
    cases c with
    | mount at_ root =>
      by_cases hd : fs.isDir at_.inode = true
      · simp only [MountTable.attempt, MountTable.mount, hd, if_true] at hr
        cases hr
        exact push_ordered h fs hf root
      · simp [MountTable.attempt, MountTable.mount, hd] at hr
    | bind at_ src =>
      by_cases hd : (fs.isDir at_.inode && fs.isDir src.inode) = true
      · simp only [MountTable.attempt, MountTable.bind, hd, if_true] at hr
        cases hr
        exact push_ordered h fs hf src.inode
      · simp [MountTable.attempt, MountTable.bind, hd] at hr
    | umount at_ =>
      have hsub : ∀ m ∈ s'.mounts, m ∈ s.mounts := by
        intro m hm
        simp only [MountTable.attempt, MountTable.umount] at hr
        grind
      exact fun m hm => h m (hsub m hm)
    | others nextId nextRef =>
      cases hr
      exact h

/-- A namespace starts with one root mount. As long as the counter, wherever it
stands, is ahead of the mounts that are stacked on, every table of a run gives
finite stacks. -/
theorem run_entriesEnd [DecidableEq ι] (fs : Contents ι) {s : MountTable ι} {first : Mount ι}
    (hs : s.mounts = [first]) (hroot : first.parent = none) (cs : List (MountCall ι))
    (h : Run.Along (step fs) (fun s c => MountCall.Fresh s c) cs s) (n : Nat) :
    EntriesEnd fs (Run.run (step fs) (cs.take n) s).mounts := by
  have hfirst : Ordered s.mounts := by
    intro m hm id ino hp
    rw [hs, mem_singleton] at hm
    rw [hm, hroot] at hp
    cases hp
  exact entriesEnd_of_ordered fs
    (Run.along_invariant (P := fun s => Ordered s.mounts) (fun _ _ hs hf => step_ordered fs hs hf)
      cs s hfirst h n)

/-- Three directories: the root 0, its entry `d` (1) and the root 2 of another
filesystem. -/
def threeDirs : Contents (Fin 3) where
  metadata i := .ok ⟨if i = 2 then 1 else 0, i.val, .directory, 0o755, 0, 0⟩
  lookup dir name := if dir = 0 ∧ name = [100] then .ok 1 else .error .enoent
  readlink _ := .error .einval

def rootMount : Mount (Fin 3) := ⟨0, 1, 0, none⟩

/-- `/` and `/d`. -/
def slashNode : PathNode (Fin 3) := ⟨⟨rootMount, 0, []⟩, []⟩
def dNode : PathNode (Fin 3) := slashNode.child [100] 1

/-- The node a walk to `/d` ends at while the mount with the given id is on it. -/
def mountedNode (ref : Nat) (id : UInt32) : PathNode (Fin 3) :=
  ⟨⟨⟨ref, id, 2, some (1, (0, 1))⟩, 2, [100]⟩, [slashNode.self]⟩

/-- A filesystem on `/d`, after another namespace has used up some ids. -/
theorem run_entriesEnd_mounted : EntriesEnd threeDirs
    (Run.run (step threeDirs) [.others 7 7, .mount dNode 2] (.boot 0)).mounts :=
  run_entriesEnd threeDirs rfl rfl [.others 7 7, .mount dNode 2]
    ⟨trivial, show (1 : UInt32) < 7 by decide, trivial⟩ 2

/-- Mount a filesystem on `/d` and unmount it, `n` times, starting from counter
values `id` and `ref`. -/
def mountCycles : Nat → UInt32 → Nat → List (MountCall (Fin 3))
  | 0, _, _ => []
  | n + 1, id, ref =>
    .mount dNode 2 :: .umount (mountedNode ref id) :: mountCycles n (id + 1) (ref + 1)

/-- All ids are used up, then `/d` is bound over itself. -/
def wrapRun : List (MountCall (Fin 3)) := mountCycles (2 ^ 32 - 1) 2 1 ++ [.bind dNode dNode]

theorem mountCycle (id : UInt32) (ref : Nat) (h : id ≠ 1) :
    Run.run (step threeDirs) [.mount dNode 2, .umount (mountedNode ref id)]
      ⟨[rootMount], id, ref⟩ = ⟨[rootMount], id + 1, ref + 1⟩ := by
  have h1 : ((1 : UInt32) == id) = false := by simpa using Ne.symm h
  simp [Run.run, step, attempt, mount, push,
    umount, mountedNode, dNode, slashNode, rootMount, PathNode.child, PathNode.mount,
    PathNode.inode, Contents.isDir, threeDirs, Contents.id, h1]

theorem mountCycles_run (n : Nat) : ∀ (id : UInt32) (ref : Nat),
    (∀ i < n, id + UInt32.ofNat i ≠ 1) →
    Run.run (step threeDirs) (mountCycles n id ref) ⟨[rootMount], id, ref⟩ =
      ⟨[rootMount], id + UInt32.ofNat n, ref + n⟩ := by
  induction n with
  | zero => intro id ref _; simp [mountCycles, Run.run]
  | succ n ih =>
    intro id ref h
    have h0 : id ≠ 1 := by simpa using h 0 (by omega)
    have hstep : Run.run (step threeDirs) (mountCycles (n + 1) id ref)
        ⟨[rootMount], id, ref⟩ = Run.run (step threeDirs)
        (mountCycles n (id + 1) (ref + 1)) ⟨[rootMount], id + 1, ref + 1⟩ := by
      rw [← mountCycle id ref h0]
      rfl
    have hnext : ∀ i < n, id + 1 + UInt32.ofNat i ≠ 1 := by
      intro i hi
      have := h (i + 1) (by omega)
      rwa [Nat.add_comm i 1, UInt32.ofNat_add, ← UInt32.add_assoc] at this
    rw [hstep, ih (id + 1) (ref + 1) hnext, Nat.add_comm n 1, UInt32.ofNat_add, ← UInt32.add_assoc,
      ← Nat.add_assoc]
    rfl

/-- The root mount, and `/d` bound over itself under the same id. -/
def wrappedMounts : List (Mount (Fin 3)) := [rootMount, ⟨2 ^ 32, 1, 1, some (1, (0, 1))⟩]

theorem wrapRun_mounts : (Run.run (step threeDirs) wrapRun (.boot 0)).mounts = wrappedMounts := by
  have hids : ∀ i < 2 ^ 32 - 1, (2 : UInt32) + UInt32.ofNat i ≠ 1 := by
    intro i hi he
    have hlt : i < UInt32.size := lt_of_lt_of_le hi (by decide)
    have hn := congrArg UInt32.toNat he
    rw [UInt32.toNat_add, UInt32.toNat_ofNat_of_lt' hlt] at hn
    have : (2 + i) % 2 ^ 32 = 1 := hn
    omega
  have hrun := mountCycles_run (2 ^ 32 - 1) 2 1 hids
  have hboot : (boot 0 : MountTable (Fin 3)) = ⟨[rootMount], 2, 1⟩ := rfl
  rw [wrapRun, Run.run_append, hboot, hrun]
  rfl

theorem wrappedMounts_endless {id : UInt32} {ino : Nat × Nat}
    (h : Ends threeDirs wrappedMounts id ino) : id = 1 → ino ≠ (0, 1) := by
  induction h with
  | top h =>
    rintro rfl rfl
    simp [mountedOn, wrappedMounts, rootMount] at h
  | @under id ino m h he ih =>
    rintro rfl rfl
    have hm : m = ⟨2 ^ 32, 1, 1, some (1, (0, 1))⟩ := by
      simpa [mountedOn, wrappedMounts, rootMount, eq_comm] using h
    subst hm
    exact ih rfl rfl

/-- After that run a walk to `/d` crosses mounts for ever: no number of rounds lets it return. -/
theorem wrapRun_endless : ¬ ∃ k out,
    Resolver.resolve ⟨threeDirs, (Run.run (MountTable.step threeDirs) wrapRun (.boot 0)).mounts,
      slashNode, slashNode, {}⟩ k [100] true = some out := by
  rw [wrapRun_mounts]
  have hname : IsEntryName [100] := ⟨by decide, by decide, by decide, by decide, by decide⟩
  have hends : ¬ Ends threeDirs wrappedMounts 1 (0, 1) := fun h => wrappedMounts_endless h rfl rfl
  intro h
  obtain ⟨k, out, hk⟩ := h
  rw [resolve_none rfl rfl hname rfl hends true k] at hk
  cases hk

end Fastros.Fs
