import Fastros.Fs.Ext2

/-!
# Open nodes of ext2

A node in memory stands for an inode number and is counted. An inode without links is kept
while its node is in use and released by the first lock after the last reference is gone.
Every call that asks before it releases keeps the inodes that are in use.

A call under the lock is one step. A reference that is taken or dropped while it runs
concerns one inode number only, and is put before the call if the call saw it and after it
otherwise.
-/

namespace Fastros.Fs.Ext2

open Lib.Stateful
open Function (update)

/-- The mounted filesystem with its nodes: the references to each, the nodes that lost the
last one and are not queued yet, the queue, and the numbers found that have no node yet. -/
structure Ext2Fs where
  e2 : E2
  refs : Nat → Nat
  dropped : List Nat
  pendingEvict : List Nat
  found : List Nat

namespace Ext2Fs

def inUse (s : Ext2Fs) (ino : Nat) : Bool := 0 < s.refs ino

def evictAll (refs : Nat → Nat) : List Nat → E2 → E2
  | [], e => e
  | ino :: inos, e => evictAll refs inos (if 0 < refs ino then e else stateOf (evict ino e))

/-- Lock the filesystem, first releasing inodes whose last user went away. A failed eviction
is only reported. -/
def lock (s : Ext2Fs) : Ext2Fs :=
  { s with
    e2 := evictAll s.refs s.pendingEvict { s.e2 with changes := [] }
    pendingEvict := [] }

def call {α : Type} (s : Ext2Fs) (m : E2M α) : Ext2Fs := { s.lock with e2 := stateOf (m s.lock.e2) }

/-- A call whose answer is an inode number, for which a node is then made. -/
def find (s : Ext2Fs) (m : E2M Nat) : Ext2Fs :=
  match m s.lock.e2 with
  | .ok ino e => { s.lock with e2 := e, found := ino :: s.found }
  | .error _ e => { s.lock with e2 := e }

end Ext2Fs

inductive Op where
  | lookup (dir : Nat) (name : Name)
  | create (room : Room) (dir : Nat) (name : Name) (mode : Nat)
  | symlink (room : Room) (dir : Nat) (name target : Name)
  | link (room : Room) (dir : Nat) (name : Name) (ino : Nat)
  | unlink (dir : Nat) (name : Name)
  | rmdir (parent : Nat) (name : Name)
  | rename (room : Room) (odir : Nat) (oname : Name) (ndir : Nat) (nname : Name)
  | node (ino : Nat)
  | clone (ino : Nat)
  | drop (ino : Nat)
  | queue (ino : Nat)
  | other
  deriving DecidableEq, Repr

/-- What the caller has: calls are made on nodes that are held. -/
def Op.enabled (s : Ext2Fs) : Op → Bool
  | .lookup dir _ | .create _ dir _ _ | .symlink _ dir _ _ | .unlink dir _ | .rmdir dir _ =>
    s.inUse dir
  | .link _ dir _ ino => s.inUse dir && s.inUse ino
  | .rename _ odir _ ndir _ => s.inUse odir && s.inUse ndir
  | .node ino => ino = rootIno ∨ ino ∈ s.found
  | .clone ino | .drop ino => s.inUse ino
  | .queue ino => ino ∈ s.dropped
  | .other => true

def Ext2Fs.act (s : Ext2Fs) : Op → Ext2Fs
  | .lookup dir name => s.find (Ext2.lookup dir name)
  | .create room dir name mode => s.find (Ext2.create room dir name mode)
  | .symlink room dir name target => s.find (Ext2.symlink room dir name target)
  | .link room dir name ino => s.call (Ext2.link room dir name ino)
  | .unlink dir name =>
    s.call do
      let ino ← Ext2.lookup dir name
      Ext2.unlink dir name (s.inUse ino)
  | .rmdir parent name => s.call (Ext2.rmdir parent name)
  | .rename room odir oname ndir nname => s.call (Ext2.rename room odir oname ndir nname)
  | .node ino =>
    { s with
      e2 := { s.e2 with changes := [] }
      refs := update s.refs ino (s.refs ino + 1)
      found := s.found.erase ino }
  | .clone ino =>
    { s with
      e2 := { s.e2 with changes := [] }
      refs := update s.refs ino (s.refs ino + 1) }
  | .drop ino =>
    { s with
      e2 := { s.e2 with changes := [] }
      refs := update s.refs ino (s.refs ino - 1)
      dropped := if s.refs ino = 1 then ino :: s.dropped else s.dropped }
  | .queue ino =>
    { s with
      e2 := { s.e2 with changes := [] }
      dropped := s.dropped.erase ino
      pendingEvict := s.pendingEvict ++ [ino] }
  | .other => s.lock

def step (op : Op) (s : Ext2Fs) : Ext2Fs := if op.enabled s then s.act op else s

/-- A filesystem as `mount` leaves it: no node is in memory. -/
def mounted (e : E2) : Ext2Fs := ⟨{ e with changes := [] }, fun _ => 0, [], [], []⟩

/-- Inodes in use are allocated, and the last call neither freed nor handed out one. -/
structure Good (refs : Nat → Nat) (e : E2) : Prop where
  allocated : ∀ ino, 0 < refs ino → e.used ino = true
  untouched : ∀ ino ∈ e.changes, refs ino = 0

variable {α : Type} {e : E2} {ino : Nat}

/-- Only the bitmap and the log of changes matter. -/
theorem Good.frame {refs : Nat → Nat} {e' : E2} (h : Good refs e) (hu : e'.used = e.used)
    (hc : e'.changes = e.changes) : Good refs e' := by
  constructor
  · rw [hu]
    exact h.allocated
  · rw [hc]
    exact h.untouched

/-- A change of the bitmap at a number that is not in use. -/
theorem Good.change {refs : Nat → Nat} {e' : E2} {b : Bool} (h : Good refs e)
    (hr : refs ino = 0) (hu : e'.used = update e.used ino b)
    (hc : e'.changes = ino :: e.changes) : Good refs e' := by
  constructor
  · intro j hj
    have hne : j ≠ ino := by
      intro he
      rw [he, hr] at hj
      exact absurd hj (Nat.lt_irrefl 0)
    rw [hu, Function.update_of_ne hne]
    exact h.allocated j hj
  · intro j hj
    rw [hc] at hj
    rcases List.mem_cons.mp hj with heq | hold
    · rw [heq]
      exact hr
    · exact h.untouched j hold

section

variable {refs : Nat → Nat}

theorem triple_ask {P : E2 → Prop} (f : E2 → Except Error α) :
    Triple P (ask f) (fun a s => P s ∧ f s = .ok a) (fun _ => P) := by
  constructor
  · intro s a s' hs hr
    cases hf : f s with
    | error e => simp [ask, hf] at hr
    | ok b =>
      simp only [ask, hf, EStateM.Result.ok.injEq] at hr
      obtain ⟨rfl, rfl⟩ := hr
      exact ⟨hs, hf⟩
  · intro s e s' hs hr
    cases hf : f s with
    | error e => simp only [ask, hf, EStateM.Result.error.injEq] at hr; rw [← hr.2]; exact hs
    | ok b => simp [ask, hf] at hr

theorem keeps_ask {P : E2 → Prop} (f : E2 → Except Error α) : Keeps P (ask f) :=
  .mono (triple_ask f) (fun _ => id) (fun _ _ h => h.1) fun _ _ => id

theorem keeps_asked {β : Type} {P : E2 → Prop} {f : E2 → Except Error α} {g : α → E2M β}
    (h : ∀ a, Keeping P (g a) fun _ => P) : Keeps P (ask f >>= g) := .bind (keeps_ask f) h

/-- A property of the bitmap and of its changes only. -/
def OfBitmap (P : E2 → Prop) : Prop :=
  ∀ e e' : E2, e'.used = e.used → e'.changes = e.changes → P e → P e'

theorem good_ofBitmap : OfBitmap (Good refs) := fun _ _ hu hc h => h.frame hu hc

section

variable {P : E2 → Prop} (hP : OfBitmap P)

include hP

theorem frame_writeInode (ino : Nat) (i : Inode) : Keeps P (writeInode ino i) := by
  apply keeps_asked
  intro _
  exact .modify fun s h => hP s _ rfl rfl h

theorem frame_removeEntry (dir : Nat) (name : Name) : Keeps P (removeEntry dir name) := by
  apply keeps_asked
  intro _
  apply Keeping.bind .get
  intro _
  exact .ite (fun _ => .throw _) fun _ => .modify fun s h => hP s _ rfl rfl h

theorem frame_setEntry (dir : Nat) (name : Name) (ino : Nat) : Keeps P (setEntry dir name ino) := by
  apply keeps_asked
  intro _
  apply Keeping.bind .get
  intro _
  exact .ite (fun _ => .throw _) fun _ => .modify fun s h => hP s _ rfl rfl h

theorem frame_finishRename (odir : Nat) (oname : Name) (ndir ino : Nat) (isDir : Bool) :
    Keeps P (finishRename odir oname ndir ino isDir) := by
  have hlast : Keeps P (do let i ← readInode ino; writeInode ino i) :=
    .bind (keeps_ask _) fun _ => frame_writeInode hP _ _
  apply Keeping.bind (frame_removeEntry hP _ _)
  intro _
  apply Keeping.ite
  · intro _
    apply Keeping.bind (frame_setEntry hP _ _ _)
    intro _
    apply keeps_asked
    intro _
    apply Keeping.bind (frame_writeInode hP _ _)
    intro _
    apply keeps_asked
    intro _
    exact .bind (frame_writeInode hP _ _) fun _ => hlast
  · intro _
    exact hlast

end

theorem keeps_writeInode (ino : Nat) (i : Inode) : Keeps (Good refs) (writeInode ino i) :=
  frame_writeInode good_ofBitmap ino i

theorem keeps_removeEntry (dir : Nat) (name : Name) : Keeps (Good refs) (removeEntry dir name) :=
  frame_removeEntry good_ofBitmap dir name

theorem keeps_writeNew (ino : Nat) (i : Inode) (es : List (Name × Nat)) :
    Keeps (Good refs) (writeNew ino i es) := by
  apply Keeping.bind (keeps_writeInode ino i)
  intro _
  exact .modify fun _ h => h.frame rfl rfl

theorem keeps_addEntry (room : Room) (dir : Nat) (name : Name) (ino : Nat) :
    Keeps (Good refs) (addEntry room dir name ino) := by
  apply Keeping.ite
  · intro _
    exact .throw _
  intro _
  apply keeps_asked
  intro _
  exact .ite (fun _ => .throw _) fun _ => .modify fun _ h => h.frame rfl rfl

theorem keeps_freeInode (hr : refs ino = 0) : Keeps (Good refs) (freeInode ino) := by
  apply Keeping.bind .get
  intro _
  exact .ite (fun _ => .throw _) fun _ => .modify fun _ h => h.change hr rfl rfl

theorem freeBit_free {g bit : Nat} (h : e.freeBit g = some bit) :
    e.used (g * e.inodesPerGroup + bit + 1) = false := by
  have hb := List.find?_some h
  simpa using hb

/-- A number that is handed out was free, so no node stands for it. -/
theorem triple_allocFrom (gs : List Nat) :
    Triple (Good refs) (allocFrom gs) (fun ino s => Good refs s ∧ refs ino = 0)
      (fun _ => Good refs) := by
  induction gs with
  | nil => exact .throw fun _ => id
  | cons g gs ih =>
    apply Triple.bind (R := fun e s => Good refs s ∧ e = s) (.get fun _ h => ⟨h, rfl⟩)
    intro e
    apply Triple.ite
    · intro _
      exact .pre ih (fun _ h => h.1)
    intro _
    cases hb : e.freeBit g with
    | none =>
      apply Triple.bind (R := fun _ s => Good refs s) (.modify fun _ h => h.1.frame rfl rfl)
      intro _
      exact ih
    | some bit =>
      have hfree := freeBit_free hb
      apply Triple.bind (R := fun _ s => Good refs s ∧ refs (g * e.inodesPerGroup + bit + 1) = 0)
      · apply Triple.modify
        intro s h
        obtain ⟨hg, rfl⟩ := h
        have hr : refs (g * e.inodesPerGroup + bit + 1) = 0 := by
          by_contra hne
          have hu := hg.allocated _ (Nat.pos_of_ne_zero hne)
          rw [hfree] at hu
          exact absurd hu Bool.false_ne_true
        exact ⟨hg.change hr rfl rfl, hr⟩
      · intro _
        exact .pure fun _ => id

/-- An allocated inode was free before. -/
theorem triple_allocInode (emptiest parent : Nat) (dir : Bool) :
    Triple (Good refs) (allocInode emptiest parent dir)
      (fun ino s => Good refs s ∧ refs ino = 0) (fun _ => Good refs) := by
  apply Triple.bind (keeps_ask _)
  intro _
  apply Triple.bind Keeping.get
  intro _
  exact .ite (fun _ => .throw fun _ => id) fun _ => triple_allocFrom _

theorem keeps_release (hr : refs ino = 0) : Keeps (Good refs) (release ino) := by
  apply keeps_asked
  intro _
  apply Keeping.bind (keeps_writeNew _ _ _)
  intro _
  exact keeps_freeInode hr

/-- The last close may free an inode. -/
theorem keeps_evict (hr : refs ino = 0) : Keeps (Good refs) (evict ino) := by
  apply keeps_asked
  intro _
  exact .ite (fun _ => .pure _) fun _ => keeps_release hr

/-- What follows an allocation may count on a number without a node. -/
theorem keeps_alloc_bind {emptiest parent : Nat} {dir : Bool} {f : Nat → E2M α}
    (hf : ∀ ino, refs ino = 0 → Keeps (Good refs) (f ino)) :
    Keeps (Good refs) (allocInode emptiest parent dir >>= f) :=
  .bind (triple_allocInode emptiest parent dir) fun ino => .fact (hf ino)

theorem keeps_mkdir (room : Room) (parent : Nat) (name : Name) (mode : Nat) :
    Keeps (Good refs) (mkdir room parent name mode) := by
  apply keeps_asked
  intro _
  apply Keeping.unless
  apply keeps_asked
  intro p
  apply Keeping.unless
  apply keeps_asked
  intro old
  apply Keeping.unless
  apply Keeping.unless
  apply keeps_alloc_bind
  intro ino hr
  apply Keeping.ite
  · intro _
    exact .bind (keeps_freeInode hr) fun _ => .throw _
  intro _
  apply Keeping.bind (keeps_writeNew _ _ _)
  intro _
  apply Keeping.bind (keeps_addEntry _ _ _ _)
  intro _
  apply keeps_asked
  intro _
  exact .bind (keeps_writeInode _ _) fun _ => .pure _

theorem keeps_enter (hr : refs ino = 0) (room : Room) (dir : Nat) (name : Name) :
    Keeps (Good refs) (enter room dir name ino) := by
  apply keeps_state
  intro s hs
  cases ha : addEntry room dir name ino s with
  | ok u s' =>
    simp only [enter, ha, stateOf]
    exact (keeps_addEntry room dir name ino).ok hs ha
  | error e s' =>
    simp only [enter, ha]
    have hs' : Good refs s' := (keeps_addEntry room dir name ino).error hs ha
    have hk : Keeps (Good refs) (do freeInode ino; throw e : E2M Nat) :=
      Keeping.bind (keeps_freeInode hr) fun _ => .throw _
    exact hk.state hs'

theorem keeps_create (room : Room) (dir : Nat) (name : Name) (mode : Nat) :
    Keeps (Good refs) (create room dir name mode) := by
  apply keeps_asked
  intro _
  apply Keeping.ite (fun _ => keeps_mkdir room dir name mode)
  intro _
  apply Keeping.unless
  apply keeps_asked
  intro d
  apply Keeping.unless
  apply keeps_asked
  intro old
  apply Keeping.unless
  apply keeps_alloc_bind
  intro ino hr
  exact .bind (keeps_writeNew _ _ _) fun _ => keeps_enter hr room dir name

theorem keeps_symlink (room : Room) (dir : Nat) (name target : Name) :
    Keeps (Good refs) (symlink room dir name target) := by
  apply keeps_asked
  intro _
  apply Keeping.bind .get
  intro _
  apply Keeping.unless
  apply keeps_asked
  intro old
  apply Keeping.unless
  apply keeps_alloc_bind
  intro ino _
  apply Keeping.unless
  apply Keeping.bind (keeps_writeNew _ _ _)
  intro _
  exact .bind (keeps_addEntry _ _ _ _) fun _ => .pure _

theorem keeps_link (room : Room) (dir : Nat) (name : Name) (ino : Nat) :
    Keeps (Good refs) (link room dir name ino) := by
  apply keeps_asked
  intro _
  apply keeps_asked
  intro i
  apply Keeping.unless
  apply Keeping.unless
  apply keeps_asked
  intro old
  apply Keeping.unless
  exact .bind (keeps_addEntry _ _ _ _) fun _ => keeps_writeInode _ _

end

end Fastros.Fs.Ext2
