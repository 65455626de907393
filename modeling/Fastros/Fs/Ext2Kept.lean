import Fastros.Fs.Ext2Cache
import Fastros.Lib.Run

/-!
# Runs that keep every open inode of ext2

`rmdir` and `rename` release without asking whether the inode is in use, and a number that a
lookup found has no node until the lock is free again. The runs that keep every open inode
are those in which neither happens to an inode that is held or about to be.
-/

namespace Fastros.Fs.Ext2

open Lib.Stateful Lib.Run Ext2Fs
open Function (update update_self update_of_ne)

/-! ## Which inode a call releases

`rmdir` and `rename` release the directory they remove and the target they replace, whoever
holds it. -/

/-- The empty directory that `rmdir` removes. -/
def E2.removed (e : E2) (parent : Nat) (name : Name) : Option Nat :=
  if e.readOnly ∨ name = dot ∨ name = dotdot then none
  else
    match e.lookup parent name with
    | .error _ => none
    | .ok ino =>
      match e.dirIsEmpty ino with
      | .ok true => some ino
      | _ => none

/-- The target that a rename takes the last link of. -/
def E2.replaced (e : E2) (odir : Nat) (oname : Name) (ndir : Nat) (nname : Name) : Option Nat :=
  if e.readOnly ∨ 255 < nname.length then none
  else
    match e.lookup odir oname, e.lookup ndir nname with
    | .ok ino, .ok existing =>
      if existing = ino then none
      else
        match e.inode ino, e.inode existing with
        | .ok i, .ok ex =>
          match i.isDir, ex.isDir with
          | true, true =>
            match e.dirIsEmpty existing with
            | .ok true => some existing
            | _ => none
          | false, false => if ex.links - 1 = 0 then some existing else none
          | _, _ => none
        | _, _ => none
    | _, _ => none

/-- Nothing in use is removed or replaced, and a number found is still allocated when its
node is made. -/
def fits (s : Ext2Fs) (op : Op) : Bool :=
  !op.enabled s ||
    match op with
    | .rmdir parent name => (s.lock.e2.removed parent name).all fun ino => !s.inUse ino
    | .rename _ odir oname ndir nname =>
      (s.lock.e2.replaced odir oname ndir nname).all fun ino => !s.inUse ino
    | .node ino => s.e2.used ino
    | _ => true

variable {α β : Type} {m : E2M α} {name oname nname : Name} {g : Unit → E2M β} {e : E2}
  {dir ino parent odir ndir : Nat} {s : Ext2Fs}

section

variable {refs : Nat → Nat} {e₀ : E2}

/-- The state a call starts from. -/
def From (refs : Nat → Nat) (e₀ e : E2) : Prop := Good refs e ∧ e = e₀

abbrev Leads {α : Type} (refs : Nat → Nat) (e₀ : E2) (m : E2M α) : Prop :=
  Triple (From refs e₀) m (fun _ => Good refs) (fun _ => Good refs)

theorem Leads.of_keeps (h : Keeps (Good refs) m) : Leads refs e₀ m := .pre h fun _ hs => hs.1

/-- A question answers for the state the call started from. -/
protected theorem Leads.ask {f : E2 → Except Error α} {g : α → E2M β}
    (hg : ∀ a, f e₀ = .ok a → Leads refs e₀ (g a)) : Leads refs e₀ (ask f >>= g) := by
  apply Triple.bind (R := fun a s => From refs e₀ s ∧ f e₀ = .ok a)
  · apply Triple.mono (triple_ask f) (fun _ => id)
    · intro a s h
      rw [← h.1.2]
      exact ⟨⟨h.1.1, rfl⟩, h.2⟩
    · intro _ _ h
      exact h.1
  · intro a
    exact .fact (hg a)

theorem Leads.ite {c : Prop} [Decidable c] {x y : E2M α} (hx : c → Leads refs e₀ x)
    (hy : ¬ c → Leads refs e₀ y) : Leads refs e₀ (if c then x else y) :=
  Triple.ite hx hy

protected theorem Leads.throw (er : Error) : Leads refs e₀ (throw er : E2M α) :=
  Leads.of_keeps (Keeping.throw er)

theorem leads_unlink (dir : Nat) (name : Name) (inUse : Nat → Bool)
    (hin : ∀ ino, inUse ino = false → refs ino = 0) :
    Leads refs e₀ (do let ino ← lookup dir name; unlink dir name (inUse ino)) := by
  apply Leads.ask
  intro ino hl
  apply Leads.ask
  intro _ _
  apply Leads.ask
  intro ino' hl'
  have heq : ino' = ino := by
    rw [hl] at hl'
    exact (Except.ok.inj hl').symm
  subst heq
  apply Leads.ask
  intro i _
  apply Leads.ite (fun _ => .throw _)
  intro _
  apply Leads.of_keeps
  apply Keeping.bind (keeps_removeEntry _ _)
  intro _
  apply Keeping.bind (keeps_writeInode _ _)
  intro _
  apply Keeping.ite
  · intro hc
    have hr : refs ino' = 0 := hin ino' (by simpa using hc.2)
    exact .bind (keeps_evict hr) fun _ => .pure _
  · intro _
    exact .pure _

theorem leads_rmdir (hv : ∀ ino, e₀.removed parent name = some ino → refs ino = 0) :
    Leads refs e₀ (rmdir parent name) := by
  apply Leads.ask
  intro _ hrw
  have hrw : e₀.readOnly = false := by simpa using hrw
  apply Leads.ite (fun _ => .throw _)
  intro hname
  apply Leads.ask
  intro ino hl
  apply Leads.ask
  intro i _
  apply Leads.ite (fun _ => .throw _)
  intro _
  apply Leads.ask
  intro empty he
  apply Leads.ite (fun _ => .throw _)
  intro hempty
  have hempty : empty = true := by simpa using hempty
  have hr : refs ino = 0 := by
    apply hv
    rw [hempty] at he
    simp [E2.removed, hrw, hname, hl, he]
  apply Leads.of_keeps
  apply Keeping.bind (keeps_removeEntry _ _)
  intro _
  apply Keeping.bind (keeps_ask _)
  intro _
  apply Keeping.bind (keeps_writeInode _ _)
  intro _
  apply Keeping.bind (keeps_release hr)
  intro _
  exact .bind (keeps_ask _) fun _ => keeps_writeInode _ _

theorem keeps_dropTarget {existing : Nat} {ex : Inode} (ndir : Nat)
    (hr : ex.isDir = true ∨ ex.links - 1 = 0 → refs existing = 0) :
    Keeps (Good refs) (dropTarget existing ndir ex) := by
  apply Keeping.ite
  · intro hd
    apply Keeping.bind (keeps_writeInode _ _)
    intro _
    apply Keeping.bind (keeps_release (hr (.inl hd)))
    intro _
    exact .bind (keeps_ask _) fun _ => keeps_writeInode _ _
  · intro _
    apply Keeping.bind (keeps_writeInode _ _)
    intro _
    exact .ite (fun hl => keeps_release (hr (.inr hl))) fun _ => .pure _

/-- A target that passes the check has the type of what is renamed, and is empty. -/
theorem triple_checkTarget (isDir exIsDir : Bool) (existing : Nat) :
    Triple (From refs e₀) (checkTarget isDir exIsDir existing) (fun _ s => From refs e₀ s ∧
        (isDir = exIsDir ∧ (exIsDir = true → e₀.dirIsEmpty existing = .ok true)))
      (fun _ => Good refs) := by
  cases isDir <;> cases exIsDir
  · exact .pure fun _ h => ⟨h, rfl, fun hf => absurd hf Bool.false_ne_true⟩
  · exact .throw fun _ h => h.1
  · exact .throw fun _ h => h.1
  · apply Triple.bind (R := fun b s => From refs e₀ s ∧ e₀.dirIsEmpty existing = .ok b)
    · apply Triple.mono (triple_ask _) (fun _ => id)
      · intro b s h
        rw [← h.1.2]
        exact ⟨⟨h.1.1, rfl⟩, h.2⟩
      · intro _ _ h
        exact h.1
    intro b
    apply Triple.ite
    · intro _
      exact .throw fun _ h => h.1.1
    intro hb
    have hb : b = true := by simpa using hb
    subst hb
    exact .pure fun _ h => ⟨h.1, rfl, fun _ => h.2⟩

theorem leads_rename {room : Room}
    (hv : ∀ ino, e₀.replaced odir oname ndir nname = some ino → refs ino = 0) :
    Leads refs e₀ (rename room odir oname ndir nname) := by
  apply Leads.ask
  intro _ hrw
  have hrw : e₀.readOnly = false := by simpa using hrw
  apply Leads.ite (fun _ => .throw _)
  intro hlen
  apply Leads.ask
  intro ino hl
  apply Leads.ask
  intro i hi
  apply Leads.ask
  intro old hold
  cases old with
  | none =>
    apply Leads.of_keeps
    exact Keeping.bind (keeps_addEntry _ _ _ _) fun _ => frame_finishRename good_ofBitmap _ _ _ _ _
  | some existing =>
    have hex : e₀.lookup ndir nname = .ok existing := by
      cases hn : e₀.lookup ndir nname with
      | error er => simp [hn, Except.toOption] at hold
      | ok j =>
        simp only [hn, Except.toOption, Except.ok.injEq, Option.some.injEq] at hold
        rw [hold]
    apply Leads.ite (fun _ => .of_keeps (Keeping.pure _))
    intro hne
    apply Leads.ask
    intro ex hx
    apply Triple.bind (triple_checkTarget i.isDir ex.isDir existing)
    intro _
    apply Triple.fact
    intro ht
    have hr : ex.isDir = true ∨ ex.links - 1 = 0 → refs existing = 0 := by
      intro hc
      apply hv
      cases hd : ex.isDir with
      | true =>
        have he := ht.2 hd
        have hid : i.isDir = true := ht.1.trans hd
        simp [E2.replaced, hrw, hlen, hl, hex, hne, hi, hx, hd, hid, he]
      | false =>
        have hid : i.isDir = false := ht.1.trans hd
        have hlinks : ex.links - 1 = 0 := by
          rcases hc with h | h
          · rw [hd] at h
            exact absurd h Bool.false_ne_true
          · exact h
        simp [E2.replaced, hrw, hlen, hl, hex, hne, hi, hx, hd, hid, hlinks]
    apply Leads.of_keeps
    apply Keeping.bind (frame_setEntry good_ofBitmap _ _ _)
    intro _
    exact Keeping.bind (keeps_dropTarget ndir hr) fun _ => frame_finishRename good_ofBitmap _ _ _ _ _

end

section

variable {v : Nat} {e₀ : E2}

/-- An allocated inode in range, which a release frees. -/
structure Ready (v : Nat) (e : E2) : Prop where
  used : e.used v = true
  inRange : ¬ (v = 0 ∨ e.inodesCount < v)

/-- The number is among those changed, whether the call fails or not. -/
abbrev Frees {α : Type} (v : Nat) (P : E2 → Prop) (m : E2M α) : Prop :=
  Triple P m (fun _ s => v ∈ s.changes) (fun _ s => v ∈ s.changes)

theorem frees_ask {f : E2 → Except Error α} {a : α} {g : α → E2M β}
    (hf : f e₀ = .ok a) (hg : Frees v (· = e₀) (g a)) : Frees v (· = e₀) (ask f >>= g) := by
  have hrun : (ask f >>= g) e₀ = g a e₀ := bind_ok (by simp [ask, hf])
  constructor
  · intro s b s' hs hr
    rw [hs, hrun] at hr
    exact hg.ok rfl hr
  · intro s er s' hs hr
    rw [hs, hrun] at hr
    exact hg.error rfl hr

theorem ready_readInode {g : Inode → E2M β} (hg : ∀ i, Frees v (Ready v) (g i)) :
    Frees v (Ready v) (readInode v >>= g) := by
  have hrun : ∀ s, Ready v s → (readInode v >>= g) s = g (s.inodes v) s := by
    intro s hs
    exact bind_ok (by simp [readInode, ask, E2.inode, hs.inRange])
  constructor
  · intro s b s' hs hr
    rw [hrun s hs] at hr
    exact (hg _).ok hs hr
  · intro s er s' hs hr
    rw [hrun s hs] at hr
    exact (hg _).error hs hr

theorem ready_modify {f : E2 → E2} {g : PUnit → E2M β}
    (hf : ∀ s, Ready v s → Ready v (f s)) (hg : Frees v (Ready v) (g ⟨⟩)) :
    Frees v (Ready v) (modify f >>= g) :=
  .bind (.modify hf) fun _ => hg

theorem ready_writeInode {i : Inode}
    (hg : Frees v (Ready v) (g ())) : Frees v (Ready v) (writeInode v i >>= g) := by
  unfold writeInode
  rw [bind_assoc]
  apply ready_readInode
  intro _
  exact ready_modify (fun _ h => ⟨h.used, h.inRange⟩) hg

theorem frees_freeInode : Frees v (Ready v) (freeInode v) := by
  apply Triple.bind (R := fun e s => Ready v s ∧ e = s) (.get fun _ h => ⟨h, rfl⟩)
  intro e
  apply Triple.ite
  · intro hu
    apply Triple.throw
    intro s h
    obtain ⟨hs, rfl⟩ := h
    simp [hs.used] at hu
  · intro _
    exact .modify fun _ _ => List.mem_cons_self

theorem frees_release : Frees v (Ready v) (release v) := by
  apply ready_readInode
  intro i
  unfold writeNew
  rw [bind_assoc]
  apply ready_writeInode
  exact ready_modify (fun _ h => ⟨h.used, h.inRange⟩) frees_freeInode

theorem changed_ofBitmap : OfBitmap fun s => v ∈ s.changes := by
  intro e e' _ hc h
  rw [hc]
  exact h

/-- What a lookup that answers says about the directory. -/
theorem lookup_ok (h : e.lookup dir name = .ok ino) :
    (∃ i, e.inode dir = .ok i) ∧ (e.entries dir).lookup name = some ino := by
  unfold E2.lookup at h
  split at h
  · cases h
  rename_i i hi
  split at h
  · cases h
  split at h
  · rename_i hl
    cases h
    exact ⟨⟨i, hi⟩, hl⟩
  · cases h

theorem inRange_of_inode {i : Inode} (h : e.inode ino = .ok i) :
    ¬ (ino = 0 ∨ e.inodesCount < ino) := by
  intro hc
  simp [E2.inode, hc] at h

/-- Entries of a directory in which a name was just found can be changed. -/
theorem ready_editEntries (f : List (Name × Nat) → List (Name × Nat))
    (hl : e₀.lookup dir name = .ok ino) (hv : Ready v e₀) (hg : Frees v (Ready v) (g ())) :
    Frees v (· = e₀) ((do
      let _ ← readInode dir
      let s ← get
      if ((s.entries dir).lookup name).isNone then throw .notFound
      else modify fun s => { s with
        entries := update s.entries dir (f (s.entries dir)) } : E2M Unit) >>= g) := by
  obtain ⟨⟨i, hi⟩, he⟩ := lookup_ok hl
  rw [bind_assoc]
  apply frees_ask hi
  rw [bind_assoc]
  apply Triple.bind (R := fun e s => s = e₀ ∧ e = e₀) (.get fun _ h => ⟨h, h⟩)
  intro e
  apply Triple.fact
  intro hee
  subst hee
  rw [he]
  apply Triple.bind _ fun _ => hg
  apply Triple.modify
  intro s hs
  subst hs
  exact ⟨hv.used, hv.inRange⟩

theorem dirIsEmpty_ok {b : Bool} (h : e.dirIsEmpty dir = .ok b) :
    ∃ i, e.inode dir = .ok i ∧ i.isDir = true := by
  unfold E2.dirIsEmpty at h
  split at h
  · cases h
  rename_i i hi
  split at h
  · cases h
  rename_i hd
  exact ⟨i, hi, by simpa using hd⟩

theorem removed_eq (h : e.removed parent name = some ino) :
    e.readOnly = false ∧ ¬ (name = dot ∨ name = dotdot) ∧ e.lookup parent name = .ok ino ∧
      e.dirIsEmpty ino = .ok true := by
  unfold E2.removed at h
  split at h
  · cases h
  rename_i hc
  split at h
  · cases h
  rename_i j hl
  split at h
  · rename_i he
    cases h
    exact ⟨by simpa using fun hr => hc (.inl hr), fun hn => hc (.inr hn), hl, he⟩
  · cases h

/-- The inode is released as a directory or with its last link. -/
theorem replaced_eq {existing : Nat} (h : e.replaced odir oname ndir nname = some existing) :
    e.readOnly = false ∧ ¬ 255 < nname.length ∧ ∃ ino i ex,
      e.lookup odir oname = .ok ino ∧ e.lookup ndir nname = .ok existing ∧ existing ≠ ino ∧
      e.inode ino = .ok i ∧ e.inode existing = .ok ex ∧ i.isDir = ex.isDir ∧
      (ex.isDir = true → e.dirIsEmpty existing = .ok true) ∧
      (ex.isDir = false → ex.links - 1 = 0) := by
  unfold E2.replaced at h
  split at h
  · cases h
  rename_i hc
  have hrw : e.readOnly = false := by simpa using fun hr => hc (.inl hr)
  have hlen : ¬ 255 < nname.length := fun hn => hc (.inr hn)
  split at h
  · rename_i ino j hl hn
    split at h
    · cases h
    rename_i hne
    split at h
    · rename_i i ex hi hx
      split at h
      · rename_i hid hxd
        split at h
        · rename_i he
          cases h
          have hno : ex.isDir = false → ex.links - 1 = 0 := by
            intro hf
            rw [hxd] at hf
            cases hf
          exact ⟨hrw, hlen, ino, i, ex, hl, hn, hne, hi, hx, by rw [hid, hxd], fun _ => he, hno⟩
        · cases h
      · rename_i hid hxd
        split at h
        · rename_i hk
          cases h
          have hno : ex.isDir = true → e.dirIsEmpty existing = .ok true := by
            intro ht
            rw [hxd] at ht
            cases ht
          exact ⟨hrw, hlen, ino, i, ex, hl, hn, hne, hi, hx, by rw [hid, hxd], hno, fun _ => hk⟩
        · cases h
      · cases h
    · cases h
  · cases h

theorem frees_rmdir (hr : e₀.removed parent name = some v)
    (hu : e₀.used v = true) : Frees v (· = e₀) (rmdir parent name) := by
  obtain ⟨hrw, hname, hl, he⟩ := removed_eq hr
  obtain ⟨i, hi, hd⟩ := dirIsEmpty_ok he
  have hready : Ready v e₀ := ⟨hu, inRange_of_inode hi⟩
  have hcheck : (if e₀.readOnly then .error .readOnly else .ok () : Except Error Unit) = .ok () := by
    simp [hrw]
  apply frees_ask hcheck
  rw [if_neg hname]
  apply frees_ask hl
  apply frees_ask hi
  rw [if_neg (by simp [hd])]
  apply frees_ask he
  apply ready_editEntries (fun es => es.eraseP fun e => e.1 = name) hl hready
  apply ready_readInode
  intro _
  apply ready_writeInode
  apply Triple.bind frees_release
  intro _
  exact .bind (keeps_ask _) fun _ => frame_writeInode changed_ofBitmap _ _

theorem frees_dropTarget {ex : Inode} (ndir : Nat) (h : ex.isDir = false → ex.links - 1 = 0) :
    Frees v (Ready v) (dropTarget v ndir ex) := by
  apply Triple.ite
  · intro _
    apply ready_writeInode
    apply Triple.bind frees_release
    intro _
    exact .bind (keeps_ask _) fun _ => frame_writeInode changed_ofBitmap _ _
  · intro hd
    apply ready_writeInode
    rw [if_pos (h (by simpa using hd))]
    exact frees_release

/-- The check passes for a target that the rename releases. -/
theorem frees_checkTarget {isDir exIsDir : Bool}
    (heq : isDir = exIsDir) (he : exIsDir = true → e₀.dirIsEmpty v = .ok true)
    (hg : Frees v (· = e₀) (g ())) : Frees v (· = e₀) (checkTarget isDir exIsDir v >>= g) := by
  subst heq
  cases isDir with
  | false => exact hg
  | true =>
    unfold checkTarget
    rw [bind_assoc]
    apply frees_ask (he rfl)
    exact hg

theorem frees_rename {room : Room}
    (hr : e₀.replaced odir oname ndir nname = some v) (hu : e₀.used v = true) :
    Frees v (· = e₀) (rename room odir oname ndir nname) := by
  obtain ⟨hrw, hlen, ino, i, ex, hl, hn, hne, hi, hx, heq, he, hk⟩ := replaced_eq hr
  have hready : Ready v e₀ := ⟨hu, inRange_of_inode hx⟩
  have hcheck : (if e₀.readOnly then .error .readOnly else .ok () : Except Error Unit) = .ok () := by
    simp [hrw]
  have hold : (.ok (e₀.lookup ndir nname).toOption : Except Error (Option Nat)) = .ok (some v) := by
    rw [hn]
    rfl
  apply frees_ask hcheck
  rw [if_neg hlen]
  apply frees_ask hl
  apply frees_ask hi
  apply frees_ask hold
  simp only [if_neg hne]
  apply frees_ask hx
  apply frees_checkTarget heq he
  apply ready_editEntries (setFirst _ _) hn hready
  exact .bind (frees_dropTarget ndir hk) fun _ => frame_finishRename changed_ofBitmap _ _ _ _ _

end

/-- No inode with a node is free, and the last step neither freed nor handed out one. -/
def Ext2Fs.Kept (s : Ext2Fs) : Prop := Good s.refs s.e2

theorem good_cleared {refs : Nat → Nat} (h : Good refs e) : Good refs { e with changes := [] } :=
  ⟨h.allocated, fun _ hj => absurd hj List.not_mem_nil⟩

theorem good_evictAll {refs : Nat → Nat} (inos : List Nat) :
    ∀ e, Good refs e → Good refs (evictAll refs inos e) := by
  induction inos with
  | nil => exact fun _ => id
  | cons ino inos ih =>
    intro e h
    apply ih
    by_cases hp : 0 < refs ino
    · rw [if_pos hp]
      exact h
    · rw [if_neg hp]
      exact (keeps_evict (by omega)).state h

theorem good_lock (h : s.Kept) : Good s.refs s.lock.e2 := good_evictAll _ _ (good_cleared h)

theorem kept_call (h : s.Kept) (hm : Leads s.refs s.lock.e2 m) : (s.call m).Kept :=
  hm.state ⟨good_lock h, rfl⟩

theorem kept_find {m : E2M Nat} (h : s.Kept) (hm : Keeps (Good s.refs) m) : (s.find m).Kept := by
  have hk := hm.state (good_lock h)
  unfold find
  cases hr : m s.lock.e2 with
  | ok | error => rw [hr] at hk; exact hk

/-- A call that frees a number in use loses its inode. -/
theorem not_kept_call {v : Nat} (hv : s.inUse v = true)
    (hm : Frees v (· = s.lock.e2) m) : ¬ (s.call m).Kept := by
  intro hk
  have hc : v ∈ (s.call m).e2.changes := hm.state rfl
  have hr : s.refs v = 0 := hk.untouched v hc
  simp [inUse, hr] at hv

theorem used_of_inUse (h : s.Kept) {v : Nat} (hv : s.inUse v = true) : s.lock.e2.used v = true :=
  (good_lock h).allocated v (by simpa [inUse] using hv)

/-- One more reference needs an allocated inode. -/
theorem kept_update (h : s.Kept) (ino n : Nat) (hn : 0 < n) :
    Good (update s.refs ino n) { s.e2 with changes := [] } ↔ s.e2.used ino = true := by
  constructor
  · intro hg
    exact hg.allocated ino (by rw [update_self]; exact hn)
  intro hu
  refine ⟨?_, fun _ hj => absurd hj List.not_mem_nil⟩
  intro j hj
  by_cases he : j = ino
  · rw [he]
    exact hu
  · rw [update_of_ne he] at hj
    exact h.allocated j hj

theorem kept_drop (h : s.Kept) (ino : Nat) :
    Good (update s.refs ino (s.refs ino - 1)) { s.e2 with changes := [] } := by
  refine ⟨?_, fun _ hj => absurd hj List.not_mem_nil⟩
  intro j hj
  by_cases he : j = ino
  · rw [he, update_self] at hj
    rw [he]
    exact h.allocated ino (by omega)
  · rw [update_of_ne he] at hj
    exact h.allocated j hj

/-- A release of what is in use, for a call that releases `target`. -/
theorem kept_call_iff {target : Option Nat} (h : s.Kept)
    (hl : (∀ ino, target = some ino → s.refs ino = 0) → Leads s.refs s.lock.e2 m)
    (hf : ∀ ino, target = some ino → s.lock.e2.used ino = true → Frees ino (· = s.lock.e2) m) :
    (s.call m).Kept ↔ (target.all fun ino => !s.inUse ino) = true := by
  cases target with
  | none => exact ⟨fun _ => rfl, fun _ => kept_call h (hl fun _ hn => by cases hn)⟩
  | some v =>
    rw [Option.all_some]
    cases hv : s.inUse v with
    | true =>
      have hno := not_kept_call hv (hf v rfl (used_of_inUse h hv))
      exact ⟨fun hk => absurd hk hno, fun hc => by cases hc⟩
    | false =>
      have hr : s.refs v = 0 := by simpa [inUse] using hv
      exact ⟨fun _ => rfl, fun _ => kept_call h (hl fun ino hi => by cases hi; exact hr)⟩

theorem kept_act_iff (h : s.Kept) (op : Op) (hen : op.enabled s = true) :
    (s.act op).Kept ↔ fits s op = true := by
  unfold fits
  rw [hen, Bool.not_true, Bool.false_or]
  cases op with
  | lookup dir name => exact iff_of_true (kept_find h (keeps_ask _)) rfl
  | create room dir name mode => exact iff_of_true (kept_find h (keeps_create _ _ _ _)) rfl
  | symlink room dir name target => exact iff_of_true (kept_find h (keeps_symlink _ _ _ _)) rfl
  | link room dir name ino =>
    exact iff_of_true (kept_call h (.of_keeps (keeps_link _ _ _ _))) rfl
  | unlink dir name =>
    apply iff_of_true _ rfl
    apply kept_call h
    exact leads_unlink dir name s.inUse fun ino hi => by simpa [inUse] using hi
  | rmdir parent name => exact kept_call_iff h leads_rmdir fun _ => frees_rmdir
  | rename room odir oname ndir nname =>
    exact kept_call_iff h leads_rename fun _ => frees_rename
  | node ino => exact kept_update h ino _ (Nat.succ_pos _)
  | clone ino =>
    apply iff_of_true _ rfl
    have hu : s.e2.used ino = true := h.allocated ino (by simpa [Op.enabled, inUse] using hen)
    exact (kept_update h ino _ (Nat.succ_pos _)).mpr hu
  | drop ino => exact iff_of_true (kept_drop h ino) rfl
  | queue ino => exact iff_of_true (good_cleared h) rfl
  | other => exact iff_of_true (good_lock h) rfl

theorem kept_step_iff (s : Ext2Fs) (op : Op) (h : s.Kept) :
    (step op s).Kept ↔ fits s op = true := by
  unfold step
  cases hen : op.enabled s with
  | true => exact kept_act_iff h op hen
  | false => exact iff_of_true h (by simp [fits, hen])

/-- From a mount, the runs in which no inode with a node is freed or handed out are those
whose steps spare what is in use and make nodes for allocated inodes only. -/
theorem open_inode_kept_iff (e : E2) (ops : List Op) :
    (∀ n, (run step (ops.take n) (mounted e)).Kept) ↔
      Along step (fun s op => fits s op = true) ops (mounted e) := by
  apply along_iff kept_step_iff
  constructor
  · intro ino hi
    exact absurd hi (Nat.lt_irrefl 0)
  · intro ino hi
    exact absurd hi List.not_mem_nil

/-- A small filesystem with nothing but its root. -/
def small : E2 where
  readOnly := false
  blockSize := 1024
  inodesCount := 16
  inodesPerGroup := 16
  firstIno := 11
  freeInodes := 6
  groups := [6]
  used := fun ino => ino ≤ 10
  inodes := fun ino => if ino = rootIno then ⟨0x41ED, 2⟩ else ⟨0, 0⟩
  entries := fun ino => if ino = rootIno then [(dot, rootIno), (dotdot, rootIno)] else []
  changes := []

/-- Two files, the second of them open; then the first is renamed over it. -/
def renameOver : List Op :=
  [.node rootIno, .create ⟨true, true, 0⟩ rootIno [97] 0x81A4, .node 11,
    .create ⟨true, true, 0⟩ rootIno [98] 0x81A4, .node 12,
    .rename ⟨true, true, 0⟩ rootIno [97] rootIno [98]]

/-- The open file's inode is free after the rename, and the next file gets its number. -/
theorem rename_frees_open_inode :
    (run step renameOver (mounted small)).refs 12 = 1 ∧
    (run step renameOver (mounted small)).e2.used 12 = false ∧
    ¬ (run step renameOver (mounted small)).Kept ∧
    12 ∈ (run step (renameOver ++ [.create ⟨true, true, 0⟩ rootIno [99] 0x81A4])
      (mounted small)).found := by
  have hrefs : (run step renameOver (mounted small)).refs 12 = 1 := by decide +kernel
  have hfree : (run step renameOver (mounted small)).e2.used 12 = false := by decide +kernel
  refine ⟨hrefs, hfree, ?_, by decide +kernel⟩
  intro hk
  have hu := hk.allocated 12 (by rw [hrefs]; exact Nat.one_pos)
  exact absurd hu Bool.false_ne_true

end Fastros.Fs.Ext2
