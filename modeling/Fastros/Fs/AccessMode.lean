import Fastros.Fs.File
import Fastros.Lib.Run

/-!
# Is the access mode enforced?

A property of the open file survives a call if it survives the pieces the call
is made of. `read`, `write`, `ftruncate` and the rest ask for the access mode
before they reach the inode; `pread`, `pwrite` and their vectored forms do not.
-/

namespace Fastros.Fs

open Lib Lib.Stateful

variable {σ : Type} (ops : InodeOps σ)

/-- `P` does not depend on the position or on the flags that `F_SETFL` changes. -/
structure Stable (P : OpenFile σ → Prop) : Prop where
  offset : ∀ f off, P f → P { f with offset := off }
  setfl : ∀ (f : OpenFile σ) (fl : UInt32), P f →
    P { f with flags := (f.flags &&& ~~~setflMask) ||| (fl &&& setflMask) }

/-- `P` survives reads of the inode and bytes going to the caller. -/
structure MayRead (P : OpenFile σ → Prop) : Prop where
  reads : ∀ f off len, P f → P { f with inode := (ops.readAt off len f.inode).2 }
  copies : ∀ f mem returned, P f → P { f with mem, returned }

/-- `P` survives changes of the inode. -/
structure MayWrite (P : OpenFile σ → Prop) : Prop where
  writes : ∀ f off buf, P f → P { f with inode := (ops.writeAt off buf f.inode).2 }
  sizes : ∀ f len, P f → P { f with inode := (ops.setSize len f.inode).2 }

/-- Either reading is refused under `P`, or it does no harm. -/
def ReadGuard (P : OpenFile σ → Prop) : Prop := (∀ f, P f → f.readable = false) ∨ MayRead ops P

def WriteGuard (P : OpenFile σ → Prop) : Prop := (∀ f, P f → f.writeable = false) ∨ MayWrite ops P

variable {ops} {P : OpenFile σ → Prop}

/-- A checked access keeps what it refuses to touch, or what the access keeps. -/
theorem keeps_checked {α : Type} {c : OpenFile σ → Bool} {x : OpenFile σ → FM σ α} (e : Errno)
    (h : (∀ f, P f → c f = false) ∨ ∀ f, Keeps P (x f)) :
    Keeps P (do let f ← get; if c f then x f else throw e : FM σ α) := by
  rcases h with h | h
  · apply keeps_state
    intro f hf
    have hc := h f hf
    rw [run_bind, run_get]
    simp only [hc, Bool.false_eq_true, if_false]
    exact hf
  · exact Keeping.bind .get fun f => .ite (fun _ => h f) fun _ => .throw e

theorem copyFrom_keeps (addr n : Nat) : Keeps P (copyFrom addr n : FM σ (List UInt8)) := by
  refine Keeping.bind .get fun f => ?_
  cases Lib.Bytes.fetch f.mem addr n with
  | none => exact Keeping.throw _
  | some bytes => exact Keeping.pure _

theorem copyTo_keeps (h : MayRead ops P) (addr : Nat) (src : List UInt8) :
    Keeps P (copyTo addr src : FM σ Unit) :=
  Keeping.bind .get fun _ =>
    .ite (fun _ => .modify fun f hf => h.copies f _ _ hf) fun _ => .throw _

theorem readIovec_keeps (cnt : Nat) : ∀ ptr, Keeps P (readIovec ptr cnt : FM σ (List (Nat × Nat))) := by
  induction cnt with
  | zero => exact fun _ => Keeping.pure _
  | succ cnt ih =>
    intro ptr
    apply Keeping.bind (copyFrom_keeps ptr 8)
    intro base
    apply Keeping.bind (copyFrom_keeps (ptr + 8) 8)
    intro len
    exact .bind (ih (ptr + 16)) fun rest => .pure _

theorem inodeMetadata_keeps : Keeps P (inodeMetadata ops) := by
  refine Keeping.bind .get fun f => ?_
  cases ops.metadata f.inode with
  | error e => exact Keeping.throw e
  | ok m => exact Keeping.pure m

theorem inodeReadAt_keeps (h : MayRead ops P) (off len : Nat) : Keeps P (inodeReadAt ops off len) := by
  refine Keeping.bind .get fun f => .bind (.modify fun f hf => h.reads f off len hf) fun _ => ?_
  cases (ops.readAt off len f.inode).1 with
  | error e => exact Keeping.throw e
  | ok bytes => exact Keeping.pure bytes

theorem inodeWriteAt_keeps (h : MayWrite ops P) (off : Nat) (buf : List UInt8) :
    Keeps P (inodeWriteAt ops off buf) := by
  refine Keeping.bind .get fun f => .bind (.modify fun f hf => h.writes f off buf hf) fun _ => ?_
  cases (ops.writeAt off buf f.inode).1 with
  | error e => exact Keeping.throw e
  | ok n => exact Keeping.pure n

theorem inodeSetSize_keeps (h : MayWrite ops P) (len : Nat) : Keeps P (inodeSetSize ops len) := by
  refine Keeping.bind .get fun f => .bind (.modify fun f hf => h.sizes f len hf) fun _ => ?_
  cases (ops.setSize len f.inode).1 with
  | error e => exact Keeping.throw e
  | ok _ => exact Keeping.pure ()

theorem setOffset_keeps (hs : Stable P) (off : Nat) : Keeps P (setOffset off : FM σ Unit) :=
  .modify fun f hf => hs.offset f off hf

section

variable (hs : Stable P)

include hs

/-- `read` checks the mode before it reads. -/
theorem fileRead_keeps (h : ReadGuard ops P) (len : Nat) : Keeps P (fileRead ops len) := by
  apply keeps_checked
  refine h.imp_right fun h f => .bind inodeMetadata_keeps fun m => ?_
  apply Keeping.ite
  · exact fun _ => .throw _
  · exact fun _ => .bind (inodeReadAt_keeps h _ len) fun bytes =>
      .bind (setOffset_keeps hs _) fun _ => .pure bytes

/-- `write` checks the mode before it writes. -/
theorem fileWrite_keeps (h : WriteGuard ops P) (buf : List UInt8) : Keeps P (fileWrite ops buf) := by
  have hpos : Keeps P (writePosition ops) := Keeping.bind .get fun f =>
    Keeping.ite (fun _ => .bind inodeMetadata_keeps fun m => .pure _) fun _ => .pure _
  apply keeps_checked
  refine h.imp_right fun h f => Keeping.bind hpos fun off => ?_
  exact Keeping.bind (inodeWriteAt_keeps h off buf) fun n =>
    Keeping.bind (setOffset_keeps hs _) fun _ => .pure n

omit hs in
theorem fileTruncate_keeps (h : WriteGuard ops P) (len : Nat) : Keeps P (fileTruncate ops len) := by
  apply keeps_checked
  exact h.imp_right fun h f => inodeSetSize_keeps h len

theorem sysRead_keeps (h : ReadGuard ops P) (buf len : Nat) : Keeps P (sysRead ops buf len) := by
  apply keeps_checked
  refine Or.imp_right (fun hr f => ?_) h
  exact Keeping.bind (fileRead_keeps hs h _) fun tmp =>
    Keeping.bind (copyTo_keeps hr buf tmp) fun _ => .pure _

theorem sysWrite_keeps (h : WriteGuard ops P) (buf len : Nat) : Keeps P (sysWrite ops buf len) := by
  apply keeps_checked
  refine Or.imp_right (fun _ f => ?_) h
  exact .bind (copyFrom_keeps buf _) fun tmp => fileWrite_keeps hs h tmp

omit hs in
/-- `pread` does not check the mode. -/
theorem sysPread_keeps (h : MayRead ops P) (buf len off : Nat) : Keeps P (sysPread ops buf len off) :=
  .bind (inodeReadAt_keeps h off _) fun tmp =>
    Keeping.bind (copyTo_keeps h buf tmp) fun _ => .pure _

omit hs in
/-- `pwrite` does not check the mode. -/
theorem sysPwrite_keeps (h : MayWrite ops P) (buf len off : Nat) :
    Keeps P (sysPwrite ops buf len off) :=
  .bind (copyFrom_keeps buf _) fun tmp => inodeWriteAt_keeps h off tmp

omit hs in
/-- A vectored call is a run of transfers. -/
theorem vectored_keeps {transfer : Nat → Nat → Nat → FM σ Nat}
    (h : ∀ base len total, Keeps P (transfer base len total)) (v : List (Nat × Nat)) :
    ∀ total, Keeps P (vectored transfer v total) := by
  induction v with
  | nil => exact fun _ => Keeping.pure _
  | cons b v ih =>
    intro total
    refine .bind (h b.1 b.2 total) fun n => ?_
    exact Keeping.ite (fun _ => .pure _) fun _ => ih _

theorem sysReadv_keeps (h : ReadGuard ops P) (iov cnt : Nat) : Keeps P (sysReadv ops iov cnt) :=
  .bind (readIovec_keeps cnt iov) fun v =>
    vectored_keeps (fun base len _ => sysRead_keeps hs h base len) v 0

theorem sysWritev_keeps (h : WriteGuard ops P) (iov cnt : Nat) : Keeps P (sysWritev ops iov cnt) :=
  .bind (readIovec_keeps cnt iov) fun v =>
    vectored_keeps (fun base len _ => sysWrite_keeps hs h base len) (nonempty v) 0

theorem sysPreadv_keeps (h : ReadGuard ops P) (iov cnt : Nat) (off : Int)
    (hr : 0 ≤ off → MayRead ops P) : Keeps P (sysPreadv ops iov cnt off) := by
  apply Keeping.ite
  · exact fun _ => sysReadv_keeps hs h iov cnt
  · intro hoff
    refine .bind (readIovec_keeps cnt iov) fun v => vectored_keeps (fun base len total => ?_) _ 0
    exact sysPread_keeps (hr (by omega)) base len _

theorem sysPwritev_keeps (h : WriteGuard ops P) (iov cnt : Nat) (off : Int)
    (hw : 0 ≤ off → MayWrite ops P) : Keeps P (sysPwritev ops iov cnt off) := by
  apply Keeping.ite
  · exact fun _ => sysWritev_keeps hs h iov cnt
  · intro hoff
    refine .bind (readIovec_keeps cnt iov) fun v => vectored_keeps (fun base len total => ?_) _ 0
    exact sysPwrite_keeps (hw (by omega)) base len _

theorem fileSeek_keeps (w : Whence) : Keeps P (fileSeek ops w) := by
  have htarget : Keeps P (seekTarget ops w) := by
    cases w with
    | set p => exact Keeping.pure p
    | cur d => exact Keeping.bind .get fun f => .ite (fun _ => .pure _) fun _ => .throw _
    | end_ d =>
      exact Keeping.bind inodeMetadata_keeps fun m => .ite (fun _ => .pure _) fun _ => .throw _
  refine Keeping.bind htarget fun new => .ite (fun _ => .throw _) fun _ => ?_
  exact Keeping.bind (setOffset_keeps hs _) fun _ => .pure _

theorem sysLseek_keeps (off : Int) (whence : Nat) : Keeps P (sysLseek ops off whence) := by
  unfold sysLseek
  split
  · exact fileSeek_keeps hs _
  · exact fileSeek_keeps hs _
  · exact fileSeek_keeps hs _
  · exact Keeping.throw _

omit hs in
theorem sysFallocate_keeps (h : WriteGuard ops P) (mode : Int) (offset len : Nat) :
    Keeps P (sysFallocate ops mode offset len) := by
  refine Keeping.ite (fun _ => .ite (fun _ => ?_) fun _ => .throw _) fun _ => .pure _
  refine Keeping.bind inodeMetadata_keeps fun m => .ite (fun _ => ?_) fun _ => .pure _
  exact Keeping.bind (fileTruncate_keeps h _) fun _ => .pure _

end

/-- The calls that reach `read_at` without a look at the access mode. -/
def FileCall.readsUnchecked : FileCall → Bool
  | .pread _ _ _ => true
  | .preadv _ _ off => decide (0 ≤ off)
  | _ => false

/-- The calls that reach `write_at` without a look at the access mode. -/
def FileCall.writesUnchecked : FileCall → Bool
  | .pwrite _ _ _ => true
  | .pwritev _ _ off => decide (0 ≤ off)
  | _ => false

/-- What every call keeps, given what its unchecked accesses keep. -/
theorem perform_keeps (hs : Stable P) (hr : ReadGuard ops P) (hw : WriteGuard ops P) (c : FileCall)
    (hcr : c.readsUnchecked = true → MayRead ops P)
    (hcw : c.writesUnchecked = true → MayWrite ops P) : Keeps P (c.perform ops) := by
  cases c with
  | read buf len => exact sysRead_keeps hs hr buf len
  | write buf len => exact sysWrite_keeps hs hw buf len
  | pread buf len off => exact sysPread_keeps (hcr rfl) buf len off
  | pwrite buf len off => exact sysPwrite_keeps (hcw rfl) buf len off
  | readv iov cnt => exact sysReadv_keeps hs hr iov cnt
  | writev iov cnt => exact sysWritev_keeps hs hw iov cnt
  | preadv iov cnt off =>
    exact sysPreadv_keeps hs hr iov cnt off fun h => hcr (by simpa [FileCall.readsUnchecked] using h)
  | pwritev iov cnt off =>
    exact sysPwritev_keeps hs hw iov cnt off fun h => hcw (by simpa [FileCall.writesUnchecked] using h)
  | lseek off whence => exact sysLseek_keeps hs off whence
  | setfl arg => exact Keeping.bind (.modify fun f hf => hs.setfl f arg hf) fun _ => .pure _
  | ftruncate len => exact Keeping.bind (fileTruncate_keeps hw len) fun _ => .pure _
  | fallocate mode offset len => exact sysFallocate_keeps hw mode offset len

/-- `F_SETFL` leaves the access mode alone. -/
theorem setfl_accmode (flags fl : UInt32) :
    ((flags &&& ~~~setflMask) ||| (fl &&& setflMask)) &&& oAccmode = flags &&& oAccmode := by
  have h1 : ~~~setflMask &&& oAccmode = oAccmode := by decide
  have h2 : setflMask &&& oAccmode = 0 := by decide
  have hdistr : ∀ a b c : UInt32, (a ||| b) &&& c = (a &&& c) ||| (b &&& c) := by
    intro a b c
    apply UInt32.eq_of_toBitVec_eq
    exact BitVec.and_or_distrib_right ..
  rw [hdistr, UInt32.and_assoc, UInt32.and_assoc, h1, h2]
  simp

variable (ops) in
/-- Opened read-only, holding `bytes`. -/
def ReadOnly (bytes : List UInt8) (f : OpenFile σ) : Prop :=
  f.flags &&& oAccmode = oRdonly ∧ ops.contents f.inode = bytes

/-- Opened write-only, with `bytes` returned so far. -/
def WriteOnly (bytes : List UInt8) (f : OpenFile σ) : Prop :=
  f.flags &&& oAccmode = oWronly ∧ f.returned = bytes

variable (bytes : List UInt8)

theorem readOnly_stable : Stable (ReadOnly ops bytes) where
  offset _ _ h := h
  setfl f fl h := ⟨(setfl_accmode f.flags fl).trans h.1, h.2⟩

theorem readOnly_mayRead : MayRead ops (ReadOnly ops bytes) where
  reads f off len h := ⟨h.1, (ops.readAt_contents off len f.inode).trans h.2⟩
  copies _ _ _ h := h

theorem readOnly_refuses (f : OpenFile σ) (h : ReadOnly ops bytes f) : f.writeable = false := by
  simp [OpenFile.writeable, h.1]

theorem writeOnly_stable : Stable (WriteOnly (σ := σ) bytes) where
  offset _ _ h := h
  setfl f fl h := ⟨(setfl_accmode f.flags fl).trans h.1, h.2⟩

theorem writeOnly_mayWrite : MayWrite ops (WriteOnly bytes) where
  writes _ _ _ h := h
  sizes _ _ h := h

theorem writeOnly_refuses (f : OpenFile σ) (h : WriteOnly bytes f) : f.readable = false := by
  simp [OpenFile.readable, h.1]

/-- A checked call on a file opened for reading leaves the contents as they are. -/
theorem step_readOnly (f : OpenFile σ) (c : (Nat → Option UInt8) × FileCall)
    (h : ReadOnly ops bytes f) (hc : c.2.writesUnchecked = false) :
    ReadOnly ops bytes (f.step ops c) := by
  have hkeeps : Keeps (ReadOnly ops bytes) (c.2.perform ops) :=
    perform_keeps (readOnly_stable bytes) (.inr (readOnly_mayRead bytes))
      (.inl (readOnly_refuses bytes)) c.2 (fun _ => readOnly_mayRead bytes)
      fun hw => by rw [hc] at hw; cases hw
  exact hkeeps.state h

/-- A checked call on a file opened for writing returns no byte of it. -/
theorem step_writeOnly (f : OpenFile σ) (c : (Nat → Option UInt8) × FileCall)
    (h : WriteOnly bytes f) (hc : c.2.readsUnchecked = false) : WriteOnly bytes (f.step ops c) := by
  have hkeeps : Keeps (WriteOnly bytes) (c.2.perform ops) :=
    perform_keeps (writeOnly_stable bytes) (.inl (writeOnly_refuses bytes))
      (.inr (writeOnly_mayWrite bytes)) c.2 (fun hr => by rw [hc] at hr; cases hr)
      fun _ => writeOnly_mayWrite bytes
  exact hkeeps.state h

variable (ops) in
/-- In every run of calls, each made with whatever user memory: while no call is a
`pwrite` or positioned `pwritev`, a file opened read-only keeps its contents; while
none is a `pread` or positioned `preadv`, one opened write-only returns no byte. -/
theorem run_access_mode (f : OpenFile σ) (cs : List ((Nat → Option UInt8) × FileCall)) :
    (f.flags &&& oAccmode = oRdonly → (∀ c ∈ cs, c.2.writesUnchecked = false) →
      ∀ n, ops.contents (Run.run (OpenFile.step ops) (cs.take n) f).inode = ops.contents f.inode) ∧
    (f.flags &&& oAccmode = oWronly → (∀ c ∈ cs, c.2.readsUnchecked = false) →
      ∀ n, (Run.run (OpenFile.step ops) (cs.take n) f).returned = f.returned) := by
  constructor
  · intro hmode hcs n
    have ha : Run.Along (OpenFile.step ops) (fun _ c => c.2.writesUnchecked = false) cs f :=
      Run.along_of_forall hcs f
    have hinv := Run.along_invariant (fun f c => step_readOnly _ f c) cs f ⟨hmode, rfl⟩ ha n
    exact hinv.2
  · intro hmode hcs n
    have ha : Run.Along (OpenFile.step ops) (fun _ c => c.2.readsUnchecked = false) cs f :=
      Run.along_of_forall hcs f
    have hinv := Run.along_invariant (fun f c => step_writeOnly _ f c) cs f ⟨hmode, rfl⟩ ha n
    exact hinv.2

/-- A regular file in memory. -/
def memFile : InodeOps (List UInt8) where
  contents s := s
  metadata s := .ok (.regular, s.length)
  readAt off len s := (.ok ((s.drop off).take len), s)
  writeAt off buf s :=
    (.ok buf.length, (s ++ List.replicate (off - s.length) 0).take off ++ buf ++ s.drop (off + buf.length))
  setSize len s := (.ok (), (s ++ List.replicate (len - s.length) 0).take len)
  readAt_contents _ _ _ := rfl

/-- User memory that holds `7` everywhere. -/
def sevens : Nat → Option UInt8 := fun _ => some 7

/-- `pwrite` changes a file opened read-only; `pread` returns the bytes of one
opened write-only. -/
theorem step_unchecked :
    (OpenFile.step memFile (sevens, .pwrite 0x10000 2 1) { flags := oRdonly, inode := [1, 2, 3] }).inode =
      [1, 7, 7] ∧
    (OpenFile.step memFile (sevens, .pread 0x10000 2 1) { flags := oWronly, inode := [1, 2, 3] }).returned =
      [2, 3] := by
  decide

/-- A read-only file through `write`, `ftruncate` and `pread`; a write-only one
through `read`, `F_SETFL` and `pwrite`. -/
theorem run_access_mode_mixed :
    memFile.contents (Run.run (OpenFile.step memFile)
      ([(sevens, .write 0x10000 2), (sevens, .ftruncate 1), (sevens, .pread 0x10000 2 1)].take 3)
      { flags := oRdonly, inode := [1, 2, 3] }).inode = [1, 2, 3] ∧
    (Run.run (OpenFile.step memFile)
      ([(sevens, .read 0x10000 2), (sevens, .setfl oRdwr), (sevens, .pwrite 0x10000 2 1)].take 3)
      { flags := oWronly, inode := [1, 2, 3] }).returned = [] :=
  ⟨(run_access_mode memFile { flags := oRdonly, inode := [1, 2, 3] }
      [(sevens, .write 0x10000 2), (sevens, .ftruncate 1), (sevens, .pread 0x10000 2 1)]).1
      (by decide) (by simp [FileCall.writesUnchecked]) 3,
    (run_access_mode memFile { flags := oWronly, inode := [1, 2, 3] }
      [(sevens, .read 0x10000 2), (sevens, .setfl oRdwr), (sevens, .pwrite 0x10000 2 1)]).2
      (by decide) (by simp [FileCall.readsUnchecked]) 3⟩

end Fastros.Fs
