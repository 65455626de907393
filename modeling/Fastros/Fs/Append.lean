import Fastros.Fs.AccessMode
import Fastros.Fs.TmpfsPages

/-!
# Concurrent writes in append mode

With `O_APPEND`, `InodeFile::write` asks the inode for its size and then writes
there. Each of the two is atomic, and other calls may come in between.
-/

namespace Fastros.Fs

open Lib.Run Lib.Stateful Function

variable {σ : Type}

/-- One inode and the descriptions that append to it: the offset of each, and the
position and buffer of its call that has read the size but not yet written.
`written` collects the bytes that calls reported as written. -/
structure Appending (σ : Type) where
  inode : σ
  offset : Nat → Nat := fun _ => 0
  pending : Nat → Option (Nat × List UInt8) := fun _ => none
  written : List (List UInt8) := []

/-- The two halves of a `write` through description `d`. -/
inductive AppendStep where
  | metadata (d : Nat) (buf : List UInt8)
  | writeAt (d : Nat)

def appendStep (ops : InodeOps σ) : AppendStep → Appending σ → Appending σ
  | .metadata d buf, s =>
    match s.pending d, ops.metadata s.inode with
    | none, .ok m => { s with pending := update s.pending d (some (m.2, buf)) }
    | _, _ => s
  | .writeAt d, s =>
    match s.pending d with
    | none => s
    | some (off, buf) =>
      let s' := { s with
        inode := (ops.writeAt off buf s.inode).2
        pending := update s.pending d none }
      match (ops.writeAt off buf s.inode).1 with
      | .ok n => { s' with offset := update s.offset d (off + n), written := s.written ++ [buf.take n] }
      | .error _ => s'

/-- Alone, the two halves are the call. -/
theorem fileWrite_halves {ops : InodeOps σ} {f f' : OpenFile σ} {buf : List UInt8} {n : Nat} (d : Nat)
    (hf : f.flags &&& oAppend ≠ 0) (h : fileWrite ops buf f = .ok n f') :
    let s := run (appendStep ops) [.metadata d buf, .writeAt d] { inode := f.inode }
    s.inode = f'.inode ∧ s.offset d = f'.offset ∧ s.written = [buf.take n] := by
  simp only [fileWrite, writePosition, inodeMetadata, inodeWriteAt, setOffset, run_bind, run_get, run_ite,
    hf, if_true, ne_eq, not_false_eq_true] at h
  split at h
  · cases hm : ops.metadata f.inode with
    | error e => simp [hm, run_throw] at h
    | ok m =>
      cases hw : (ops.writeAt m.2 buf f.inode).1 with
      | error e => simp [hm, hw, run_throw, run_pure, run_modify] at h
      | ok n' =>
        simp only [hm, hw, run_pure, run_modify] at h
        cases h
        simp [run, appendStep, hm, hw]
  · cases h

/-- A regular file: its size is that of its contents, and a write at the end adds
the bytes it reports; if it fails it may have added a part of them. -/
structure Regular (ops : InodeOps σ) : Prop where
  size : ∀ {i m}, ops.metadata i = .ok m → m.2 = (ops.contents i).length
  extends_ : ∀ {i n} buf, (ops.writeAt (ops.contents i).length buf i).1 = .ok n →
    ops.contents (ops.writeAt (ops.contents i).length buf i).2 = ops.contents i ++ buf.take n
  fails : ∀ {i e} buf, (ops.writeAt (ops.contents i).length buf i).1 = .error e →
    ∃ n, ops.contents (ops.writeAt (ops.contents i).length buf i).2 = ops.contents i ++ buf.take n

/-- No call writes while another one is between its two halves. -/
def Unshared (s : Appending σ) : AppendStep → Prop
  | .metadata _ _ => True
  | .writeAt d => ∀ d', d' ≠ d → s.pending d' = none

/-- Blocks one after the other: those marked are the buffers that were written, the
others are left from calls that failed. -/
def InBlocks (contents : List UInt8) (written : List (List UInt8)) : Prop :=
  ∃ blocks : List (List UInt8 × Bool), contents = (blocks.map Prod.fst).flatten ∧
    (blocks.filter Prod.snd).map Prod.fst = written

theorem InBlocks.append {contents : List UInt8} {written : List (List UInt8)}
    (h : InBlocks contents written) (b : List UInt8) :
    InBlocks (contents ++ b) (written ++ [b]) ∧ InBlocks (contents ++ b) written := by
  obtain ⟨blocks, rfl, rfl⟩ := h
  exact ⟨⟨blocks ++ [(b, true)], by simp, by simp⟩, ⟨blocks ++ [(b, false)], by simp, by simp⟩⟩

/-- Calls that have read the size still know the end of the file. -/
def Appended (ops : InodeOps σ) (init : List UInt8) (s : Appending σ) : Prop :=
  (∀ d off buf, s.pending d = some (off, buf) → off = (ops.contents s.inode).length) ∧
    ∃ added, ops.contents s.inode = init ++ added ∧ InBlocks added s.written

variable {ops : InodeOps σ} {init : List UInt8}

theorem appended_step (hops : Regular ops) (s : Appending σ) (a : AppendStep)
    (h : Appended ops init s) (hs : Unshared s a) : Appended ops init (appendStep ops a s) := by
  obtain ⟨hpos, hcont⟩ := h
  obtain ⟨added, hadd, hblocks⟩ := hcont
  cases a with
  | metadata d buf =>
    simp only [appendStep]
    split
    · next m _ hm =>
      refine ⟨fun d' off b (hd' : update s.pending d _ d' = _) => ?_, added, hadd, hblocks⟩
      by_cases he : d' = d
      · subst he
        rw [update_self] at hd'
        cases hd'
        exact hops.size hm
      · rw [update_of_ne he] at hd'
        exact hpos d' off b hd'
    · exact ⟨hpos, added, hadd, hblocks⟩
  | writeAt d =>
    have hnone : ∀ d', update s.pending d none d' = none := by
      intro d'
      by_cases he : d' = d
      · rw [he, update_self]
      · rw [update_of_ne he, hs d' he]
    simp only [appendStep]
    split
    · exact ⟨hpos, added, hadd, hblocks⟩
    next off buf hd =>
    obtain rfl := hpos d off buf hd
    split
    · next n hn =>
      refine ⟨fun d' _ _ hd' => absurd ((hnone d').symm.trans hd') nofun, added ++ buf.take n, ?_,
        (hblocks.append _).1⟩
      rw [hops.extends_ buf hn, hadd, List.append_assoc]
    · next e he =>
      obtain ⟨n, hn⟩ := hops.fails buf he
      refine ⟨fun d' _ _ hd' => absurd ((hnone d').symm.trans hd') nofun, added ++ buf.take n, ?_,
        (hblocks.append _).2⟩
      rw [hn, hadd, List.append_assoc]

/-- A file of a tmpfs with a limit. -/
def tmpfsInode (limit : Nat) : InodeOps Tmpfs.PagedFile where
  contents s := s.readAt 0 s.size
  metadata s := .ok (.regular, s.size)
  readAt off len s := (.ok (s.readAt off len), s)
  writeAt off buf s := s.writeAt limit off buf
  setSize size s := (.ok (), s.truncate size)
  readAt_contents _ _ _ := rfl

open Tmpfs.PagedFile in
theorem tmpfs_regular (limit : Nat) : Regular (tmpfsInode limit) where
  size h := by
    cases h
    simp [tmpfsInode, readAt]
  extends_ {i n} buf h := by
    simp only [tmpfsInode, readAt, Nat.sub_zero, Nat.min_self, List.length_map, List.length_range,
      Nat.zero_add] at h ⊢
    unfold Tmpfs.PagedFile.writeAt at h ⊢
    split_ifs at h ⊢
    cases hr : i.writePages limit buf i.size with
    | mk ended s =>
      rw [hr] at h
      cases ended with
      | false => cases h
      | true =>
        obtain ⟨hsize, hbyte⟩ := byte_writePages _ _ _ hr
        cases h
        refine List.ext_getElem (by simp [hsize]) fun k h1 h2 => ?_
        have hk : k < i.size + buf.length := by simpa [hsize] using h1
        have hb : byte { s with size := max s.size (i.size + buf.length) } k = s.byte k := rfl
        rw [List.getElem_map, List.getElem_range, hb, hbyte]
        by_cases hlt : k < i.size
        · simp [hlt, Nat.not_le.mpr hlt]
        · simp [hk, Nat.le_of_not_lt hlt, List.getD_eq_getElem?_getD,
            List.getElem?_eq_getElem (show k - i.size < buf.length by omega)]
  fails {i e} buf h := by
    refine ⟨0, ?_⟩
    simp only [tmpfsInode, readAt, Nat.sub_zero, Nat.min_self, List.length_map, List.length_range,
      Nat.zero_add, List.take_zero, List.append_nil] at h ⊢
    obtain ⟨hsize, hbyte⟩ : (i.writePages limit buf i.size).2.size = i.size ∧ _ :=
      byte_writePages_below buf i.size i
    unfold Tmpfs.PagedFile.writeAt at h ⊢
    split_ifs at h ⊢
    · rfl
    cases hr : i.writePages limit buf i.size with
    | mk ended s =>
      rw [hr] at h hsize hbyte
      cases ended with
      | true => cases h
      | false =>
        simp only at hsize hbyte ⊢
        rw [hsize]
        exact List.map_congr_left fun k hk => hbyte k (List.mem_range.mp hk)

end Fastros.Fs
