import Fastros.Fs.Tmpfs
import Fastros.Lib.Run

/-!
# The pages of a tmpfs file

A regular file as it is stored, page by page, under the byte limit of its
filesystem, and the sparse array of bytes it stands for.
-/

namespace Fastros.Tmpfs

open Fs Lib.Run

def page : Nat := 4096

/-- `held` lists the pages of the map, `data` has their bytes by position in the
file, and `used` is the account of the filesystem. -/
structure PagedFile where
  held : List Nat := []
  data : Nat → UInt8 := fun _ => 0
  size : Nat := 0
  used : Nat := 0

namespace PagedFile

/-- A hole reads as zeros. -/
def byte (s : PagedFile) (i : Nat) : UInt8 := if i / page ∈ s.held then s.data i else 0

def readAt (s : PagedFile) (off len : Nat) : List UInt8 :=
  (List.range (min len (s.size - off))).map fun k => s.byte (off + k)

variable (limit : Nat)

/-- The page `pi`, charged and zeroed if it is missing; `none` is `ENOSPC`. -/
def ensure (pi : Nat) (s : PagedFile) : Option PagedFile :=
  if pi ∈ s.held then some s
  else if 0 < limit ∧ limit < s.used + page then none
  else some { s with
    held := pi :: s.held
    data := fun i => if i / page = pi then 0 else s.data i
    used := s.used + page }

/-- The loop of `write_at`, a byte at a time: the first byte of a page charges it. -/
def writePages : List UInt8 → Nat → PagedFile → Bool × PagedFile
  | [], _, s => (true, s)
  | b :: bs, pos, s =>
    match s.ensure limit (pos / page) with
    | none => (false, s)
    | some s => writePages bs (pos + 1) { s with data := Function.update s.data pos b }

def writeAt (off : Nat) (buf : List UInt8) (s : PagedFile) : Except Errno Nat × PagedFile :=
  if TmpFs.maxOffset < off + buf.length then (.error .efbig, s)
  else
    match writePages limit buf off s with
    | (true, s) => (.ok buf.length, { s with size := max s.size (off + buf.length) })
    | (false, s) => (.error .enospc, s)

/-- Shrinking drops the pages past the end and clears the rest of the last one. -/
def truncate (size : Nat) (s : PagedFile) : PagedFile :=
  if size < s.size then
    let dead := (size + page - 1) / page
    { held := s.held.filter (· < dead)
      data := fun i => if size ≤ i ∧ i / page = size / page then 0 else s.data i
      size := size
      used := s.used - (s.held.filter (dead ≤ ·)).length * page }
  else { s with size := size }

/-- The pages from `pos` on over `n` bytes that the file does not hold. -/
def missing (pos n : Nat) (s : PagedFile) : Finset Nat :=
  (Finset.range n).image (fun k => (pos + k) / page) \ s.held.toFinset

/-- The missing pages fit into the filesystem. -/
def Room (pos n : Nat) (s : PagedFile) : Prop :=
  limit = 0 ∨ s.missing pos n = ∅ ∨ s.used + (s.missing pos n).card * page ≤ limit

variable {limit} {s s' : PagedFile}

theorem missing_succ (pos n : Nat) (s : PagedFile) :
    s.missing pos (n + 1) = insert (pos / page) ((Finset.range n).image fun k => (pos + 1 + k) / page) \
      s.held.toFinset := by
  rw [missing, Finset.range_eq_Ico, Finset.range_eq_Ico]
  congr 1
  ext p
  simp only [Finset.mem_image, Finset.mem_Ico, Finset.mem_insert]
  constructor
  · rintro ⟨k, hk, rfl⟩
    cases k with
    | zero => exact .inl rfl
    | succ k => exact .inr ⟨k, by omega, by rw [Nat.add_right_comm, Nat.add_assoc]⟩
  · rintro (rfl | ⟨k, hk, rfl⟩)
    · exact ⟨0, by omega, rfl⟩
    · exact ⟨k + 1, by omega, by rw [Nat.add_right_comm, Nat.add_assoc]⟩

/-- With room for the missing pages a page is found or made, and there is room for
the rest. -/
theorem ensure_room {pos n : Nat} (h : s.Room limit pos (n + 1)) :
    ∃ s', s.ensure limit (pos / page) = some s' ∧ s'.Room limit (pos + 1) n := by
  simp only [Room, missing_succ] at h
  by_cases hp : pos / page ∈ s.held
  · refine ⟨s, if_pos hp, ?_⟩
    rw [Finset.insert_sdiff_of_mem _ (List.mem_toFinset.mpr hp)] at h
    exact h
  rw [Finset.insert_sdiff_of_notMem _ (by rwa [List.mem_toFinset])] at h
  have hnew : ∀ d u z, missing (pos + 1) n ⟨pos / page :: s.held, d, z, u⟩ =
      ((Finset.range n).image (fun k => (pos + 1 + k) / page) \ s.held.toFinset).erase (pos / page) := by
    intro d u z
    ext p
    simp only [missing, Finset.mem_sdiff, Finset.mem_erase, List.toFinset_cons, Finset.mem_insert]
    tauto
  generalize (Finset.range n).image (fun k => (pos + 1 + k) / page) \ s.held.toFinset = rest at h hnew
  rcases h with h | h | h
  · exact ⟨_, by rw [ensure, if_neg hp, if_neg (by omega)], .inl h⟩
  · exact absurd h (Finset.insert_ne_empty _ _)
  -- making the page takes it off the missing ones
  have hcard : (rest.erase (pos / page)).card + 1 = (insert (pos / page) rest).card := by
    rw [← Finset.erase_insert_eq_erase, Finset.card_erase_add_one (Finset.mem_insert_self _ _)]
  rw [← hcard, Nat.add_mul] at h
  refine ⟨_, by rw [ensure, if_neg hp, if_neg (by omega)], .inr (.inr ?_)⟩
  rw [hnew]
  simp only
  omega

/-- A write with room for the pages it misses stores all of its bytes. -/
theorem writePages_room (buf : List UInt8) : ∀ (pos : Nat) (s : PagedFile),
    s.Room limit pos buf.length → (s.writePages limit buf pos).1 = true := by
  induction buf with
  | nil => exact fun _ _ _ => rfl
  | cons b bs ih =>
    intro pos s h
    obtain ⟨s', he, hroom⟩ := ensure_room h
    simp only [writePages, he]
    exact ih _ _ hroom

theorem byte_ensure {pi : Nat} (h : s.ensure limit pi = some s') :
    pi ∈ s'.held ∧ s'.size = s.size ∧ ∀ i, s'.byte i = s.byte i := by
  unfold ensure at h
  split at h
  · next hp =>
    cases h
    exact ⟨hp, rfl, fun _ => rfl⟩
  next hp =>
  split at h
  · cases h
  · cases h
    refine ⟨.head _, rfl, fun i => ?_⟩
    by_cases hi : i / page = pi <;> simp [byte, hi, hp]

/-- A write that ends stores its bytes and no others. -/
theorem byte_writePages (buf : List UInt8) : ∀ (pos : Nat) (s : PagedFile),
    s.writePages limit buf pos = (true, s') → s'.size = s.size ∧
      ∀ i, s'.byte i = if pos ≤ i ∧ i < pos + buf.length then buf.getD (i - pos) 0 else s.byte i := by
  induction buf with
  | nil =>
    intro pos s h
    cases h
    exact ⟨rfl, fun i => (if_neg (by simp)).symm⟩
  | cons b bs ih =>
    intro pos s h
    simp only [writePages] at h
    split at h
    · cases h
    next s1 he =>
    obtain ⟨hheld, hsize, hbyte⟩ := byte_ensure he
    obtain ⟨hsize', hbyte'⟩ := ih _ _ h
    refine ⟨hsize'.trans hsize, fun i => ?_⟩
    rw [hbyte', ← hbyte]
    grind [byte]

/-- A write, also one that fails, stores nothing before its position. -/
theorem byte_writePages_below (buf : List UInt8) : ∀ (pos : Nat) (s : PagedFile),
    (s.writePages limit buf pos).2.size = s.size ∧
      ∀ i < pos, (s.writePages limit buf pos).2.byte i = s.byte i := by
  induction buf with
  | nil => exact fun pos s => ⟨rfl, fun _ _ => rfl⟩
  | cons b bs ih =>
    intro pos s
    simp only [writePages]
    split
    · exact ⟨rfl, fun _ _ => rfl⟩
    next s1 he =>
    obtain ⟨hheld, hsize, hbyte⟩ := byte_ensure he
    obtain ⟨hsize', hbyte'⟩ := ih (pos + 1) { s1 with data := Function.update s1.data pos b }
    refine ⟨hsize'.trans hsize, fun i hi => ?_⟩
    rw [hbyte' i (by omega), ← hbyte]
    grind [byte]

/-- Shrinking leaves zeros past the new end. -/
theorem byte_truncate {size : Nat} (h : size < s.size) (i : Nat) :
    (s.truncate size).byte i = if i < size then s.byte i else 0 := by
  simp only [truncate, if_pos h, byte, List.mem_filter, page]
  grind

end PagedFile

/-- A sparse array of bytes. -/
structure Sparse where
  size : Nat := 0
  byte : Nat → UInt8 := fun _ => 0

namespace Sparse

/-- There are zeros past the end. -/
def get (a : Sparse) (i : Nat) : UInt8 := if i < a.size then a.byte i else 0

def read (a : Sparse) (off len : Nat) : List UInt8 :=
  (List.range (min len (a.size - off))).map fun k => a.byte (off + k)

def write (off : Nat) (buf : List UInt8) (a : Sparse) : Sparse where
  size := max a.size (off + buf.length)
  byte i := if off ≤ i ∧ i < off + buf.length then buf.getD (i - off) 0 else a.get i

end Sparse

/-- `others` stands for what other files of the filesystem charge and give back. -/
inductive PagedCall where
  | writeAt (off : Nat) (buf : List UInt8)
  | truncate (size : Nat)
  | others (used : Nat)

namespace PagedCall

variable (limit : Nat)

/-- A call on the file, and what its result means for the bytes the file stands for. -/
def step : PagedCall → PagedFile × Sparse → PagedFile × Sparse
  | writeAt off buf, (s, a) =>
    match s.writeAt limit off buf with
    | (.ok n, s) => (s, a.write off (buf.take n))
    | (.error _, s) => (s, a)
  | truncate size, (s, a) => (s.truncate size, ⟨size, a.get⟩)
  | others used, (s, a) => ({ s with used := used }, a)

/-- There is room for the pages that a write misses, or none for the first one. -/
def Fits (p : PagedFile × Sparse) : PagedCall → Prop
  | writeAt off buf => p.1.Room limit off buf.length ∨
      off / page ∉ p.1.held ∧ 0 < limit ∧ limit < p.1.used + page
  | _ => True

/-- The file has the bytes it stands for, and zeros past its end. -/
def Refines (p : PagedFile × Sparse) : Prop := p.1.size = p.2.size ∧ ∀ i, p.1.byte i = p.2.get i

variable {limit} {s : PagedFile} {a : Sparse}

theorem refines_write {off : Nat} {buf : List UInt8} (h : Refines (s, a))
    (hf : Fits limit (s, a) (writeAt off buf)) : Refines (step limit (writeAt off buf) (s, a)) := by
  by_cases hmax : TmpFs.maxOffset < off + buf.length
  · simp only [step, PagedFile.writeAt, if_pos hmax]
    exact h
  cases hr : s.writePages limit buf off with
  | mk ended s' =>
    simp only [step, PagedFile.writeAt, if_neg hmax, hr]
    cases ended with
    | true =>
      obtain ⟨hsize, hbyte⟩ := PagedFile.byte_writePages _ _ _ hr
      simp only [List.take_length]
      refine ⟨by rw [hsize, h.1]; rfl, fun i => (hbyte i).trans ?_⟩
      rw [h.2]
      simp only [Sparse.get, Sparse.write]
      grind
    | false =>
      -- the first page was refused, so nothing was stored
      cases buf with
      | nil => cases hr
      | cons b bs =>
        cases he : s.ensure limit (off / page) with
        | none =>
          simp only [PagedFile.writePages, he] at hr
          cases hr
          exact h
        | some s1 =>
          rcases hf with hroom | ⟨hheld, hfull⟩
          · have hall := PagedFile.writePages_room _ _ _ hroom
            rw [hr] at hall
            cases hall
          · rw [PagedFile.ensure, if_neg hheld, if_pos hfull] at he
            cases he

theorem refines_step (p : PagedFile × Sparse) (c : PagedCall) (h : Refines p)
    (hc : Fits limit p c) : Refines (step limit c p) := by
  obtain ⟨s, a⟩ := p
  cases c with
  | writeAt off buf => exact refines_write h hc
  | others used => exact h
  | truncate size =>
    by_cases hlt : size < s.size
    · refine ⟨by simp only [step, PagedFile.truncate, if_pos hlt], fun i => ?_⟩
      exact (PagedFile.byte_truncate hlt i).trans (by rw [h.2]; rfl)
    simp only [step, PagedFile.truncate, if_neg hlt]
    refine ⟨rfl, fun i => (h.2 i).trans ?_⟩
    have := h.1
    simp only [Sparse.get]
    grind

end PagedCall

open PagedCall

/-- If no write runs out of space after its first page, reads return the bytes that
the calls say they stored. -/
theorem paged_refines (limit : Nat) (cs : List PagedCall) (off len : Nat)
    (h : Along (step limit) (Fits limit) cs ({}, {})) :
    (run (step limit) cs ({}, {})).1.readAt off len = (run (step limit) cs ({}, {})).2.read off len := by
  have hrun := along_invariant refines_step cs ({}, {}) ⟨rfl, fun i => (ite_self _).symm⟩ h cs.length
  rw [List.take_length] at hrun
  simp only [PagedFile.readAt, Sparse.read, hrun.1]
  refine List.map_congr_left fun k hk => (hrun.2 _).trans (if_pos ?_)
  have hk := List.mem_range.mp hk
  omega

/-- One byte, and a hole after it. -/
theorem paged_refines_hole :
    (run (step 4096) [writeAt 0 [7], truncate 2] ({}, {})).1.readAt 0 9 = [7, 0] :=
  paged_refines 4096 [writeAt 0 [7], truncate 2] 0 9 ⟨.inl (.inr (.inr (by decide))), trivial, trivial⟩

/-- A write over two pages with room for one fails, and its first byte shows up
when the file grows. -/
theorem failed_write_resurfaces :
    let p := run (step 4096) [writeAt 4095 [7, 8], truncate 4096] ({}, {})
    (PagedFile.writeAt 4096 4095 [7, 8] {}).1 = .error .enospc ∧
      p.1.readAt 4095 1 = [7] ∧ p.2.read 4095 1 = [0] :=
  ⟨rfl, rfl, rfl⟩

end Fastros.Tmpfs
