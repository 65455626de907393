import Fastros.Fs.Vfs
import Fastros.Lib.Run

/-!
# Reading a directory

`getdents64` lists the directory anew in every call and resumes at the index that
the offset of the description holds. A record is kept by its fields; its bytes
count towards the buffer.
-/

namespace Fastros.Fs

open Lib.Run

structure DirEntry where
  ino : Nat
  name : Name
  kind : FileType

def names (l : List DirEntry) : List Name := l.map DirEntry.name

structure Dirent where
  ino : Nat
  off : Nat
  reclen : Nat
  dtype : Nat
  name : Name

def dtype : FileType → Nat
  | .fifo => 1
  | .charDevice => 2
  | .directory => 4
  | .blockDevice => 6
  | .regular => 8
  | .symlink => 10
  | .socket => 12

/-- Header, name and terminator, aligned to 8 bytes. -/
def reclen (e : DirEntry) : Nat := (19 + e.name.length + 1 + 7) / 8 * 8

/-- The loop over the entries: the records that fit after the `used` bytes, and the
position reached. -/
def fill (len : Nat) : List DirEntry → (used consumed : Nat) → List Dirent × Nat
  | [], _, consumed => ([], consumed)
  | e :: es, used, consumed =>
    if used + reclen e > len then ([], consumed)
    else
      let r := fill len es (used + reclen e) (consumed + 1)
      (⟨e.ino, consumed + 1, reclen e, dtype e.kind, e.name⟩ :: r.1, r.2)

/-- A call: what `readdir` answers, the length of the buffer and whether it is mapped. -/
structure Getdents where
  readdir : Except Errno (List DirEntry)
  len : Nat
  mapped : Bool := true

/-- The records returned, none at the end, and the new offset. -/
def getdents64 (c : Getdents) (start : Nat) : Except Errno (List Dirent × Nat) := do
  let entries ← c.readdir
  let (out, consumed) := fill c.len (entries.drop start) 0 start
  if out ≠ [] then
    if c.mapped then return (out, consumed) else throw .efault
  else if consumed < entries.length then throw .einval
  else return ([], start)

/-- A description of a directory; `listed` is what its last call saw there and
`returned` the names it was given so far. -/
structure Listing where
  offset : Nat := 0
  listed : List DirEntry := []
  returned : List Name := []

def Listing.call (c : Getdents) (s : Listing) : Listing :=
  let s := { s with listed := c.readdir.toOption.getD s.listed }
  match getdents64 c s.offset with
  | .ok (out, off) => { s with offset := off, returned := s.returned ++ out.map Dirent.name }
  | .error _ => s

/-- Since the last call, entries came and went only behind the offset. -/
def Steady (s : Listing) (c : Getdents) : Prop :=
  ∀ l, c.readdir = .ok l → names (l.take s.offset) = names (s.listed.take s.offset)

/-- The records are those of the next entries, one for each step of the position. -/
theorem fill_eq (len : Nat) (es : List DirEntry) : ∀ used consumed,
    (fill len es used consumed).2 = consumed + (fill len es used consumed).1.length ∧
      (fill len es used consumed).1.map Dirent.name =
        names (es.take (fill len es used consumed).1.length) := by
  induction es with
  | nil => exact fun _ _ => ⟨rfl, rfl⟩
  | cons e es ih =>
    intro used consumed
    unfold fill
    split
    · exact ⟨rfl, rfl⟩
    obtain ⟨hpos, hnames⟩ := ih (used + reclen e) (consumed + 1)
    refine ⟨?_, congrArg (e.name :: ·) hnames⟩
    rw [hpos, List.length_cons]
    omega

/-- What a call returns lies between the two offsets, and is nothing only at the end. -/
theorem getdents64_ok {c : Getdents} {start off : Nat} {out : List Dirent} {l : List DirEntry}
    (hr : c.readdir = .ok l) (h : getdents64 c start = .ok (out, off)) : (out = [] → l.length ≤ start) ∧
      names (l.take off) = names (l.take start) ++ out.map Dirent.name := by
  obtain ⟨hpos, hnames⟩ := fill_eq c.len (l.drop start) 0 start
  simp only [getdents64, hr, bind, Except.bind] at h
  split at h
  · next hne =>
    split at h
    · cases h
      refine ⟨fun he => absurd he hne, ?_⟩
      rw [hnames, hpos, List.take_add, names, List.map_append]
      rfl
    · cases h
  · next hnil =>
    split at h
    · cases h
    next hend =>
    cases h
    rw [hpos, not_not.mp hnil] at hend
    exact ⟨fun _ => Nat.not_lt.mp hend, (List.append_nil _).symm⟩

/-- The names returned so far are those before the offset. -/
def Told (s : Listing) : Prop := s.returned = names (s.listed.take s.offset)

theorem told_call (s : Listing) (c : Getdents) (h : Told s) (hc : Steady s c) : Told (s.call c) := by
  cases hr : c.readdir with
  | error e =>
    simp only [Told, Listing.call, getdents64, hr]
    exact h
  | ok l =>
    have hl : s.returned = names (l.take s.offset) := h.trans (hc l hr).symm
    simp only [Told, Listing.call, hr]
    split
    · next out off hcall => rw [hl, ← (getdents64_ok hr hcall).2]; rfl
    · exact hl

/-- If entries come and go only behind the offset, the calls up to the one that
returns nothing return every entry once. -/
theorem getdents64_once (cs : List Getdents) (c : Getdents) {l : List DirEntry} {e : DirEntry} {off : Nat}
    (hcs : Along Listing.call Steady cs {})
    (hc : Steady (run Listing.call cs {}) c) (hl : c.readdir = .ok l)
    (hnodup : (names l).Nodup) (he : e ∈ l)
    (hend : getdents64 c (run Listing.call cs {}).offset = .ok ([], off)) :
    (run Listing.call cs {}).returned.count e.name = 1 := by
  have hrun := along_invariant told_call cs {} rfl hcs cs.length
  rw [Told, List.take_length, ← hc l hl, List.take_of_length_le ((getdents64_ok hl hend).1 rfl)] at hrun
  rw [hrun]
  exact List.count_eq_one_of_mem hnodup (List.mem_map_of_mem he)

def entryOf (c : UInt8) : DirEntry := ⟨c.toNat, [c], .regular⟩

/-- Two entries through a buffer for one. -/
theorem getdents64_once_two :
    (run Listing.call [⟨.ok [entryOf 97, entryOf 98], 24, true⟩, ⟨.ok [entryOf 97, entryOf 98], 24, true⟩]
      {}).returned.count [98] = 1 := by
  refine getdents64_once _ ⟨.ok [entryOf 97, entryOf 98], 24, true⟩ (e := entryOf 98)
    ⟨?_, ?_, trivial⟩ ?_ rfl (by decide) (.tail _ (.head _)) rfl
  · rintro _ ⟨⟩
    rfl
  · rintro _ ⟨⟩
    rfl
  · rintro _ ⟨⟩
    rfl

/-- With the first of three entries removed after the first call, the second one is
never returned. -/
theorem getdents64_skips :
    let s := run Listing.call [⟨.ok [entryOf 97, entryOf 98, entryOf 99], 24, true⟩,
      ⟨.ok [entryOf 98, entryOf 99], 24, true⟩] {}
    getdents64 ⟨.ok [entryOf 98, entryOf 99], 24, true⟩ s.offset = .ok ([], 2) ∧
      s.returned = [[97], [99]] :=
  ⟨rfl, rfl⟩

end Fastros.Fs
