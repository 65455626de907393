import Fastros.Users.Database

/-!
# Lines of the account databases read back

A file that was written has the lines it was written with, and a line the record, as long
as no field has a separator, a newline or a carriage return.
-/

namespace Fastros.Users

open Lib.Texts List

/-- A text that can be a field. -/
def Plain (s : Text) : Prop := ':' ∉ s ∧ '\n' ∉ s ∧ '\r' ∉ s

/-- A name that can be a member of a group. -/
def Member (s : Text) : Prop := Plain s ∧ s ≠ [] ∧ ',' ∉ s

/-- A line that a file gives back. -/
def Clean (l : Text) : Prop := '\n' ∉ l ∧ '\r' ∉ l

structure User.Plain (u : User) : Prop where
  name : Users.Plain u.name
  gecos : Users.Plain u.gecos
  home : Users.Plain u.home
  shell : Users.Plain u.shell

structure Group.Plain (g : Group) : Prop where
  name : Users.Plain g.name
  members : ∀ m ∈ g.members, Member m

variable {s l : Text} {u : User} {g : Group}
variable {ls fs : List Text}

theorem plain_iff : Plain s ↔ ∀ c ∈ s, c ∉ [':', '\n', '\r'] := by
  constructor
  · intro h c hc hmem
    simp only [mem_cons, not_mem_nil, or_false] at hmem
    rcases hmem with rfl | rfl | rfl
    · exact h.1 hc
    · exact h.2.1 hc
    · exact h.2.2 hc
  · intro h
    exact ⟨fun hc => h _ hc (by decide), fun hc => h _ hc (by decide), fun hc => h _ hc (by decide)⟩

theorem mem_of_mem_lines {c : Char} (hl : l ∈ lines s) (hc : c ∈ l) : c ∈ s := by
  rw [lines, mem_append] at hl
  have hne : s.splitOn '\n' ≠ [] := splitOnP_ne_nil _ s
  rcases hl with hl | hl
  · obtain ⟨u, hu, rfl⟩ := mem_map.mp hl
    exact mem_of_splitOn (mem_of_mem_dropLast hu) (mem_of_mem_stripCr hc)
  split at hl
  · exact absurd hl not_mem_nil
  rw [mem_singleton] at hl
  subst hl
  rw [getLastD_eq_getLast?, getLast?_eq_some_getLast hne, Option.getD_some] at hc
  exact mem_of_splitOn (getLast_mem hne) hc

theorem clean_lines (h : '\r' ∉ s) : ∀ l ∈ lines s, Clean l :=
  fun _ hl => ⟨not_mem_of_mem_lines hl, fun hc => h (mem_of_mem_lines hl hc)⟩

theorem stripCr_clean (h : Clean l) : stripCr l = l := by
  rw [stripCr_self]
  intro hlast
  exact h.2 (mem_of_getLast? hlast)

theorem writeLines_cons (l m : Text) (ls : List Text) :
    writeLines (l :: m :: ls) = l ++ '\n' :: writeLines (m :: ls) := by
  simp [writeLines, intercalate]

/-- Clean lines are read back as they were written. -/
theorem lines_writeLines (hne : ls ≠ []) (h : ∀ l ∈ ls, Clean l) : lines (writeLines ls) = ls := by
  induction ls with
  | nil => exact absurd rfl hne
  | cons l ls ih =>
    have hl : Clean l := h l mem_cons_self
    cases ls with
    | nil =>
      have hw : writeLines [l] = l ++ '\n' :: [] := by simp [writeLines, intercalate]
      rw [hw, lines_cons hl.1, lines_nil, stripCr_clean hl]
    | cons m ls =>
      have hrest := ih (cons_ne_nil m ls) fun x hx => h x (mem_cons_of_mem l hx)
      rw [writeLines_cons, lines_cons hl.1, stripCr_clean hl, hrest]

/-- An empty file has one empty line, which is no record. -/
theorem filterMap_writeLines {α : Type} {f : Text → Option α} (hf : f [] = none)
    (h : ∀ l ∈ ls, Clean l) : (lines (writeLines ls)).filterMap f = ls.filterMap f := by
  cases ls with
  | nil =>
    have hw : lines (writeLines []) = [[]] := by decide
    rw [hw, filterMap_cons, hf]
  | cons l ls => rw [lines_writeLines (cons_ne_nil l ls) h]

theorem cr_writeLines (h : ∀ l ∈ ls, Clean l) : '\r' ∉ writeLines ls := by
  induction ls with
  | nil => decide
  | cons l ls ih =>
    have hl : Clean l := h l mem_cons_self
    cases ls with
    | nil =>
      have hw : writeLines [l] = l ++ ['\n'] := by simp [writeLines, intercalate]
      rw [hw, mem_append]
      intro hc
      rcases hc with hc | hc
      · exact hl.2 hc
      · exact absurd hc (by decide)
    | cons m ls =>
      have hrest := ih fun x hx => h x (mem_cons_of_mem l hx)
      rw [writeLines_cons, mem_append, mem_cons]
      intro hc
      rcases hc with hc | hc | hc
      · exact hl.2 hc
      · exact absurd hc (by decide)
      · exact hrest hc

/-- Fields without colons are read back as they were written. -/
theorem fields_join (hne : fs ≠ []) (h : ∀ f ∈ fs, ':' ∉ f) : fields (join fs) = fs :=
  splitOn_intercalate ':' h hne

theorem nameOf_join {f : Text} (h : ∀ g ∈ f :: fs, ':' ∉ g) : nameOf (join (f :: fs)) = f := by
  rw [nameOf, fields_join (cons_ne_nil f fs) h, headD_cons]

theorem clean_join (h : ∀ f ∈ fs, Clean f) : Clean (join fs) := by
  constructor
  · intro hc
    rcases mem_intercalate hc with he | ⟨f, hf, hcf⟩
    · exact absurd he (by decide)
    · exact (h f hf).1 hcf
  · intro hc
    rcases mem_intercalate hc with he | ⟨f, hf, hcf⟩
    · exact absurd he (by decide)
    · exact (h f hf).2 hcf

theorem Plain.clean (h : Plain s) : Clean s := h.2

/-- The fields of a clean line are plain. -/
theorem plain_field {f : Text} (hl : Clean l) (hf : f ∈ fields l) : Plain f :=
  ⟨not_mem_splitOn hf, fun hc => hl.1 (mem_of_splitOn hf hc), fun hc => hl.2 (mem_of_splitOn hf hc)⟩

theorem plain_idText (n : UInt32) : Plain (idText n) :=
  ⟨not_mem_decimal (by decide), not_mem_decimal (by decide), not_mem_decimal (by decide)⟩

theorem plain_x : Plain ['x'] := by
  unfold Plain
  decide

theorem parseId_idText (n : UInt32) : parseId (idText n) = some n := by
  have hn : n.toNat ≤ maxId := by
    have := n.toNat_lt
    simp only [maxId]
    omega
  rw [parseId, idText, parseNat_decimal hn, Option.map_some, UInt32.ofNat_toNat]

theorem User.Plain.fields (h : u.Plain) :
    ∀ f ∈ [u.name, ['x'], idText u.uid, idText u.gid, u.gecos, u.home, u.shell], Users.Plain f := by
  simp only [forall_mem_cons, not_mem_nil, false_implies, implies_true, and_true]
  exact ⟨h.name, plain_x, plain_idText _, plain_idText _, h.gecos, h.home, h.shell⟩

theorem clean_userLine (h : u.Plain) : Clean (userLine u) :=
  clean_join fun f hf => (h.fields f hf).clean

/-- The record of a plain user is read back. -/
theorem parseUser_userLine (h : u.Plain) : parseUser (userLine u) = some u := by
  have hf : Users.fields (userLine u) = _ :=
    fields_join (cons_ne_nil _ _) fun f hf => (h.fields f hf).1
  simp only [parseUser, hf, parseId_idText]
  rfl

theorem parseUser_some (h : parseUser l = some u) :
    u.name = nameOf l ∧ u.gecos ∈ fields l ∧ u.home ∈ fields l ∧ u.shell ∈ fields l := by
  unfold parseUser at h
  split at h
  · rename_i name x uid gid gecos home shell rest hf
    simp only [Option.bind_eq_bind, Option.bind_eq_some_iff] at h
    obtain ⟨a, -, b, -, hu⟩ := h
    cases hu
    simp [nameOf, hf]
  · cases h

theorem nameOf_mem_fields (l : Text) : nameOf l ∈ fields l := by
  obtain ⟨f, fs, hf⟩ := exists_cons_of_ne_nil (splitOnP_ne_nil (· == ':') l)
  have hf : fields l = f :: fs := hf
  rw [nameOf, hf, headD_cons]
  exact mem_cons_self

/-- A user parsed from a clean line is plain. -/
theorem plain_of_parseUser (hl : Clean l) (h : parseUser l = some u) : u.Plain := by
  obtain ⟨hn, hg, hh, hs⟩ := parseUser_some h
  refine ⟨?_, plain_field hl hg, plain_field hl hh, plain_field hl hs⟩
  rw [hn]
  exact plain_field hl (nameOf_mem_fields l)

theorem plain_members {ms : List Text} (h : ∀ m ∈ ms, Member m) : Plain ([','].intercalate ms) := by
  rw [plain_iff]
  intro c hc
  rcases mem_intercalate hc with he | ⟨m, hm, hcm⟩
  · rw [he]
    decide
  · exact plain_iff.mp (h m hm).1 c hcm

theorem Group.Plain.fields (h : g.Plain) :
    ∀ f ∈ [g.name, ['x'], idText g.gid, [','].intercalate g.members], Users.Plain f := by
  simp only [forall_mem_cons, not_mem_nil, false_implies, implies_true, and_true]
  exact ⟨h.name, plain_x, plain_idText _, plain_members h.members⟩

theorem clean_groupLine (h : g.Plain) : Clean (groupLine g) :=
  clean_join fun f hf => (h.fields f hf).clean

/-- Member names are read back from the list. -/
theorem split_members {ms : List Text} (h : ∀ m ∈ ms, Member m) :
    (([','].intercalate ms).splitOn ',').filter (fun m => !m.isEmpty) = ms := by
  cases ms with
  | nil => decide
  | cons m ms =>
    rw [splitOn_intercalate ',' (fun x hx => (h x hx).2.2) (cons_ne_nil m ms), filter_eq_self]
    intro x hx
    simpa using (h x hx).2.1

/-- The record of a plain group is read back. -/
theorem parseGroup_groupLine (h : g.Plain) : parseGroup (groupLine g) = some g := by
  have hf : Users.fields (groupLine g) = _ :=
    fields_join (cons_ne_nil _ _) fun f hf => (h.fields f hf).1
  simp only [parseGroup, hf, parseId_idText, split_members h.members]
  rfl

theorem parseGroup_some (h : parseGroup l = some g) : g.name = nameOf l ∧
      ∃ f ∈ fields l, g.members = (f.splitOn ',').filter fun m => !m.isEmpty := by
  unfold parseGroup at h
  split at h
  · rename_i name x gid members rest hf
    simp only [Option.bind_eq_bind, Option.bind_eq_some_iff] at h
    obtain ⟨a, -, hg⟩ := h
    cases hg
    refine ⟨by simp [nameOf, hf], members, by simp [hf], rfl⟩
  · cases h

/-- A group parsed from a clean line is plain. -/
theorem plain_of_parseGroup (hl : Clean l) (h : parseGroup l = some g) : g.Plain := by
  obtain ⟨hn, f, hf, hm⟩ := parseGroup_some h
  have hplain : Plain f := plain_field hl hf
  constructor
  · rw [hn]
    exact plain_field hl (nameOf_mem_fields l)
  intro m hmem
  rw [hm, mem_filter] at hmem
  have hm : Plain m := plain_iff.mpr fun c hc => plain_iff.mp hplain c (mem_of_splitOn hmem.1 hc)
  refine ⟨hm, ?_, not_mem_splitOn hmem.1⟩
  simpa using hmem.2

/-- A valid name can stand in every field. -/
theorem member_of_validName {n : Text} (h : validName n = true) : Member n := by
  cases n with
  | nil => cases h
  | cons c s =>
    simp only [validName, Bool.and_eq_true] at h
    have hall := all_eq_true.mp h.2
    have hno : ∀ d, (lower d || d.isDigit || d = '_' || d = '-') = false → d ∉ c :: s := by
      intro d hd hmem
      have ht := hall d hmem
      rw [hd] at ht
      exact absurd ht Bool.false_ne_true
    exact ⟨⟨hno ':' (by decide), hno '\n' (by decide), hno '\r' (by decide)⟩,
      cons_ne_nil c s, hno ',' (by decide)⟩

end Fastros.Users
