import Fastros.Users.Records

/-!
# Coherent account databases

Users have unique names and ids and one password line each, and group members are users.
The calls on passwords and groups keep this, as long as only users are made members.
-/

namespace Fastros.Users

open Lib.Texts Lib.Stateful List

/-- The line written for a record is read back as one line and as the record. -/
def Record.ReadsBack : Record → Prop
  | .user u => lines (writeLines [userLine u]) = [userLine u] ∧ parseUser (userLine u) = some u
  | .group g => lines (writeLines [groupLine g]) = [groupLine g] ∧ parseGroup (groupLine g) = some g

def Db.names (db : Db) : List Text := db.users.map User.name

/-- The names of the password lines. -/
def Db.shadowNames (db : Db) : List Text := (lines db.shadow).map nameOf

structure Coherent (db : Db) : Prop where
  names : db.names.Nodup
  uids : (db.users.map User.uid).Nodup
  oneLine : db.shadowNames.Nodup
  shadow : ∀ n, n ∈ db.shadowNames ↔ n ∈ db.names
  members : ∀ g ∈ db.groups, ∀ m ∈ g.members, m ∈ db.names
  readBack : ∀ r ∈ db.written, r.ReadsBack

/-- No file has a carriage return. -/
structure NoCr (db : Db) : Prop where
  passwd : '\r' ∉ db.passwd
  group : '\r' ∉ db.group
  shadow : '\r' ∉ db.shadow

structure Good (db : Db) : Prop where
  coherent : Coherent db
  noCr : NoCr db

variable {α : Type} {u : User} {f : Text → Option α} {gid : Option UInt32} {g : Group}
  {name new l group user : Text} {ls : List Text} {db db' : Db} {a : Unit}

theorem readsBack_user (h : u.Plain) : (Record.user u).ReadsBack := by
  refine ⟨lines_writeLines (cons_ne_nil _ _) ?_, parseUser_userLine h⟩
  intro l hl
  rw [mem_singleton.mp hl]
  exact clean_userLine h

theorem readsBack_group (h : g.Plain) : (Record.group g).ReadsBack := by
  refine ⟨lines_writeLines (cons_ne_nil _ _) ?_, parseGroup_groupLine h⟩
  intro l hl
  rw [mem_singleton.mp hl]
  exact clean_groupLine h

theorem mem_setLine (h : l ∈ setLine name new ls) : l = new ∨ l ∈ ls := by
  induction ls with
  | nil => exact absurd h not_mem_nil
  | cons a ls ih =>
    rw [setLine] at h
    split at h
    · rcases mem_cons.mp h with he | hm
      · exact .inl he
      · exact .inr (mem_cons_of_mem a hm)
    rcases mem_cons.mp h with he | hm
    · exact .inr (he ▸ mem_cons_self)
    · rcases ih hm with he | hm
      · exact .inl he
      · exact .inr (mem_cons_of_mem a hm)

theorem clean_setLine (name : Text) (hn : Clean new)
    (h : ∀ l ∈ ls, Clean l) : ∀ l ∈ setLine name new ls, Clean l := by
  intro l hl
  rcases mem_setLine hl with he | hm
  · rw [he]
    exact hn
  · exact h l hm

/-- Replacing the line of a name leaves the names as they are. -/
theorem nameOf_setLine (hn : nameOf new = name) (ls : List Text) :
    (setLine name new ls).map nameOf = ls.map nameOf := by
  induction ls with
  | nil => rfl
  | cons l ls ih =>
    rw [setLine]
    split
    · rename_i hl
      rw [map_cons, map_cons, hn, hl]
    · rw [map_cons, map_cons, ih]

/-- A record replaced by one that agrees on `g` leaves all values of `g`. -/
theorem map_setLine {β : Type} {g : α → β} {a b : α}
    (ha : f l = some a) (hb : f new = some b) (hg : g b = g a) :
    ∀ {ls : List Text}, findLine name ls = some l →
      ((setLine name new ls).filterMap f).map g = (ls.filterMap f).map g := by
  intro ls
  induction ls with
  | nil =>
    intro h
    cases h
  | cons x ls ih =>
    intro h
    rw [findLine, find?_cons] at h
    rw [setLine]
    by_cases hx : nameOf x = name
    · simp only [hx, decide_true, Option.some.injEq] at h
      subst h
      rw [if_pos hx, filterMap_cons, filterMap_cons, ha, hb, map_cons, map_cons, hg]
    simp only [hx, decide_false] at h
    rw [if_neg hx, filterMap_cons, filterMap_cons]
    have hrest := ih h
    cases f x with
    | none => exact hrest
    | some y => rw [map_cons, map_cons, hrest]

theorem mem_filterMap_setLine {b x : α}
    (hb : f new = some b) (h : x ∈ (setLine name new ls).filterMap f) :
    x = b ∨ x ∈ ls.filterMap f := by
  obtain ⟨l, hl, hx⟩ := mem_filterMap.mp h
  rcases mem_setLine hl with he | hm
  · rw [he, hb] at hx
    exact .inl (Option.some.inj hx).symm
  · exact .inr (mem_filterMap.mpr ⟨l, hm, hx⟩)

theorem findLine_some (h : findLine name ls = some l) : l ∈ ls ∧ nameOf l = name :=
  ⟨mem_of_find?_eq_some h, by simpa using find?_some h⟩

theorem isSome_findLine (h : name ∈ ls.map nameOf) : (findLine name ls).isSome = true := by
  obtain ⟨l, hl, hn⟩ := mem_map.mp h
  rw [findLine, find?_isSome]
  exact ⟨l, hl, by simpa using hn⟩

theorem clean_without (h : ∀ l ∈ ls, Clean l) : ∀ l ∈ without name ls, Clean l :=
  fun l hl => h l (mem_filter.mp hl).1

theorem nameOf_without (name : Text) (ls : List Text) :
    (without name ls).map nameOf = (ls.map nameOf).filter fun n => n ≠ name := by
  rw [without, filter_map]
  rfl

/-- The records of the lines that stay, when a record has the name of its line. -/
theorem filterMap_without {key : α → Text}
    (hk : ∀ l a, f l = some a → key a = nameOf l) (name : Text) (ls : List Text) :
    (without name ls).filterMap f = (ls.filterMap f).filter fun a => key a ≠ name := by
  induction ls with
  | nil => rfl
  | cons l ls ih =>
    have hrest : (without name ls).filterMap f = _ := ih
    rw [without, filter_cons]
    cases hf : f l with
    | none =>
      rw [filterMap_cons_none hf]
      split
      · rw [filterMap_cons_none hf]
        exact hrest
      · exact hrest
    | some a =>
      rw [filterMap_cons_some hf, filter_cons, hk l a hf]
      split
      · rw [filterMap_cons_some hf]
        exact congrArg _ hrest
      · exact hrest

theorem parseUser_nil : parseUser [] = none := by decide

theorem parseGroup_nil : parseGroup [] = none := by decide

/-- The group file is written anew: its groups have members that are users. -/
theorem Good.writeGroup (h : Good db) (ls : List Text) (rs : List Group) (hc : ∀ l ∈ ls, Clean l)
    (hm : ∀ g ∈ ls.filterMap parseGroup, ∀ m ∈ g.members, m ∈ db.names) (hr : ∀ g ∈ rs, g.Plain) :
    Good { db with group := writeLines ls, written := rs.map .group ++ db.written } := by
  have hg : (lines (writeLines ls)).filterMap parseGroup = ls.filterMap parseGroup :=
    filterMap_writeLines parseGroup_nil hc
  refine ⟨⟨h.coherent.names, h.coherent.uids, h.coherent.oneLine, h.coherent.shadow, ?_, ?_⟩,
    ⟨h.noCr.passwd, cr_writeLines hc, h.noCr.shadow⟩⟩
  · intro g hmem
    have hmem : g ∈ (lines (writeLines ls)).filterMap parseGroup := hmem
    rw [hg] at hmem
    exact hm g hmem
  · intro r hmem
    rcases mem_append.mp hmem with hnew | hold
    · obtain ⟨g, hgm, rfl⟩ := mem_map.mp hnew
      exact readsBack_group (hr g hgm)
    · exact h.coherent.readBack r hold

/-- The password file is written anew with the same names. -/
theorem Good.writeShadow (h : Good db) (hne : ls ≠ [])
    (hc : ∀ l ∈ ls, Clean l) (hn : ls.map nameOf = db.shadowNames) :
    Good { db with shadow := writeLines ls } := by
  have hs : (lines (writeLines ls)).map nameOf = db.shadowNames := by
    rw [lines_writeLines hne hc, hn]
  refine ⟨⟨h.coherent.names, h.coherent.uids, ?_, ?_, h.coherent.members, h.coherent.readBack⟩,
    ⟨h.noCr.passwd, h.noCr.group, cr_writeLines hc⟩⟩
  · show ((lines (writeLines ls)).map nameOf).Nodup
    rw [hs]
    exact h.coherent.oneLine
  · intro n
    show n ∈ (lines (writeLines ls)).map nameOf ↔ _
    rw [hs]
    exact h.coherent.shadow n

/-- From a coherent state, a call that returns leaves one. -/
abbrev Safe {α : Type} (x : M α) : Prop := Triple Good x (fun _ => Good) (fun _ _ => True)

theorem plain_aging (day : Nat) : ∀ f ∈ aging day, Plain f := by
  have hd : ∀ n, Plain (decimal n) := fun n =>
    ⟨not_mem_decimal (by decide), not_mem_decimal (by decide), not_mem_decimal (by decide)⟩
  have hrest : ∀ f ∈ [['0'], "99999".toList, ['7'], [], [], []], Plain f := by
    unfold Plain
    decide
  intro f hf
  rcases mem_cons.mp hf with he | hm
  · rw [he]
    exact hd day
  · exact hrest f hm

theorem byName_some (h : db.byName name = some u) : u ∈ db.users ∧ u.name = name :=
  ⟨mem_of_find?_eq_some h, by simpa using find?_some h⟩

theorem user_plain (h : NoCr db) (hu : u ∈ db.users) : u.Plain := by
  obtain ⟨l, hl, hp⟩ := mem_filterMap.mp hu
  exact plain_of_parseUser (clean_lines h.passwd l hl) hp

/-- Setting a password changes the shadow file only. -/
theorem safe_setPassword (day : Nat) (name : Text) (hash : Hash) :
    Safe (setPassword day name hash) := by
  apply Triple.bind (R := fun db s => Good s ∧ db = s) (.get fun _ h => ⟨h, rfl⟩)
  intro db
  apply Triple.ite (fun _ => .throw fun _ _ => trivial)
  intro hsome
  have hfound : db.byName name ≠ none := by simpa using hsome
  obtain ⟨u, hu⟩ := Option.ne_none_iff_exists'.mp hfound
  obtain ⟨hmem, hname⟩ := byName_some hu
  have hfields : Good db → ∀ f ∈ name :: hash.text :: aging day, Plain f := by
    intro h f hf
    rcases mem_cons.mp hf with he | hf
    · rw [he, ← hname]
      exact (user_plain h.noCr hmem).name
    rcases mem_cons.mp hf with he | hf
    · rw [he]
      exact hash.plain
    · exact plain_aging day f hf
  have hline : Good db → name ∈ (lines db.shadow).map nameOf := by
    intro h
    exact (h.coherent.shadow name).mpr (mem_map.mpr ⟨u, hmem, hname⟩)
  apply Triple.ite
  · intro _
    apply Triple.modify
    intro s hs
    obtain ⟨h, rfl⟩ := hs
    have hplain := hfields h
    have hn := nameOf_setLine (nameOf_join fun f hf => (hplain f hf).1) (lines db.shadow)
    apply h.writeShadow
    · intro he
      rw [he] at hn
      have hnil := hline h
      rw [← hn] at hnil
      exact absurd hnil not_mem_nil
    · exact clean_setLine name (clean_join fun f hf => (hplain f hf).clean) (clean_lines h.noCr.shadow)
    · exact hn
  · intro hnone
    apply Triple.modify
    intro s hs
    obtain ⟨h, rfl⟩ := hs
    exact absurd (isSome_findLine (hline h)) hnone

theorem mem_mark {lock : Bool} {pw : Text} {c : Char} (h : c ∈ mark lock pw) :
    c = '!' ∨ c ∈ pw := by
  unfold mark at h
  split at h
  · split at h
    · exact .inr h
    · exact mem_cons.mp h
  · exact .inr ((dropWhile_sublist _).mem h)

theorem plain_mark {lock : Bool} {pw : Text} (h : Plain pw) : Plain (mark lock pw) := by
  rw [plain_iff]
  intro c hc
  rcases mem_mark hc with he | hm
  · rw [he]
    decide
  · exact plain_iff.mp h c hm

theorem safe_lockPassword (name : Text) (lock : Bool) : Safe (lockPassword name lock) := by
  apply Triple.bind (R := fun db s => Good s ∧ db = s) (.get fun _ h => ⟨h, rfl⟩)
  intro db
  cases hl : findLine name (lines db.shadow) with
  | none =>
    simp only [hl]
    exact .throw fun _ _ => trivial
  | some l =>
    simp only [hl]
    obtain ⟨hmem, hname⟩ := findLine_some hl
    split
    · rename_i n pw rest hf
      apply Triple.modify
      intro s hs
      obtain ⟨h, rfl⟩ := hs
      have hclean := clean_lines h.noCr.shadow
      have hold : ∀ f ∈ n :: pw :: rest, Plain f := by
        rw [← hf]
        exact fun f => plain_field (hclean l hmem)
      have hplain : ∀ f ∈ n :: mark lock pw :: rest, Plain f := by
        intro f hm
        rcases mem_cons.mp hm with he | hm
        · exact he ▸ hold n mem_cons_self
        rcases mem_cons.mp hm with he | hm
        · exact he ▸ plain_mark (hold pw (mem_cons_of_mem _ mem_cons_self))
        · exact hold f (mem_cons_of_mem _ (mem_cons_of_mem _ hm))
      have hn : n = name := by
        rw [← hname, nameOf, hf, headD_cons]
      have hnames := nameOf_setLine
        ((nameOf_join fun f hm => (hplain f hm).1).trans hn) (lines db.shadow)
      apply h.writeShadow
      · intro he
        rw [he] at hnames
        have hnil : nameOf l ∈ (lines db.shadow).map nameOf := mem_map_of_mem hmem
        rw [← hnames] at hnil
        exact absurd hnil not_mem_nil
      · exact clean_setLine name (clean_join fun f hm => (hplain f hm).clean) hclean
      · exact hnames
    · exact .throw fun _ _ => trivial

theorem group_plain (h : NoCr db) (hg : g ∈ db.groups) : g.Plain := by
  obtain ⟨l, hl, hp⟩ := mem_filterMap.mp hg
  exact plain_of_parseGroup (clean_lines h.group l hl) hp

/-- What a changed group line leaves. -/
def Db.withGroup (db : Db) (group : Text) (g : Group) : Db :=
  { db with
    group := writeLines (setLine group (groupLine g) (lines db.group))
    written := .group g :: db.written }

/-- An edit replaces the line of one group. -/
theorem editGroup_ok {edit : Group → Except Errno Group} (h : editGroup group edit db = .ok a db') :
    ∃ l g g', findLine group (lines db.group) = some l ∧ parseGroup l = some g ∧
      edit g = .ok g' ∧ db' = db.withGroup group g' := by
  unfold editGroup at h
  rw [bind_ok (run_get db)] at h
  rcases hl : findLine group (lines db.group) with _ | l
  · simp only [hl] at h; cases h
  rcases hg : parseGroup l with _ | g
  · simp only [hl, hg] at h; cases h
  rcases he : edit g with e | g'
  · simp only [hl, hg, he] at h; cases h
  simp only [hl, hg, he] at h
  cases h
  exact ⟨l, g, g', rfl, hg, he, rfl⟩

/-- A group of known members may replace another. -/
theorem good_withGroup (h : Good db) (hp : g.Plain)
    (hm : ∀ m ∈ g.members, m ∈ db.names) : Good (db.withGroup group g) := by
  have hw := h.writeGroup (setLine group (groupLine g) (lines db.group)) [g]
    (clean_setLine group (clean_groupLine hp) (clean_lines h.noCr.group))
    (by
      intro x hx
      rcases mem_filterMap_setLine (parseGroup_groupLine hp) hx with he | hold
      · rw [he]
        exact hm
      · exact h.coherent.members x hold)
    (by
      intro x hx
      rw [mem_singleton.mp hx]
      exact hp)
  exact hw

theorem mem_groups_withGroup (h : NoCr db) {x : Group} (hp : g.Plain)
    (hx : x ∈ (db.withGroup group g).groups) : x = g ∨ x ∈ db.groups := by
  have hc := clean_setLine group (clean_groupLine hp) (clean_lines h.group)
  have hx : x ∈ (lines (writeLines (setLine group (groupLine g) (lines db.group)))).filterMap
      parseGroup := hx
  rw [filterMap_writeLines parseGroup_nil hc] at hx
  exact mem_filterMap_setLine (parseGroup_groupLine hp) hx

theorem mem_groups_of_findLine
    (hl : findLine group (lines db.group) = some l) (hg : parseGroup l = some g) :
    g ∈ db.groups ∧ g.name = group := by
  obtain ⟨hmem, hname⟩ := findLine_some hl
  exact ⟨mem_filterMap.mpr ⟨l, hmem, hg⟩, (parseGroup_some hg).1.trans hname⟩

theorem add_plain (h : g.Plain) (hu : Member user) : (g.add user).Plain := by
  refine ⟨h.name, ?_⟩
  intro m hm
  unfold Group.add at hm
  split at hm
  · exact h.members m hm
  rcases mem_append.mp hm with hold | hnew
  · exact h.members m hold
  · rw [mem_singleton.mp hnew]
    exact hu

theorem mem_add {m : Text} (hm : m ∈ (g.add user).members) : m = user ∨ m ∈ g.members := by
  unfold Group.add at hm
  split at hm
  · exact .inr hm
  · rcases mem_append.mp hm with hold | hnew
    · exact .inr hold
    · exact .inl (mem_singleton.mp hnew)

theorem remove_plain (h : g.Plain) (user : Text) : (g.remove user).Plain :=
  ⟨h.name, fun m hm => h.members m (mem_filter.mp hm).1⟩

/-- Whom the groups have got: `user` in those named, and nobody else. -/
def Gains (user : Text) (named : List Text) (db db' : Db) : Prop :=
  ∀ g ∈ db'.groups, user ∈ g.members →
    g.name ∈ named ∨ ∃ g₀ ∈ db.groups, g₀.name = g.name ∧ user ∈ g₀.members

/-- A user may be added to a group. -/
theorem addToGroup_ok (h : Good db)
    (hu : Member user) (hn : user ∈ db.names) (hr : addToGroup user group db = .ok a db') :
    Good db' ∧ db'.passwd = db.passwd ∧ db'.shadow = db.shadow ∧ Gains user [group] db db' := by
  obtain ⟨l, g, g', hl, hg, he, rfl⟩ := editGroup_ok hr
  cases he
  obtain ⟨hmem, hname⟩ := mem_groups_of_findLine hl hg
  have hp := add_plain (group_plain h.noCr hmem) hu
  refine ⟨good_withGroup h hp ?_, rfl, rfl, ?_⟩
  · intro m hm
    rcases mem_add hm with he | hold
    · rw [he]
      exact hn
    · exact h.coherent.members g hmem m hold
  · intro x hx hux
    rcases mem_groups_withGroup h.noCr hp hx with he | hold
    · left
      rw [he, mem_singleton]
      exact hname
    · exact .inr ⟨x, hold, rfl, hux⟩

theorem names_congr (h : db'.passwd = db.passwd) : db'.names = db.names := by
  simp only [Db.names, Db.users, h]

theorem addToGroups_ok (hu : Member user) (gs : List Text) :
    ∀ {db db' : Db} {a : Unit}, Good db → user ∈ db.names →
      addToGroups user gs db = .ok a db' →
      Good db' ∧ db'.passwd = db.passwd ∧ db'.shadow = db.shadow ∧ Gains user gs db db' := by
  induction gs with
  | nil =>
    intro db db' a h _ hr
    cases hr
    exact ⟨h, rfl, rfl, fun g hg hm => .inr ⟨g, hg, rfl, hm⟩⟩
  | cons g gs ih =>
    intro db db' a h hn hr
    obtain ⟨b, mid, h1, h2⟩ := bind_eq_ok.mp hr
    obtain ⟨hgood, hp, hs, hgain⟩ := addToGroup_ok h hu hn h1
    obtain ⟨hgood', hp', hs', hgain'⟩ := ih hgood (by rw [names_congr hp]; exact hn) h2
    refine ⟨hgood', hp'.trans hp, hs'.trans hs, ?_⟩
    intro x hx hux
    rcases hgain' x hx hux with hin | ⟨y, hy, hyx, huy⟩
    · exact .inl (mem_cons_of_mem g hin)
    rcases hgain y hy huy with hin | ⟨z, hz, hzy, huz⟩
    · left
      rw [← hyx, mem_singleton.mp hin]
      exact mem_cons_self
    · exact .inr ⟨z, hz, hzy.trans hyx, huz⟩

theorem good_removeFromGroup (h : Good db)
    (hr : removeFromGroup user group db = .ok a db') : Good db' := by
  obtain ⟨l, g, g', hl, hg, he, rfl⟩ := editGroup_ok hr
  obtain ⟨hmem, -⟩ := mem_groups_of_findLine hl hg
  split at he
  · cases he
    apply good_withGroup h (remove_plain (group_plain h.noCr hmem) user)
    intro m hm
    exact h.coherent.members g hmem m (mem_filter.mp hm).1
  · cases he

/-- What is left of the groups without a user. -/
theorem mem_dropMember (hc : ∀ l ∈ ls, Clean l)
    (hg : g ∈ (ls.map (dropMember user)).filterMap parseGroup) :
    user ∉ g.members ∧ ∃ g0 ∈ ls.filterMap parseGroup, ∀ m ∈ g.members, m ∈ g0.members := by
  obtain ⟨l', hl', hp⟩ := mem_filterMap.mp hg
  obtain ⟨l, hl, rfl⟩ := mem_map.mp hl'
  unfold dropMember reduced at hp
  cases hg0 : parseGroup l with
  | none =>
    simp only [hg0, Option.map_none, Option.getD_none] at hp
    cases hp
  | some g0 =>
    have hmem : g0 ∈ ls.filterMap parseGroup := mem_filterMap.mpr ⟨l, hl, hg0⟩
    by_cases hu : user ∈ g0.members
    · simp only [hg0, if_pos hu, Option.map_some, Option.getD_some] at hp
      have hplain := remove_plain (plain_of_parseGroup (hc l hl) hg0) user
      rw [parseGroup_groupLine hplain] at hp
      cases hp
      refine ⟨fun hin => ?_, g0, hmem, fun m hm => (mem_filter.mp hm).1⟩
      simpa using (mem_filter.mp hin).2
    · simp only [hg0, if_neg hu, Option.map_none, Option.getD_none] at hp
      rw [← Option.some.inj hp]
      exact ⟨hu, g0, hmem, fun m hm => hm⟩

theorem reduced_plain (hl : Clean l) (h : reduced user l = some g) : g.Plain := by
  unfold reduced at h
  split at h
  · rename_i g0 hg
    split at h
    · cases h
      exact remove_plain (plain_of_parseGroup hl hg) user
    · cases h
  · cases h

theorem clean_dropMember (hc : ∀ l ∈ ls, Clean l) : ∀ l ∈ ls.map (dropMember user), Clean l := by
  intro l' hl'
  obtain ⟨l, hl, rfl⟩ := mem_map.mp hl'
  unfold dropMember
  cases hr : reduced user l with
  | none => exact hc l hl
  | some g => exact clean_groupLine (reduced_plain (hc l hl) hr)

/-- The files without a user among the members. -/
def Db.dropMember (db : Db) (user : Text) : Db :=
  { db with
    group := writeLines ((lines db.group).map (Users.dropMember user))
    written := ((lines db.group).filterMap (reduced user)).map .group ++ db.written }

theorem good_dropMember (h : Good db) (user : Text) : Good (db.dropMember user) := by
  have hc := clean_lines h.noCr.group
  apply h.writeGroup _ _ (clean_dropMember hc)
  · intro g hg m hm
    obtain ⟨-, g0, hg0, hsub⟩ := mem_dropMember hc hg
    exact h.coherent.members g0 hg0 m (hsub m hm)
  · intro g hg
    obtain ⟨l, hl, hr⟩ := mem_filterMap.mp hg
    exact reduced_plain (hc l hl) hr

theorem good_setGroups {groups : List Text} (h : Good db)
    (hu : Member user) (hn : user ∈ db.names) (hr : setGroups user groups db = .ok a db') :
    Good db' := by
  unfold setGroups at hr
  rw [bind_ok (run_get db)] at hr
  split at hr
  · cases hr
  · have hdrop : removeFromGroups user db = .ok () (db.dropMember user) := rfl
    rw [bind_ok hdrop] at hr
    exact (addToGroups_ok hu groups (good_dropMember h user) hn hr).1

/-- The files with a new group. -/
def Db.pushGroup (db : Db) (g : Group) : Db :=
  { db with
    group := writeLines (lines db.group ++ [groupLine g])
    written := .group g :: db.written }

theorem clean_append (h : ∀ x ∈ ls, Clean x) (hl : Clean l) : ∀ x ∈ ls ++ [l], Clean x := by
  intro x hx
  rcases mem_append.mp hx with hold | hnew
  · exact h x hold
  · rw [mem_singleton.mp hnew]
    exact hl

theorem groups_pushGroup (h : NoCr db) (hp : g.Plain) :
    (db.pushGroup g).groups = db.groups ++ [g] := by
  show (lines (writeLines (lines db.group ++ [groupLine g]))).filterMap parseGroup = _
  rw [filterMap_writeLines parseGroup_nil (clean_append (clean_lines h.group) (clean_groupLine hp)),
    filterMap_append, filterMap_cons_some (parseGroup_groupLine hp)]
  rfl

theorem good_pushGroup (h : Good db) (hp : g.Plain)
    (hm : g.members = []) : Good (db.pushGroup g) := by
  have hw := h.writeGroup (lines db.group ++ [groupLine g]) [g]
    (clean_append (clean_lines h.noCr.group) (clean_groupLine hp))
    (by
      intro x hx
      rw [filterMap_append, filterMap_cons_some (parseGroup_groupLine hp)] at hx
      rcases mem_append.mp hx with hold | hnew
      · exact h.coherent.members x hold
      · rw [mem_singleton.mp hnew, hm]
        exact fun m hmem => absurd hmem not_mem_nil)
    (by
      intro x hx
      rw [mem_singleton.mp hx]
      exact hp)
  exact hw

/-- `addGroup` pushes a group with a valid name, or changes nothing. -/
theorem addGroup_triple : Triple (· = db) (addGroup name gid)
    (fun n db' => validName name = true ∧ db' = db.pushGroup ⟨name, n, []⟩) fun _ db' => db' = db := by
  refine .intro fun s hs => ?_
  subst hs
  unfold addGroup
  rw [bind_ok (run_get s)]
  split
  · exact .error rfl
  rename_i hv
  have hv : validName name = true := by simpa using hv
  split
  · exact .error rfl
  cases gid with
  | some g =>
    dsimp only
    split
    · exact .error rfl
    · exact .ok ⟨hv, rfl⟩
  | none =>
    cases nextFree (s.groups.map Group.gid) 1000 with
    | none => exact .error rfl
    | some g => exact .ok ⟨hv, rfl⟩

theorem addGroup_ok {n : UInt32} (h : addGroup name gid db = .ok n db') :
    validName name = true ∧ db' = db.pushGroup ⟨name, n, []⟩ :=
  addGroup_triple.ok rfl h

theorem newGroup_plain (h : validName name = true) (n : UInt32) : Group.Plain ⟨name, n, []⟩ :=
  ⟨(member_of_validName h).1, fun _ hm => absurd hm not_mem_nil⟩

theorem good_addGroup {n : UInt32}
    (h : Good db) (hr : addGroup name gid db = .ok n db') : Good db' := by
  obtain ⟨hv, rfl⟩ := addGroup_ok hr
  exact good_pushGroup h (newGroup_plain hv n) rfl

theorem good_without_group (h : Good db) (name : Text) :
    Good { db with group := writeLines (without name (lines db.group)) } := by
  apply h.writeGroup _ [] (clean_without (clean_lines h.noCr.group))
  · intro g hg
    obtain ⟨l, hl, hp⟩ := mem_filterMap.mp hg
    exact h.coherent.members g (mem_filterMap.mpr ⟨l, (mem_filter.mp hl).1, hp⟩)
  · exact fun g hg => absurd hg not_mem_nil

theorem keeps_delGroup (name : Text) : Keeps Good (delGroup name) := by
  apply Triple.bind (R := fun db s => Good s ∧ db = s) (.get fun _ h => ⟨h, rfl⟩)
  intro db
  cases db.groupByName name with
  | none => exact .throw fun _ h => h.1
  | some g =>
    apply Triple.ite (fun _ => .throw fun _ h => h.1)
    intro _
    apply Triple.modify
    intro s hs
    obtain ⟨h, rfl⟩ := hs
    exact good_without_group h name

end Fastros.Users
