import Fastros.Users.Coherent
import Fastros.Lib.Run

/-!
# Runs of account calls

Users are added, changed and deleted. The databases stay coherent as long as no user is
renamed or is the last one deleted, new users bring no separator in their fields, and only
users are made members.
-/

namespace Fastros.Users

open Lib.Texts Lib.Stateful Lib.Run List

theorem scan_free {xs : List Nat} (hs : xs.Pairwise (· ≤ ·)) : ∀ {cand r : Nat}, cand ≤ maxId →
    scan cand xs = some r → cand ≤ r ∧ r ≤ maxId ∧ r ∉ xs := by
  induction xs with
  | nil =>
    intro cand r hc h
    cases h
    exact ⟨le_rfl, hc, not_mem_nil⟩
  | cons x xs ih =>
    intro cand r hc h
    obtain ⟨hx, hrest⟩ := pairwise_cons.mp hs
    rw [scan] at h
    split at h
    · rename_i heq
      split at h
      · cases h
      rename_i hmax
      obtain ⟨hle, hr, hno⟩ := ih hrest (by omega) h
      refine ⟨by omega, hr, ?_⟩
      rw [mem_cons, not_or]
      exact ⟨by omega, hno⟩
    rename_i hne
    split at h
    · rename_i hlt
      cases h
      refine ⟨le_rfl, hc, ?_⟩
      intro hmem
      rcases mem_cons.mp hmem with he | hmem
      · exact hne he.symm
      · have hle := hx cand hmem
        omega
    · obtain ⟨hle, hr, hno⟩ := ih hrest hc h
      refine ⟨hle, hr, ?_⟩
      rw [mem_cons, not_or]
      exact ⟨by omega, hno⟩

variable {day start : Nat} {gid n uid : UInt32} {l old user : Text}

theorem nextFree_free {used : List UInt32} (hs : start ≤ maxId)
    (h : nextFree used start = some n) : n ∉ used := by
  obtain ⟨r, hr, rfl⟩ := Option.map_eq_some_iff.mp h
  obtain ⟨hle, hmax, hno⟩ := scan_free (pairwise_insertionSort (· ≤ ·) _) hs hr
  intro hmem
  have hval : (UInt32.ofNat r).toNat = r := by
    apply Nat.mod_eq_of_lt
    simp only [maxId] at hmax
    omega
  apply hno
  rw [mem_insertionSort, mem_filter]
  refine ⟨mem_map.mpr ⟨_, hmem, hval⟩, ?_⟩
  simpa using hle

variable {n : NewUser} {name : Text} {db db' : Db} {u : User}
variable {a : Unit} {home : Option Errno}

theorem chooseUid_free {all : List User}
    (h : chooseUid n all = .ok uid) : uid ∉ all.map User.uid := by
  unfold chooseUid at h
  cases hu : n.uid with
  | some u =>
    simp only [hu] at h
    split at h
    · cases h
    rename_i hno
    cases h
    intro hmem
    obtain ⟨x, hx, he⟩ := mem_map.mp hmem
    exact hno (any_eq_true.mpr ⟨x, hx, by simpa using he⟩)
  | none =>
    cases hn : nextFree (all.map User.uid) 1000 with
    | none => simp only [hu, hn] at h; cases h
    | some u =>
      simp only [hu, hn] at h
      cases h
      exact nextFree_free (by decide) hn

/-- The files with a new user. -/
def Db.pushUser (db : Db) (day : Nat) (u : User) : Db :=
  { db with
    passwd := writeLines (lines db.passwd ++ [userLine u])
    shadow := writeLines (lines db.shadow ++ [join (u.name :: ['!'] :: aging day)])
    written := .user u :: db.written }

theorem lockedLine_plain (h : Plain name) (day : Nat) :
    ∀ f ∈ name :: ['!'] :: aging day, Plain f := by
  intro f hf
  rcases mem_cons.mp hf with he | hf
  · rw [he]
    exact h
  rcases mem_cons.mp hf with he | hf
  · rw [he]
    unfold Plain
    decide
  · exact plain_aging day f hf

theorem users_pushUser (h : NoCr db) (day : Nat) (hp : u.Plain) :
    (db.pushUser day u).users = db.users ++ [u] := by
  show (lines (writeLines (lines db.passwd ++ [userLine u]))).filterMap parseUser = _
  rw [filterMap_writeLines parseUser_nil (clean_append (clean_lines h.passwd) (clean_userLine hp)),
    filterMap_append, filterMap_cons_some (parseUser_userLine hp)]
  rfl

theorem shadow_pushUser (h : NoCr db) (day : Nat) (hp : u.Plain) :
    lines (db.pushUser day u).shadow =
      lines db.shadow ++ [join (u.name :: ['!'] :: aging day)] := by
  have hl : Clean (join (u.name :: ['!'] :: aging day)) :=
    clean_join fun f hf => (lockedLine_plain hp.name day f hf).clean
  exact lines_writeLines (by simp) (clean_append (clean_lines h.shadow) hl)

theorem nodup_concat {α : Type} {xs : List α} {x : α} (h : xs.Nodup) (hx : x ∉ xs) :
    (xs ++ [x]).Nodup := by
  rw [nodup_append]
  refine ⟨h, nodup_singleton x, ?_⟩
  intro a ha b hb he
  rw [mem_singleton.mp hb] at he
  exact hx (he ▸ ha)

theorem good_pushUser (h : Good db) (day : Nat) (hp : u.Plain)
    (hn : u.name ∉ db.names) (hu : u.uid ∉ db.users.map User.uid) : Good (db.pushUser day u) := by
  have husers := users_pushUser h.noCr day hp
  have hnames : (db.pushUser day u).names = db.names ++ [u.name] := by
    rw [Db.names, husers, map_append]
    rfl
  have hline : nameOf (join (u.name :: ['!'] :: aging day)) = u.name :=
    nameOf_join fun f hf => (lockedLine_plain hp.name day f hf).1
  have hshadow : (db.pushUser day u).shadowNames = db.shadowNames ++ [u.name] := by
    rw [Db.shadowNames, shadow_pushUser h.noCr day hp, map_append, map_singleton, hline]
    rfl
  have hl : Clean (join (u.name :: ['!'] :: aging day)) :=
    clean_join fun f hf => (lockedLine_plain hp.name day f hf).clean
  constructor
  · constructor
    · rw [hnames]
      exact nodup_concat h.coherent.names hn
    · rw [husers, map_append]
      exact nodup_concat h.coherent.uids hu
    · rw [hshadow]
      exact nodup_concat h.coherent.oneLine fun hin => hn ((h.coherent.shadow _).mp hin)
    · intro n
      rw [hshadow, hnames, mem_append, mem_append, h.coherent.shadow]
    · intro g hg m hm
      rw [hnames]
      exact mem_append_left _ (h.coherent.members g hg m hm)
    · intro r hr
      rcases mem_cons.mp hr with he | hold
      · rw [he]
        exact readsBack_user hp
      · exact h.coherent.readBack r hold
  · exact ⟨cr_writeLines (clean_append (clean_lines h.noCr.passwd) (clean_userLine hp)),
      h.noCr.group, cr_writeLines (clean_append (clean_lines h.noCr.shadow) hl)⟩

/-- A primary group may be new; nothing else changes. -/
theorem primaryGroup_ok (h : primaryGroup n uid db = .ok gid db') :
    db' = db ∨ (validName n.name = true ∧ ∃ g, db' = db.pushGroup ⟨n.name, g, []⟩) := by
  unfold primaryGroup at h
  rw [bind_ok (run_get db)] at h
  cases hg : n.group with
  | some g =>
    simp only [hg] at h
    cases h
    exact .inl rfl
  | none =>
    cases hb : db.groupByName n.name with
    | some g =>
      simp only [hg, hb] at h
      cases h
      exact .inl rfl
    | none =>
      simp only [hg, hb] at h
      right
      unfold orElse at h
      cases h1 : addGroup n.name (some uid) db with
      | ok g mid =>
        simp only [h1] at h
        cases h
        obtain ⟨hv, hd⟩ := addGroup_ok h1
        exact ⟨hv, gid, hd⟩
      | error e mid =>
        have hmid := addGroup_triple.error rfl h1
        subst hmid
        cases e with
        | overflow => simp only [h1] at h; cases h
        | errno e =>
          simp only [h1] at h
          obtain ⟨hv, hd⟩ := addGroup_ok h
          exact ⟨hv, gid, hd⟩

theorem homeFiles_ok {answer : Option Errno} (h : homeFiles answer db = .ok a db') : db' = db := by
  cases answer with
  | none => cases h; rfl
  | some e => cases h

/-- The fields of a new user have no separator. -/
structure NewUser.Plain (n : NewUser) : Prop where
  gecos : Users.Plain n.gecos
  home : ∀ h, n.home = some h → Users.Plain h
  shell : Users.Plain n.shell

theorem user_plain_of_new (hv : validName n.name = true) (h : n.Plain)
    (uid gid : UInt32) : (n.user uid gid).Plain := by
  have hname := (member_of_validName hv).1
  refine ⟨hname, h.gecos, ?_, h.shell⟩
  show Users.Plain (n.home.getD ("/home/".toList ++ n.name))
  cases hh : n.home with
  | some d => exact h.home d hh
  | none =>
    have hbase : Plain "/home/".toList := by
      unfold Plain
      decide
    apply plain_iff.mpr
    intro c hc
    rcases mem_append.mp hc with hc | hc
    · exact plain_iff.mp hbase c hc
    · exact plain_iff.mp hname c hc

/-- What holds of a user that was just added. -/
structure Added (db : Db) (n : NewUser) (day : Nat) (u : User) : Prop where
  listed : u ∈ db.users
  name : u.name = n.name
  locked : join (u.name :: ['!'] :: aging day) ∈ lines db.shadow
  groups : ∀ g ∈ db.groups, u.name ∈ g.members → g.name ∈ n.extraGroups

/-- A user that is added is there, and the database stays good. -/
theorem addUser_ok
    (h : Good db) (hp : n.Plain) (hr : addUser day n home db = .ok u db') :
    Good db' ∧ Added db' n day u := by
  unfold addUser at hr
  rw [bind_ok (run_get db)] at hr
  split at hr
  · cases hr
  rename_i hv
  have hv : validName n.name = true := by simpa using hv
  split at hr
  · cases hr
  rename_i hfresh
  rcases hu : chooseUid n db.users with e | uid
  · simp only [hu] at hr; cases hr
  simp only [hu] at hr
  obtain ⟨gid, d1, h1, hr⟩ := bind_eq_ok.mp hr
  -- the group file may have one more group, without members
  have hd1 : Good d1 ∧ d1.passwd = db.passwd ∧
      ∀ g ∈ d1.groups, n.name ∈ g.members → g ∈ db.groups := by
    rcases primaryGroup_ok h1 with he | ⟨-, g, he⟩
    · rw [he]
      exact ⟨h, rfl, fun g hg _ => hg⟩
    rw [he]
    refine ⟨good_pushGroup h (newGroup_plain hv g) rfl, rfl, ?_⟩
    intro x hx hm
    rw [groups_pushGroup h.noCr (newGroup_plain hv g)] at hx
    rcases mem_append.mp hx with hold | hnew
    · exact hold
    · rw [mem_singleton.mp hnew] at hm
      exact absurd hm not_mem_nil
  obtain ⟨hg1, hpw1, hgroups1⟩ := hd1
  have hno : n.name ∉ db.names := by
    intro hin
    obtain ⟨x, hx, he⟩ := mem_map.mp hin
    exact hfresh (any_eq_true.mpr ⟨x, hx, by simpa using he⟩)
  have hplain := user_plain_of_new hv hp uid gid
  have husers1 : d1.users = db.users := by simp only [Db.users, hpw1]
  have hg2 : Good (d1.pushUser day (n.user uid gid)) := by
    apply good_pushUser hg1 day hplain
    · rw [names_congr hpw1]
      exact hno
    · rw [husers1]
      exact chooseUid_free hu
  have h2 : pushUser day (n.user uid gid) d1 = .ok () (d1.pushUser day (n.user uid gid)) := rfl
  rw [bind_ok h2] at hr
  obtain ⟨a, d3, h3, hr⟩ := bind_eq_ok.mp hr
  have hlisted : n.user uid gid ∈ (d1.pushUser day (n.user uid gid)).users := by
    rw [users_pushUser hg1.noCr day hplain]
    exact mem_append_right _ mem_cons_self
  obtain ⟨hg3, hpw3, hsh3, hgain⟩ := addToGroups_ok (member_of_validName hv) n.extraGroups hg2
    (mem_map.mpr ⟨_, hlisted, rfl⟩) h3
  obtain ⟨b, d4, h4, hr⟩ := bind_eq_ok.mp hr
  rw [homeFiles_ok h4] at hr
  cases hr
  refine ⟨hg3, ?_, rfl, ?_, ?_⟩
  · have husers3 : db'.users = (d1.pushUser day (n.user uid gid)).users := by
      simp only [Db.users, hpw3]
    rw [husers3]
    exact hlisted
  · rw [hsh3, shadow_pushUser hg1.noCr day hplain]
    exact mem_append_right _ mem_cons_self
  intro g hg hm
  rcases hgain g hg hm with hin | ⟨g0, hg0, -, hm0⟩
  · exact hin
  · -- nobody was a member under that name before
    have hold : g0 ∈ db.groups := hgroups1 g0 hg0 hm0
    exact absurd (h.coherent.members g0 hold _ hm0) hno

/-- The files without a user. -/
def Db.dropUser (db : Db) (name : Text) : Db :=
  ({ db with
    passwd := writeLines (without name (lines db.passwd))
    shadow := writeLines (without name (lines db.shadow)) } : Db).dropMember name

theorem users_dropUser (h : NoCr db) (name : Text) :
    (db.dropUser name).users = db.users.filter fun u => u.name ≠ name := by
  show (lines (writeLines (without name (lines db.passwd)))).filterMap parseUser = _
  rw [filterMap_writeLines parseUser_nil (clean_without (clean_lines h.passwd))]
  exact filterMap_without (fun l u hu => (parseUser_some hu).1) name _

theorem names_dropUser (h : NoCr db) (name : Text) :
    (db.dropUser name).names = db.names.filter fun n => n ≠ name := by
  rw [Db.names, users_dropUser h, Db.names, filter_map]
  rfl

/-- Another user's password line remains, so that the file is not empty. -/
theorem shadow_dropUser (h : Good db) {other : User}
    (ho : other ∈ db.users) (hne : other.name ≠ name) :
    (db.dropUser name).shadowNames = db.shadowNames.filter fun n => n ≠ name := by
  have hline : other.name ∈ db.shadowNames :=
    (h.coherent.shadow _).mpr (mem_map.mpr ⟨other, ho, rfl⟩)
  have hmem : other.name ∈ (without name (lines db.shadow)).map nameOf := by
    rw [nameOf_without, mem_filter]
    exact ⟨hline, by simpa using hne⟩
  have hnonempty : without name (lines db.shadow) ≠ [] := by
    intro he
    rw [he] at hmem
    exact absurd hmem not_mem_nil
  show (lines (writeLines (without name (lines db.shadow)))).map nameOf = _
  rw [lines_writeLines hnonempty (clean_without (clean_lines h.noCr.shadow)), nameOf_without]
  rfl

theorem good_dropUser (h : Good db) {other : User}
    (ho : other ∈ db.users) (hne : other.name ≠ name) : Good (db.dropUser name) := by
  have hc := clean_lines h.noCr.group
  have hnames := names_dropUser h.noCr name
  have hshadow := shadow_dropUser h ho hne
  constructor
  · constructor
    · rw [hnames]
      exact h.coherent.names.filter _
    · rw [users_dropUser h.noCr]
      exact h.coherent.uids.sublist (filter_sublist.map _)
    · rw [hshadow]
      exact h.coherent.oneLine.filter _
    · intro n
      rw [hshadow, hnames, mem_filter, mem_filter, h.coherent.shadow]
    · intro g hg m hm
      have hg : g ∈ (lines (writeLines ((lines db.group).map (dropMember name)))).filterMap
          parseGroup := hg
      rw [filterMap_writeLines parseGroup_nil (clean_dropMember hc)] at hg
      obtain ⟨hno, g0, hg0, hsub⟩ := mem_dropMember hc hg
      rw [hnames, mem_filter]
      refine ⟨h.coherent.members g0 hg0 m (hsub m hm), ?_⟩
      have hmn : m ≠ name := fun he => hno (he ▸ hm)
      simpa using hmn
    · intro r hr
      rcases mem_append.mp hr with hnew | hold
      · obtain ⟨g, hg, rfl⟩ := mem_map.mp hnew
        obtain ⟨l, hl, hred⟩ := mem_filterMap.mp hg
        exact readsBack_group (reduced_plain (hc l hl) hred)
      · exact h.coherent.readBack r hold
  · exact ⟨cr_writeLines (clean_without (clean_lines h.noCr.passwd)),
      cr_writeLines (clean_dropMember hc), cr_writeLines (clean_without (clean_lines h.noCr.shadow))⟩

theorem good_dropPrivateGroup (h : Good db)
    (hr : dropPrivateGroup u db = .ok a db') : Good db' := by
  unfold dropPrivateGroup at hr
  split at hr
  · split at hr
    · split at hr
      · rename_i hd
        cases hr
        exact (keeps_delGroup u.name).ok h hd
      · rename_i hd
        cases hr
        exact (keeps_delGroup u.name).error h hd
    · cases hr
      exact h
  · cases hr
    exact h

theorem good_delUser (h : Good db)
    (ho : ∃ other ∈ db.users, other.name ≠ name) (hr : delUser name home db = .ok a db') :
    Good db' := by
  obtain ⟨other, hmem, hne⟩ := ho
  unfold delUser at hr
  rw [bind_ok (run_get db)] at hr
  rcases hu : db.byName name with _ | u
  · simp only [hu] at hr; cases hr
  simp only [hu] at hr
  split at hr
  · cases hr
  have hrun : ∀ (k : M Unit), (do
      writePasswd (without name (lines db.passwd))
      writeShadow (without name (lines db.shadow))
      removeFromGroups name
      k : M Unit) db = k (db.dropUser name) := fun _ => rfl
  rw [hrun] at hr
  obtain ⟨b, d, h1, h2⟩ := bind_eq_ok.mp hr
  rw [homeFiles_ok h2]
  exact good_dropPrivateGroup (good_dropUser h hmem hne) h1

/-- An edit that does not rename and brings no carriage return. -/
structure Edit.Fits (e : Edit) (name : Text) : Prop where
  name : e.name.getD name = name
  gecos : ∀ s, e.gecos = some s → '\r' ∉ s
  home : ∀ s, e.home = some s → '\r' ∉ s
  shell : ∀ s, e.shell = some s → '\r' ∉ s

theorem plain_getD {o : Option Text} (hold : Plain old)
    (ho : ∀ s, o = some s → '\r' ∉ s) (hs : separated (o.getD old) = false) :
    Plain (o.getD old) := by
  have hsep : ':' ∉ o.getD old ∧ '\n' ∉ o.getD old := by simpa [separated] using hs
  refine ⟨hsep.1, hsep.2, ?_⟩
  cases o with
  | none => exact hold.2.2
  | some s => exact ho s rfl

/-- The files with a changed user. -/
def Db.withUser (db : Db) (name : Text) (u : User) : Db :=
  { db with
    passwd := writeLines (setLine name (userLine u) (lines db.passwd))
    written := .user u :: db.written }

theorem good_withUser (h : Good db) {old : User} (hp : u.Plain)
    (hl : findLine name (lines db.passwd) = some l) (ho : parseUser l = some old)
    (hn : u.name = old.name) (hu : u.uid = old.uid) : Good (db.withUser name u) := by
  have hc := clean_setLine name (clean_userLine hp) (clean_lines h.noCr.passwd)
  have husers : (db.withUser name u).users =
      (setLine name (userLine u) (lines db.passwd)).filterMap parseUser :=
    filterMap_writeLines parseUser_nil hc
  have hnames : (db.withUser name u).names = db.names := by
    rw [Db.names, husers]
    exact map_setLine ho (parseUser_userLine hp) hn hl
  have huids : (db.withUser name u).users.map User.uid = db.users.map User.uid := by
    rw [husers]
    exact map_setLine ho (parseUser_userLine hp) hu hl
  constructor
  · constructor
    · rw [hnames]
      exact h.coherent.names
    · rw [huids]
      exact h.coherent.uids
    · exact h.coherent.oneLine
    · intro n
      rw [hnames]
      exact h.coherent.shadow n
    · intro g hg m hm
      rw [hnames]
      exact h.coherent.members g hg m hm
    · intro r hr
      rcases mem_cons.mp hr with he | hold
      · rw [he]
        exact readsBack_user hp
      · exact h.coherent.readBack r hold
  · exact ⟨cr_writeLines hc, h.noCr.group, h.noCr.shadow⟩

theorem good_modifyUser {e : Edit} (h : Good db)
    (hf : e.Fits name) (hr : modifyUser name e db = .ok u db') : Good db' := by
  unfold modifyUser at hr
  rw [bind_ok (run_get db)] at hr
  cases hl : findLine name (lines db.passwd) with
  | none => simp only [hl] at hr; cases hr
  | some l =>
    cases ho : parseUser l with
    | none => simp only [hl, ho] at hr; cases hr
    | some old =>
      simp only [hl, ho] at hr
      obtain ⟨hmem, hline⟩ := findLine_some hl
      have hplain := plain_of_parseUser (clean_lines h.noCr.passwd l hmem) ho
      have hold : old.name = name := (parseUser_some ho).1.trans hline
      have hname : (e.apply old).name = old.name := by
        show e.name.getD old.name = old.name
        rw [hold]
        exact hf.name
      split at hr
      · cases hr
      split at hr
      · cases hr
      rename_i hsep
      simp only [Bool.or_eq_true, not_or, Bool.not_eq_true] at hsep
      have hu : (e.apply old).Plain := by
        refine ⟨?_, plain_getD hplain.gecos hf.gecos hsep.1.1,
          plain_getD hplain.home hf.home hsep.1.2, plain_getD hplain.shell hf.shell hsep.2⟩
        rw [hname]
        exact hplain.name
      cases hr
      exact good_withUser h hu hl ho hname rfl

inductive Op where
  | addUser (day : Nat) (n : NewUser) (home : Option Errno)
  | delUser (name : Text) (home : Option Errno)
  | modifyUser (name : Text) (e : Edit)
  | setPassword (day : Nat) (name : Text) (hash : Hash)
  | lockPassword (name : Text) (lock : Bool)
  | addGroup (name : Text) (gid : Option UInt32)
  | delGroup (name : Text)
  | addToGroup (user group : Text)
  | removeFromGroup (user group : Text)
  | setGroups (user : Text) (groups : List Text)

def resulting {α : Type} : EStateM.Result Stop Db α → Option Db
  | .ok _ db => some db
  | .error _ _ => none

/-- The files after a call that succeeds. -/
def step (op : Op) (db : Db) : Option Db :=
  match op with
  | .addUser day n home => resulting (addUser day n home db)
  | .delUser name home => resulting (delUser name home db)
  | .modifyUser name e => resulting (modifyUser name e db)
  | .setPassword day name hash => resulting (setPassword day name hash db)
  | .lockPassword name lock => resulting (lockPassword name lock db)
  | .addGroup name gid => resulting (addGroup name gid db)
  | .delGroup name => resulting (delGroup name db)
  | .addToGroup user group => resulting (addToGroup user group db)
  | .removeFromGroup user group => resulting (removeFromGroup user group db)
  | .setGroups user groups => resulting (setGroups user groups db)

/-- The calls that keep the databases coherent. -/
def Fits (db : Db) : Op → Prop
  | .addUser _ n _ => n.Plain
  | .delUser name _ => ∃ other ∈ db.users, other.name ≠ name
  | .modifyUser name e => e.Fits name
  | .addToGroup user _ | .setGroups user _ => user ∈ db.names ∧ user ≠ [] ∧ ',' ∉ user
  | _ => True

theorem resulting_some {α : Type} {r : EStateM.Result Stop Db α}
    (h : resulting r = some db) : ∃ a, r = .ok a db := by
  cases r with
  | ok a d =>
    cases h
    exact ⟨a, rfl⟩
  | error e d => cases h

theorem member_of_user (h : NoCr db)
    (hu : user ∈ db.names ∧ user ≠ [] ∧ ',' ∉ user) : Member user := by
  obtain ⟨u, hmem, hname⟩ := mem_map.mp hu.1
  refine ⟨?_, hu.2⟩
  rw [← hname]
  exact (user_plain h hmem).name

/-- Every operation that fits keeps the database good. -/
theorem good_step (db : Db) (op : Op) (db' : Db) (h : Good db) (hf : Fits db op)
    (hs : step op db = some db') : Good db' := by
  cases op with
  | addUser day n home =>
    obtain ⟨u, hr⟩ := resulting_some hs
    exact (addUser_ok h hf hr).1
  | delUser name home =>
    obtain ⟨a, hr⟩ := resulting_some hs
    exact good_delUser h hf hr
  | modifyUser name e =>
    obtain ⟨u, hr⟩ := resulting_some hs
    exact good_modifyUser h hf hr
  | setPassword day name hash =>
    obtain ⟨a, hr⟩ := resulting_some hs
    exact (safe_setPassword day name hash).ok h hr
  | lockPassword name lock =>
    obtain ⟨a, hr⟩ := resulting_some hs
    exact (safe_lockPassword name lock).ok h hr
  | addGroup name gid =>
    obtain ⟨n, hr⟩ := resulting_some hs
    exact good_addGroup h hr
  | delGroup name =>
    obtain ⟨a, hr⟩ := resulting_some hs
    exact (keeps_delGroup name).ok h hr
  | addToGroup user group =>
    obtain ⟨a, hr⟩ := resulting_some hs
    exact (addToGroup_ok h (member_of_user h.noCr hf) hf.1 hr).1
  | removeFromGroup user group =>
    obtain ⟨a, hr⟩ := resulting_some hs
    exact good_removeFromGroup h hr
  | setGroups user groups =>
    obtain ⟨a, hr⟩ := resulting_some hs
    exact good_setGroups h (member_of_user h.noCr hf) hf.1 hr

theorem runs_singleton {op : Op} (h : step op db = some db') : runs step [op] db = some db' := by
  rw [runs, h, Option.bind_some, runs]

theorem addUser_of_step
    (h : step (.addUser day n home) db = some db') : ∃ u, addUser day n home db = .ok u db' :=
  resulting_some h

/-- Two users, and a group with one of them. -/
def twoUsers : Db :=
  ⟨"root:x:0:0::/:sh\nbob:x:7:7::/:sh\n".toList, "wheel:x:10:bob\n".toList,
    "root:!:0\nbob:!:0\n".toList, []⟩

theorem twoUsers_coherent : Coherent twoUsers := by
  have hnames : twoUsers.names = ["root".toList, "bob".toList] := by decide +kernel
  have hshadow : twoUsers.shadowNames = ["root".toList, "bob".toList] := by decide +kernel
  have hgroups : twoUsers.groups = [⟨"wheel".toList, 10, ["bob".toList]⟩] := by decide +kernel
  constructor
  · rw [hnames]
    decide
  · decide +kernel
  · rw [hshadow]
    decide
  · intro n
    rw [hshadow, hnames]
  · rw [hgroups, hnames]
    decide
  · exact fun r hr => absurd hr not_mem_nil

theorem twoUsers_noCr : NoCr twoUsers := by
  constructor <;> decide +kernel

/-- The only group of the new user is the one asked for. -/
def newUser : NewUser := ⟨"eve".toList, some 8, some 7, [], none, "sh".toList, ["wheel".toList]⟩

end Fastros.Users
