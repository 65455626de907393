import Fastros.Errno
import Fastros.Lib.Stateful
import Fastros.Lib.Texts

/-!
# The account databases

Users, groups and passwords are lines of three files, with fields between colons. Each
change reads a file, changes its lines and writes the whole file again. Every write
succeeds.
-/

namespace Fastros.Users

open Lib.Texts Lib.Stateful

structure User where
  name : Text
  uid : UInt32
  gid : UInt32
  gecos : Text
  home : Text
  shell : Text
  deriving DecidableEq, Repr

structure Group where
  name : Text
  gid : UInt32
  members : List Text
  deriving DecidableEq, Repr

/-- A record that a call wrote as a line. -/
inductive Record where
  | user (u : User)
  | group (g : Group)
  deriving DecidableEq, Repr

/-- The three files. `written` is not in the source: the records written so far. -/
structure Db where
  passwd : Text
  group : Text
  shadow : Text
  written : List Record
  deriving DecidableEq, Repr

/-- What ends a call: an error, or a counter that overflows. -/
inductive Stop where
  | errno (e : Errno)
  | overflow
  deriving DecidableEq, Repr

abbrev M := EStateM Stop Db

def maxId : Nat := 2 ^ 32 - 1

def writeLines (ls : List Text) : Text := ['\n'].intercalate ls ++ ['\n']

def fields (l : Text) : List Text := l.splitOn ':'

def join (fs : List Text) : Text := [':'].intercalate fs

/-- The first field of a line. -/
def nameOf (l : Text) : Text := (fields l).headD []

def parseId (s : Text) : Option UInt32 := (parseNat maxId s).map UInt32.ofNat

def parseUser (l : Text) : Option User :=
  match fields l with
  | name :: _ :: uid :: gid :: gecos :: home :: shell :: _ => do
    let uid ← parseId uid
    let gid ← parseId gid
    some ⟨name, uid, gid, gecos, home, shell⟩
  | _ => none

def parseGroup (l : Text) : Option Group :=
  match fields l with
  | name :: _ :: gid :: members :: _ => do
    let gid ← parseId gid
    some ⟨name, gid, (members.splitOn ',').filter fun m => !m.isEmpty⟩
  | _ => none

def idText (n : UInt32) : Text := decimal n.toNat

def userLine (u : User) : Text :=
  join [u.name, ['x'], idText u.uid, idText u.gid, u.gecos, u.home, u.shell]

def groupLine (g : Group) : Text := join [g.name, ['x'], idText g.gid, [','].intercalate g.members]

def Db.users (db : Db) : List User := (lines db.passwd).filterMap parseUser

def Db.groups (db : Db) : List Group := (lines db.group).filterMap parseGroup

def Db.byName (db : Db) (name : Text) : Option User := db.users.find? fun u => u.name = name

def Db.groupByName (db : Db) (name : Text) : Option Group := db.groups.find? fun g => g.name = name

def findLine (name : Text) (ls : List Text) : Option Text := ls.find? fun l => nameOf l = name

/-- The first line of that name is replaced. -/
def setLine (name new : Text) : List Text → List Text
  | [] => []
  | l :: ls => if nameOf l = name then new :: ls else l :: setLine name new ls

def without (name : Text) (ls : List Text) : List Text := ls.filter fun l => nameOf l ≠ name

def lower (c : Char) : Bool := 'a' ≤ c ∧ c ≤ 'z'

def validName (n : Text) : Bool :=
  match n with
  | [] => false
  | c :: _ => n.length ≤ 32 && (lower c || c = '_') &&
      n.all fun c => lower c || c.isDigit || c = '_' || c = '-'

def writePasswd (ls : List Text) : M Unit := modify fun db => { db with passwd := writeLines ls }

def writeGroup (ls : List Text) : M Unit := modify fun db => { db with group := writeLines ls }

def writeShadow (ls : List Text) : M Unit := modify fun db => { db with shadow := writeLines ls }

def record (r : Record) : M Unit := modify fun db => { db with written := r :: db.written }

/-- The rest of a shadow line whose password was set on a day. -/
def aging (day : Nat) : List Text := [decimal day, ['0'], "99999".toList, ['7'], [], [], []]

/-- A password hash has none of the separators. -/
structure Hash where
  text : Text
  plain : ':' ∉ text ∧ '\n' ∉ text ∧ '\r' ∉ text

def setPassword (day : Nat) (name : Text) (hash : Hash) : M Unit := do
  let db ← get
  if (db.byName name).isNone then throw (.errno .enoent)
  else
    let ls := lines db.shadow
    let entry := join (name :: hash.text :: aging day)
    if (findLine name ls).isSome then writeShadow (setLine name entry ls)
    else writeShadow (ls ++ [entry])

/-- The password field with its mark. -/
def mark (lock : Bool) (pw : Text) : Text :=
  if lock then if pw.head? = some '!' then pw else '!' :: pw
  else pw.dropWhile fun c => c = '!'

def lockPassword (name : Text) (lock : Bool) : M Unit := do
  let db ← get
  let ls := lines db.shadow
  match findLine name ls with
  | none => throw (.errno .enoent)
  | some l =>
    match fields l with
    | n :: pw :: rest => writeShadow (setLine name (join (n :: mark lock pw :: rest)) ls)
    | _ => throw (.errno .einval)

/-- The first number from a candidate on that sorted numbers leave free; the candidate is a
32-bit counter. -/
def scan : Nat → List Nat → Option Nat
  | cand, [] => some cand
  | cand, x :: xs =>
    if x = cand then if cand = maxId then none else scan (cand + 1) xs
    else if cand < x then some cand
    else scan cand xs

def nextFree (used : List UInt32) (start : Nat) : Option UInt32 :=
  (scan start (((used.map UInt32.toNat).filter fun x => start ≤ x).insertionSort (· ≤ ·))).map
    UInt32.ofNat

def pushGroup (name : Text) (gid : UInt32) : M UInt32 := do
  let db ← get
  writeGroup (lines db.group ++ [groupLine ⟨name, gid, []⟩])
  record (.group ⟨name, gid, []⟩)
  pure gid

def addGroup (name : Text) (gid : Option UInt32) : M UInt32 := do
  let db ← get
  if !validName name then throw (.errno .einval)
  else if db.groups.any fun g => g.name = name then throw (.errno .eexist)
  else
    match gid with
    | some g =>
      if db.groups.any fun x => x.gid = g then throw (.errno .eexist) else pushGroup name g
    | none =>
      match nextFree (db.groups.map Group.gid) 1000 with
      | none => throw .overflow
      | some g => pushGroup name g

def delGroup (name : Text) : M Unit := do
  let db ← get
  match db.groupByName name with
  | none => throw (.errno .enoent)
  | some g =>
    if db.users.any fun u => u.gid = g.gid then throw (.errno .ebusy)
    else writeGroup (without name (lines db.group))

def Group.add (g : Group) (user : Text) : Group :=
  { g with members := if user ∈ g.members then g.members else g.members ++ [user] }

def Group.remove (g : Group) (user : Text) : Group :=
  { g with members := g.members.filter fun m => m ≠ user }

/-- A group line through a change of its record. -/
def editGroup (group : Text) (edit : Group → Except Errno Group) : M Unit := do
  let db ← get
  let ls := lines db.group
  match findLine group ls with
  | none => throw (.errno .enoent)
  | some l =>
    match parseGroup l with
    | none => throw (.errno .einval)
    | some g =>
      match edit g with
      | .error e => throw (.errno e)
      | .ok g => do
        writeGroup (setLine group (groupLine g) ls)
        record (.group g)

def addToGroup (user group : Text) : M Unit := editGroup group fun g => .ok (g.add user)

def removeFromGroup (user group : Text) : M Unit :=
  editGroup group fun g => if user ∈ g.members then .ok (g.remove user) else .error .esrch

/-- The record that `remove_from_groups` writes for a line, if it does. -/
def reduced (user l : Text) : Option Group :=
  match parseGroup l with
  | some g => if user ∈ g.members then some (g.remove user) else none
  | none => none

def dropMember (user l : Text) : Text := ((reduced user l).map groupLine).getD l

def removeFromGroups (user : Text) : M Unit := do
  let db ← get
  let ls := lines db.group
  writeGroup (ls.map (dropMember user))
  modify fun db => { db with written := (ls.filterMap (reduced user)).map .group ++ db.written }

def addToGroups (user : Text) : List Text → M Unit
  | [] => pure ()
  | g :: gs => do
    addToGroup user g
    addToGroups user gs

def setGroups (user : Text) (groups : List Text) : M Unit := do
  let db ← get
  if groups.any fun g => (db.groupByName g).isNone then throw (.errno .enoent)
  else do
    removeFromGroups user
    addToGroups user groups

structure NewUser where
  name : Text
  uid : Option UInt32
  group : Option UInt32
  gecos : Text
  home : Option Text
  shell : Text
  extraGroups : List Text
  deriving DecidableEq, Repr

/-- What the files of a home directory answer. -/
def homeFiles (answer : Option Errno) : M Unit :=
  match answer with
  | none => pure ()
  | some e => throw (.errno e)

/-- A second try after an error; an overflow ends the call. -/
def orElse {α : Type} (x y : M α) : M α := fun db =>
  match x db with
  | .error (.errno _) db => y db
  | out => out

def primaryGroup (n : NewUser) (uid : UInt32) : M UInt32 := do
  let db ← get
  match n.group with
  | some g => pure g
  | none =>
    match db.groupByName n.name with
    | some g => pure g.gid
    | none => orElse (addGroup n.name (some uid)) (addGroup n.name none)

def chooseUid (n : NewUser) (all : List User) : Except Stop UInt32 :=
  match n.uid with
  | some u => if all.any fun x => x.uid = u then .error (.errno .eexist) else .ok u
  | none =>
    match nextFree (all.map User.uid) 1000 with
    | none => .error .overflow
    | some u => .ok u

def NewUser.user (n : NewUser) (uid gid : UInt32) : User :=
  ⟨n.name, uid, gid, n.gecos, n.home.getD ("/home/".toList ++ n.name), n.shell⟩

/-- The lines of a new user, whose password is locked. -/
def pushUser (day : Nat) (u : User) : M Unit := do
  let db ← get
  writePasswd (lines db.passwd ++ [userLine u])
  record (.user u)
  writeShadow (lines db.shadow ++ [join (u.name :: ['!'] :: aging day)])

def addUser (day : Nat) (n : NewUser) (home : Option Errno) : M User := do
  let db ← get
  if !validName n.name then throw (.errno .einval)
  else if db.users.any fun u => u.name = n.name then throw (.errno .eexist)
  else
    match chooseUid n db.users with
    | .error e => throw e
    | .ok uid => do
      let gid ← primaryGroup n uid
      pushUser day (n.user uid gid)
      addToGroups n.name n.extraGroups
      homeFiles home
      pure (n.user uid gid)

/-- The user's own group goes too when nobody else uses it; an error is ignored. -/
def dropPrivateGroup (u : User) : M Unit := fun db =>
  match db.groupByName u.name with
  | some g =>
    if g.gid = u.gid ∧ g.members = [] then
      match delGroup u.name db with
      | .ok _ db => .ok () db
      | .error _ db => .ok () db
    else .ok () db
  | none => .ok () db

def delUser (name : Text) (home : Option Errno) : M Unit := do
  let db ← get
  match db.byName name with
  | none => throw (.errno .enoent)
  | some u =>
    if u.uid = 0 then throw (.errno .eperm)
    else do
      writePasswd (without name (lines db.passwd))
      writeShadow (without name (lines db.shadow))
      removeFromGroups name
      dropPrivateGroup u
      homeFiles home

/-- What the account commands change of a user. -/
structure Edit where
  name : Option Text
  gid : Option UInt32
  gecos : Option Text
  home : Option Text
  shell : Option Text
  deriving DecidableEq, Repr

def Edit.apply (e : Edit) (u : User) : User :=
  { u with
    name := e.name.getD u.name
    gid := e.gid.getD u.gid
    gecos := e.gecos.getD u.gecos
    home := e.home.getD u.home
    shell := e.shell.getD u.shell }

def separated (s : Text) : Bool := ':' ∈ s ∨ '\n' ∈ s

def modifyUser (name : Text) (e : Edit) : M User := do
  let db ← get
  let ls := lines db.passwd
  match findLine name ls with
  | none => throw (.errno .enoent)
  | some l =>
    match parseUser l with
    | none => throw (.errno .einval)
    | some old =>
      let u := e.apply old
      if u.name ≠ name ∧ ls.any fun l => nameOf l = u.name then throw (.errno .eexist)
      else if separated u.gecos || separated u.home || separated u.shell then
        throw (.errno .einval)
      else do
        writePasswd (setLine name (userLine u) ls)
        record (.user u)
        pure u

end Fastros.Users
