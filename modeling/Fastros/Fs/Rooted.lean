import Fastros.Fs.Path
import Fastros.Lib.Fuel

/-!
# Resolution stays below the root

Every node a walk produces has the resolver's root on its parent chain, provided
the working directory has it: a name adds a hop in front of the chain, crossing a
mount replaces that hop, and `..` drops a hop only when it is not the root. A
walk follows at most forty links. It ends exactly if no directory entry lies
under an endless stack of mounts.
-/

namespace Fastros.Fs

open Lib.Fuel List Resolver

variable {ι : Type}
variable {node : PathNode ι} {name : Name}

/-- The node or one of its ancestors is the resolver's root. -/
def Resolver.Below (r : Resolver ι) (n : PathNode ι) : Prop :=
  ∃ h ∈ n.self :: n.parents, r.isRootHop h = true

theorem isRootHop_root (r : Resolver ι) : r.isRootHop r.root.self = true := by
  simp [isRootHop, PathNode.mount, PathNode.inode]

theorem root_below (r : Resolver ι) : r.Below r.root :=
  ⟨r.root.self, mem_cons_self, isRootHop_root r⟩

variable {r : Resolver ι} {t : Progress ι}
variable {cur m n start : PathNode ι}

theorem below_of_parents (h : r.Below n) (hp : m.parents = n.self :: n.parents) : r.Below m := by
  obtain ⟨x, hx, hr⟩ := h
  exact ⟨x, mem_cons_of_mem _ (by rw [hp]; exact hx), hr⟩

/-- `..` leaves the root where it is and otherwise goes one hop up. -/
theorem up_below (h : r.Below n) : r.Below (r.up n) := by
  unfold up
  by_cases hroot : r.isRootNode n = true
  · rw [if_pos hroot]
    exact h
  rw [if_neg hroot]
  cases hp : n.parents with
  | nil => simp [isRootNode, PathNode.parent, hp] at hroot
  | cons p ps =>
    have hpar : n.parent = some ⟨p, ps⟩ := by rw [PathNode.parent, hp]
    have hself : r.isRootHop n.self = false := by
      simp [isRootNode] at hroot
      exact hroot.2
    obtain ⟨x, hx, hr⟩ := h
    rw [hpar]
    rcases mem_cons.mp hx with rfl | hx
    · rw [hself] at hr
      cases hr
    · exact ⟨x, by rw [hp] at hx; exact hx, hr⟩

/-- The mounts stacked on an inode come to an end. -/
inductive Ends (fs : Contents ι) (ns : List (Mount ι)) : UInt32 → Nat × Nat → Prop where
  | top {id : UInt32} {ino : Nat × Nat} (h : mountedOn ns id ino = none) : Ends fs ns id ino
  | under {id : UInt32} {ino : Nat × Nat} {m : Mount ι} (h : mountedOn ns id ino = some m)
      (he : Ends fs ns m.id (fs.id m.root)) : Ends fs ns id ino

theorem cross_returns (r : Resolver ι) {id : UInt32} {ino : Nat × Nat} (h : Ends r.fs r.ns id ino) :
    ∀ node : PathNode ι, node.mount.id = id → r.fs.id node.inode = ino →
      ∃ node', Returns (fun k => r.cross k node) node' ∧ node'.parents = node.parents := by
  induction h with
  | top h =>
    intro node hid hino
    refine ⟨node, (Returns.const node).succ fun k => ?_, rfl⟩
    rw [cross, hid, hino, h]
  | @under id ino m h he ih =>
    intro node hid hino
    obtain ⟨node', hret, hpar⟩ :=
      ih { node with self := { node.self with mount := m, inode := m.root } } rfl rfl
    refine ⟨node', hret.succ fun k => ?_, hpar⟩
    rw [cross, hid, hino, h]

theorem cross_ends (r : Resolver ι) (k : Nat) :
    ∀ node node' : PathNode ι, r.cross k node = some node' →
      Ends r.fs r.ns node.mount.id (r.fs.id node.inode) := by
  induction k with
  | zero =>
    intro node node' h
    cases h
  | succ k ih =>
    intro node node' h
    rw [cross] at h
    cases hm : mountedOn r.ns node.mount.id (r.fs.id node.inode) with
    | none => exact .top hm
    | some m =>
      rw [hm] at h
      exact .under hm (ih _ _ h)

/-- A name that can be a component of a path and is looked up. -/
def IsEntryName (name : Name) : Prop :=
  name ≠ [] ∧ slash ∉ name ∧ name ≠ dot ∧ name ≠ dotdot ∧ name.length ≤ nameMax

/-- Whatever directory entry a walk can reach, and on whatever mount, the mounts
stacked on it come to an end. -/
def EntriesEnd (fs : Contents ι) (ns : List (Mount ι)) : Prop :=
  ∀ dir name inode, fs.isDir dir = true → IsEntryName name → fs.lookup dir name = .ok inode →
    ∀ id, Ends fs ns id (fs.id inode)

/-- The links followed are counted. -/
def Progress.Counted (t : Progress ι) : Prop :=
  t.followed.length ≤ t.depth ∧ t.followed.length ≤ maxSymlinks

/-- What holds of a walk that started at `t`. -/
structure Sound (r : Resolver ι) (t : Progress ι) (out : Walked ι) : Prop where
  depth : t.depth ≤ out.2.depth
  counted : out.2.Counted
  below : ∀ node, out.1 = .ok node → r.Below node

theorem sound_error (r : Resolver ι) {t' : Progress ι} (e : Errno) (hd : t.depth ≤ t'.depth)
    (hc : t'.Counted) : Sound r t (.error e, t') :=
  ⟨hd, hc, fun _ h => by cases h⟩

theorem sound_ok (r : Resolver ι) (hc : t.Counted) (hb : r.Below node) : Sound r t (.ok node, t) :=
  ⟨le_rfl, hc, fun _ h => by cases h; exact hb⟩

theorem Sound.trans {mid out : Walked ι} (h1 : Sound r t mid)
    (h2 : Sound r mid.2 out) : Sound r t out :=
  ⟨le_trans h1.depth h2.depth, h2.counted, h2.below⟩

/-- `again`, given `k` units of fuel, walks targets soundly once more links than
`d` have been counted. -/
def Again (r : Resolver ι) (d : Nat)
    (again : Nat → PathNode ι → Name → Progress ι → Option (Walked ι)) : Prop :=
  ∀ cur target (t : Progress ι), r.Below cur → t.Counted → d < t.depth → t.depth ≤ maxSymlinks →
    ∃ out, Returns (fun k => again k cur target t) out ∧ Sound r t out

section

variable {d : Nat}
  {again : Nat → PathNode ι → Name → Progress ι → Option (Walked ι)} (ha : Again r d again)
  {cur : PathNode ι} (hb : r.Below cur) {t : Progress ι} (hc : t.Counted) (hd : d ≤ t.depth)

include ha hb hc hd

theorem follow_returns (hn : r.Below node) :
    ∃ out, Returns (fun k => r.follow (again k) cur node t) out ∧ Sound r t out := by
  unfold follow
  cases hk : r.fs.kind node.inode with
  | error e => exact ⟨_, .const _, sound_error r e le_rfl hc⟩
  | ok kind =>
    by_cases hs : kind = .symlink
    · have h := hc.1
      have hfail : ∀ e, Sound r t (.error e, { t with depth := t.depth + 1 }) := fun e =>
        sound_error r e (Nat.le_succ _) ⟨Nat.le_succ_of_le h, hc.2⟩
      by_cases hmax : t.depth + 1 > maxSymlinks
      · refine ⟨_, ?_, hfail .eloop⟩
        simpa [hs, hmax] using Returns.const _
      cases hl : r.fs.readlink node.inode with
      | error e =>
        refine ⟨_, ?_, hfail e⟩
        simpa [hs, hmax, hl] using Returns.const _
      | ok target =>
        obtain ⟨out, hret, hsound⟩ := ha cur target
          { depth := t.depth + 1, followed := node.inode :: t.followed } hb
          ⟨by simp; omega, by simp; omega⟩ (by simp; omega) (by simp; omega)
        have hdep := hsound.depth
        refine ⟨out, ?_, ⟨by simp at hdep; omega, hsound.counted, hsound.below⟩⟩
        simpa [hs, hmax, hl] using hret
    · refine ⟨(.ok node, t), ?_, sound_ok r hc hn⟩
      simpa [hs] using Returns.const _

theorem enter_returns (he : EntriesEnd r.fs r.ns) (follow : Bool)
    (hdir : r.fs.isDir cur.inode = true) (hname : name.length ≤ nameMax → IsEntryName name) :
    ∃ out, Returns (fun k => r.enter k (again k) follow name cur t) out ∧ Sound r t out := by
  unfold enter
  by_cases hlong : name.length > nameMax
  · refine ⟨(.error .enametoolong, t), ?_, sound_error r _ le_rfl hc⟩
    simpa [hlong] using Returns.const _
  cases hl : r.fs.lookup cur.inode name with
  | error e =>
    refine ⟨(.error e, t), ?_, sound_error r _ le_rfl hc⟩
    simpa [hlong] using Returns.const _
  | ok inode =>
    have hends := he cur.inode name inode hdir (hname (by omega)) hl cur.mount.id
    obtain ⟨node, hcross, hpar⟩ := cross_returns r hends (cur.child name inode) rfl rfl
    have hbelow : r.Below node := below_of_parents hb hpar
    cases follow with
    | false =>
      refine ⟨(.ok node, t), ?_, sound_ok r hc hbelow⟩
      have hret := hcross.bind (g := fun node _ => some ((.ok node, t) : Walked ι)) (.const _)
      simpa [hlong] using hret
    | true =>
      obtain ⟨out, hret, hsound⟩ := follow_returns ha hb hc hd hbelow
      refine ⟨out, ?_, hsound⟩
      simpa [hlong] using hcross.bind hret

theorem component_returns (he : EntriesEnd r.fs r.ns) (follow : Bool) {c : Name}
    (hne : c ≠ []) (hsl : slash ∉ c) :
    ∃ out, Returns (fun k => r.component k (again k) follow c cur t) out ∧ Sound r t out := by
  unfold component
  cases hm : r.fs.metadata cur.inode with
  | error e => exact ⟨_, .const _, sound_error r e le_rfl hc⟩
  | ok m =>
    by_cases hk : m.kind = .directory
    · cases hx : check r.cred m mayExec with
      | error e =>
        refine ⟨(.error e, t), ?_, sound_error r _ le_rfl hc⟩
        simpa [hk, hx] using Returns.const _
      | ok u =>
        by_cases h1 : c = dot
        · refine ⟨(.ok cur, t), ?_, sound_ok r hc hb⟩
          simpa [hk, hx, h1] using Returns.const _
        by_cases h2 : c = dotdot
        · refine ⟨(.ok (r.up cur), t), ?_, sound_ok r hc (up_below hb)⟩
          simpa [hk, hx, h1, h2, dot, dotdot] using Returns.const _
        have hdir : r.fs.isDir cur.inode = true := by simp [Contents.isDir, hm, hk]
        obtain ⟨out, hret, hsound⟩ := enter_returns ha hb hc hd he follow hdir
          fun hlen => ⟨hne, hsl, h1, h2, hlen⟩
        refine ⟨out, ?_, hsound⟩
        simpa [hk, hx, h1, h2] using hret
    · refine ⟨(.error .enotdir, t), ?_, sound_error r _ le_rfl hc⟩
      simpa [hk] using Returns.const _

end

theorem splitOn_pieces (l : Name) : ∀ c ∈ l.splitOn slash, slash ∉ c := by
  induction l with
  | nil => simp
  | cons x xs ih =>
    intro c hc
    rw [splitOn_cons_eq_if_modifyHead] at hc
    by_cases hx : (x == slash) = true
    · rw [if_pos hx] at hc
      rcases mem_cons.mp hc with rfl | hc
      · simp
      · exact ih c hc
    rw [if_neg hx] at hc
    cases hs : xs.splitOn slash with
    | nil => rw [hs] at hc; cases hc
    | cons p ps =>
      rw [hs] at hc ih
      rcases mem_cons.mp hc with rfl | hc
      · have hp := ih p mem_cons_self
        have hne : slash ≠ x := fun he => hx (by simp [he])
        simp [hne, hp]
      · exact ih c (mem_cons_of_mem _ hc)

theorem mem_comps {path c : Name} (h : c ∈ comps path) : c ≠ [] ∧ slash ∉ c := by
  obtain ⟨hm, hne⟩ := mem_filter.mp h
  exact ⟨by rintro rfl; simp at hne, splitOn_pieces path c hm⟩

section

variable (he : EntriesEnd r.fs r.ns)
include he

theorem components_returns {d : Nat}
    {again : Nat → PathNode ι → Name → Progress ι → Option (Walked ι)} (ha : Again r d again)
    (followLast : Bool) (cs : List Name) (hcs : ∀ c ∈ cs, c ≠ [] ∧ slash ∉ c) :
    ∀ (cur : PathNode ι) (t : Progress ι), r.Below cur → t.Counted → d ≤ t.depth →
      ∃ out, Returns (fun k => r.components k (again k) followLast cs cur t) out ∧ Sound r t out := by
  induction cs with
  | nil =>
    intro cur t hb hc _
    exact ⟨(.ok cur, t), .const _, sound_ok r hc hb⟩
  | cons c cs ih =>
    intro cur t hb hc hd
    obtain ⟨hne, hsl⟩ := hcs c mem_cons_self
    obtain ⟨⟨res, t'⟩, hret, hsound⟩ :=
      component_returns ha hb hc hd he (!cs.isEmpty || followLast) hne hsl
    cases res with
    | error e => exact ⟨(.error e, t'), hret.bind (.const _), hsound⟩
    | ok cur' =>
      have hd' : d ≤ t'.depth := le_trans hd hsound.depth
      obtain ⟨out, hret', hsound'⟩ := ih (fun c hc => hcs c (mem_cons_of_mem _ hc)) cur' t'
        (hsound.below cur' rfl) hsound.counted hd'
      exact ⟨out, hret.bind hret', hsound.trans hsound'⟩

theorem walk_of_again
    (ha : Again r t.depth fun k cur target t => r.walk k cur target true t)
    (path : Name) (followLast : Bool) (hb : r.Below start) (hc : t.Counted) :
    ∃ out, Returns (fun k => r.walk k start path followLast t) out ∧ Sound r t out := by
  have hcur : r.Below (if path.head? = some slash then r.root else start) := by
    split
    · exact root_below r
    · exact hb
  obtain ⟨out, hret, hsound⟩ := components_returns he ha followLast (comps path)
    (fun c hc => mem_comps hc) _ t hcur hc le_rfl
  exact ⟨out, hret.succ fun k => rfl, hsound⟩

/-- The induction is on the number of links that may still be followed. -/
theorem walk_again (left : Nat) :
    Again r (maxSymlinks - left) fun k cur target t => r.walk k cur target true t := by
  induction left with
  | zero =>
    intro cur target t _ _ hlt hle
    omega
  | succ left ih =>
    intro cur target t hb hc hlt hle
    have ha : Again r t.depth fun k cur target t => r.walk k cur target true t := by
      intro cur' target' t' hb' hc' hlt' hle'
      exact ih cur' target' t' hb' hc' (by omega) hle'
    exact walk_of_again he ha target true hb hc

theorem resolve_returns (hcwd : r.Below r.cwd) (path : Name) (follow : Bool) :
    ∃ out, Returns (fun k => r.resolve k path follow) out ∧ Sound r {} out := by
  have hc : Progress.Counted ({} : Progress ι) := ⟨le_rfl, Nat.zero_le _⟩
  unfold resolve
  by_cases h0 : path.isEmpty = true
  · refine ⟨(.error .enoent, {}), ?_, sound_error r _ le_rfl hc⟩
    simpa [h0] using Returns.const _
  by_cases h1 : path.length > pathMax
  · refine ⟨(.error .enametoolong, {}), ?_, sound_error r _ le_rfl hc⟩
    simpa [h0, h1] using Returns.const _
  have ha : Again r 0 fun k cur target t => r.walk k cur target true t := walk_again he maxSymlinks
  obtain ⟨⟨res, t⟩, hret, hsound⟩ := walk_of_again he ha path
    (follow || decide (path.getLast? = some slash)) hcwd hc
  simp only [h0, h1, if_false, Bool.false_eq_true]
  cases res with
  | error e => exact ⟨(.error e, t), hret.bind (.const _), hsound⟩
  | ok node =>
    by_cases hdir : path.getLast? = some slash ∧ ¬ r.fs.isDir node.inode
    · refine ⟨(.error .enotdir, t), hret.bind ?_, sound_error r _ hsound.depth hsound.counted⟩
      exact (Returns.const _).congr fun k => (if_pos hdir).symm
    · refine ⟨(.ok node, t), hret.bind ?_, hsound⟩
      exact (Returns.const _).congr fun k => (if_neg hdir).symm

end

/-- What holds of a call to `resolve_parent`. -/
structure ParentSound (r : Resolver ι) (out : Except Errno (PathNode ι × Name) × Progress ι) :
    Prop where
  counted : out.2.Counted
  below : ∀ parent name, out.1 = .ok (parent, name) → r.Below parent

theorem parentSound_error (r : Resolver ι) (e : Errno) (hc : t.Counted) :
    ParentSound r (.error e, t) :=
  ⟨hc, fun _ _ h => by cases h⟩

theorem resolveParent_returns (he : EntriesEnd r.fs r.ns) (hcwd : r.Below r.cwd) (path : Name) :
    ∃ out, Returns (fun k => r.resolveParent k path) out ∧ ParentSound r out := by
  have hc : Progress.Counted ({} : Progress ι) := ⟨le_rfl, Nat.zero_le _⟩
  unfold resolveParent
  by_cases h0 : path.isEmpty = true
  · refine ⟨(.error .enoent, {}), ?_, parentSound_error r _ hc⟩
    simpa [h0] using Returns.const _
  simp only [h0, if_false, Bool.false_eq_true]
  by_cases h1 : (path.rdropWhile (· == slash)).isEmpty = true
  · refine ⟨(.error .ebusy, {}), ?_, parentSound_error r _ hc⟩
    simpa [h1] using Returns.const _
  simp only [h1, if_false, Bool.false_eq_true]
  by_cases h2 : ((path.rdropWhile (· == slash)).rtakeWhile (· != slash)).length > nameMax
  · refine ⟨(.error .enametoolong, {}), ?_, parentSound_error r _ hc⟩
    simpa [h2] using Returns.const _
  simp only [h2, if_false]
  obtain ⟨⟨res, t⟩, hret, hsound⟩ := resolve_returns he hcwd
    (if ((path.rdropWhile (· == slash)).rdropWhile (· != slash)).isEmpty = true then dot
      else if ((path.rdropWhile (· == slash)).rdropWhile (· != slash)).length = 1 then [slash]
      else ((path.rdropWhile (· == slash)).rdropWhile (· != slash)).dropLast) true
  cases res with
  | error e => exact ⟨(.error e, t), hret.bind (.const _), parentSound_error r _ hsound.counted⟩
  | ok parent =>
    by_cases hdir : r.fs.isDir parent.inode = true
    · refine ⟨(.ok (parent, (path.rdropWhile (· == slash)).rtakeWhile (· != slash)), t),
        hret.bind ?_, hsound.counted, fun p name h => ?_⟩
      · simpa [hdir] using Returns.const _
      · cases h
        exact hsound.below parent rfl
    · refine ⟨(.error .enotdir, t), hret.bind ?_, parentSound_error r _ hsound.counted⟩
      simpa [hdir] using Returns.const _

/-- Every resolution ends, follows at most forty links, and yields a node that has
the root on its chain. -/
def Resolver.Confined (r : Resolver ι) : Prop :=
  (∀ path follow, ∃ res t, Returns (fun k => r.resolve k path follow) (res, t) ∧
    t.followed.length ≤ maxSymlinks ∧ ∀ node, res = .ok node → r.Below node) ∧
  ∀ path, ∃ res t, Returns (fun k => r.resolveParent k path) (res, t) ∧
    t.followed.length ≤ maxSymlinks ∧ ∀ parent name, res = .ok (parent, name) → r.Below parent

theorem confined_of_ends (he : EntriesEnd r.fs r.ns) (hcwd : r.Below r.cwd) : r.Confined := by
  constructor
  · intro path follow
    obtain ⟨⟨res, t⟩, hret, hsound⟩ := resolve_returns he hcwd path follow
    exact ⟨res, t, hret, hsound.counted.2, hsound.below⟩
  · intro path
    obtain ⟨⟨res, t⟩, hret, hsound⟩ := resolveParent_returns he hcwd path
    exact ⟨res, t, hret, hsound.counted.2, hsound.below⟩

/-- The node of directory `dir` on a mount with the given id. -/
def dirNode (id : UInt32) (dir : ι) : PathNode ι := ⟨⟨⟨0, id, dir, none⟩, dir, []⟩, []⟩

theorem cross_none (h : ¬ Ends r.fs r.ns node.mount.id (r.fs.id node.inode))
    (k : Nat) : r.cross k node = none := by
  cases hx : r.cross k node with
  | none => rfl
  | some node' => exact absurd (cross_ends r k node node' hx) h

/-- Walking to an entry under an endless stack of mounts never ends. -/
theorem walk_none {inode : ι}
    (hcred : r.cred.isRoot = true) (hdir : r.fs.isDir cur.inode = true) (hname : IsEntryName name)
    (hl : r.fs.lookup cur.inode name = .ok inode)
    (h : ¬ Ends r.fs r.ns cur.mount.id (r.fs.id inode)) (followLast : Bool) (t : Progress ι) (k : Nat) :
    r.walk k cur name followLast t = none := by
  obtain ⟨hne, hsl, hd1, hd2, hlen⟩ := hname
  have hcs : comps name = [name] := by
    simp [comps, splitOn_eq_singleton hsl, hne]
  have hhead : ¬ name.head? = some slash := by
    intro hh
    exact hsl (mem_of_mem_head? (by rw [hh]; rfl))
  cases k with
  | zero => rfl
  | succ k =>
    cases hm : r.fs.metadata cur.inode with
    | error e => simp [Contents.isDir, hm] at hdir
    | ok m =>
      have hk : m.kind = .directory := by simpa [Contents.isDir, hm] using hdir
      have hx : check r.cred m mayExec = .ok () := check_root_dir _ hcred hk
      have hcr : r.cross k (cur.child name inode) = none := cross_none h k
      have hlen' : ¬ name.length > nameMax := by omega
      simp [walk, hhead, hcs, components, component, hm, hk, hx, hd1, hd2, enter, hlen', hl, hcr]

theorem resolve_none {inode : ι}
    (hcred : r.cred.isRoot = true) (hdir : r.fs.isDir r.cwd.inode = true) (hname : IsEntryName name)
    (hl : r.fs.lookup r.cwd.inode name = .ok inode)
    (h : ¬ Ends r.fs r.ns r.cwd.mount.id (r.fs.id inode)) (follow : Bool) (k : Nat) :
    r.resolve k name follow = none := by
  have h0 : name.isEmpty = false := by simpa using hname.1
  have h1 : ¬ name.length > pathMax := by
    have := hname.2.2.2.2
    have : nameMax ≤ pathMax := by decide
    omega
  simp [resolve, h0, h1, walk_none hcred hdir hname hl h]

/-- Over given contents and a given mount table, every resolver whose working
directory is below its root is confined exactly when no directory entry lies under
an endless stack of mounts. -/
theorem confined_iff (fs : Contents ι) (ns : List (Mount ι)) :
    (∀ (root cwd : PathNode ι) (cred : Cred), Resolver.Below ⟨fs, ns, root, cwd, cred⟩ cwd →
      Resolver.Confined ⟨fs, ns, root, cwd, cred⟩) ↔ EntriesEnd fs ns := by
  constructor
  · intro hall dir name inode hdir hname hl id
    by_contra hends
    have hconf := hall (dirNode id dir) (dirNode id dir) {} (root_below _)
    obtain ⟨res, t, hret, -⟩ := hconf.1 name true
    exact not_returns (resolve_none rfl hdir hname hl hends true) _ hret
  · intro he root cwd cred hcwd
    exact confined_of_ends he hcwd

end Fastros.Fs
