import Fastros.Errno
import Fastros.Lib.Run

/-!
# Names of unix sockets

`bind`, `listen`, `connect`, `accept` and the closing of unix sockets over the one
table of listening names. The table is keyed by the path as it was written; where a
path leads in the root and mount namespace of a process is `resolve`, which file
operations may change in any way and which the calls never ask.
-/

namespace Fastros.Net

open Lib.Run Function

structure UnixListener where
  path : String
  backlog : Nat
  /-- The clients that wait to be accepted. -/
  queue : List Nat
  /-- The process that listens. -/
  proc : Nat
  deriving DecidableEq, Repr

inductive SockState where
  | idle
  | bound (path : String)
  | listen (l : Nat)
  | conn
  deriving DecidableEq, Repr

structure UnixNet where
  /-- The open sockets. -/
  socks : Nat → Option SockState := fun _ => none
  nextSock : Nat := 0
  listeners : Nat → UnixListener := fun _ => ⟨"", 1, [], 0⟩
  nextListener : Nat := 0
  bindings : String → Option Nat := fun _ => none
  resolve : Nat → String → Option Nat
  /-- The process and name of the successful `bind` of an open socket. -/
  bound : Nat → Option (Nat × String) := fun _ => none

def UnixNet.setSock (u : UnixNet) (s : Nat) (st : Option SockState) : UnixNet :=
  { u with socks := update u.socks s st }

def UnixNet.open (u : UnixNet) (st : SockState) : UnixNet :=
  { u.setSock u.nextSock (some st) with nextSock := u.nextSock + 1 }

/-- `bind` asks only whether somebody listens on the name, and does not reserve it. -/
def UnixNet.bind (u : UnixNet) (s proc : Nat) (path : String) : Except Errno Unit × UnixNet :=
  match u.socks s with
  | none => (.error .ebadf, u)
  | some st =>
    if path = "" then (.error .einval, u)
    else if (u.bindings path).isSome then (.error .eaddrinuse, u)
    else match st with
      | .idle => (.ok (), { u.setSock s (some (.bound path)) with bound := update u.bound s (some (proc, path)) })
      | _ => (.error .einval, u)

def UnixNet.listen (u : UnixNet) (s proc backlog : Nat) : Except Errno Unit × UnixNet :=
  match u.socks s with
  | none => (.error .ebadf, u)
  | some (.bound path) =>
    let l := u.nextListener
    (.ok (), { u.setSock s (some (.listen l)) with
      listeners := update u.listeners l ⟨path, min (max backlog 1) 512, [], proc⟩
      bindings := update u.bindings path (some l)
      nextListener := l + 1 })
  | some (.listen _) => (.ok (), u)
  | some _ => (.error .einval, u)

/-- `connect` returns the listener it reached. -/
def UnixNet.connect (u : UnixNet) (s : Nat) (path : String) : Except Errno Nat × UnixNet :=
  match u.socks s with
  | none => (.error .ebadf, u)
  | some .conn => (.error .eisconn, u)
  | some _ =>
    match u.bindings path with
    | none => (.error .econnrefused, u)
    | some l =>
      let v := u.listeners l
      if v.backlog ≤ v.queue.length then (.error .eagain, u)
      else (.ok l, { u.setSock s (some .conn) with
        listeners := update u.listeners l { v with queue := v.queue ++ [s] } })

def UnixNet.accept (u : UnixNet) (s : Nat) : Except Errno Nat × UnixNet :=
  match u.socks s with
  | none => (.error .ebadf, u)
  | some (.listen l) =>
    let v := u.listeners l
    match v.queue with
    | [] => (.error .eagain, u)
    | _ :: rest => (.ok u.nextSock, { u.open .conn with
        listeners := update u.listeners l { v with queue := rest } })
  | some _ => (.error .einval, u)

/-- The last reference to a socket goes: a listener leaves the table if it is still the
one that is registered. -/
def UnixNet.close (u : UnixNet) (s : Nat) : UnixNet :=
  let gone := { u.setSock s none with bound := update u.bound s none }
  match u.socks s with
  | some (.listen l) =>
    let path := (u.listeners l).path
    if u.bindings path = some l then { gone with bindings := update u.bindings path none }
    else gone
  | _ => gone

inductive UnixAct where
  | socket
  | bind (s proc : Nat) (path : String)
  | listen (s proc backlog : Nat)
  | connect (s proc : Nat) (path : String)
  | accept (s : Nat)
  | close (s : Nat)
  /-- Files, links, mounts and roots change; the `mknod` after a `bind` is one of these. -/
  | files (resolve : Nat → String → Option Nat)

def UnixNet.step : UnixAct → UnixNet → UnixNet
  | .socket, u => u.open .idle
  | .bind s proc path, u => (u.bind s proc path).2
  | .listen s proc backlog, u => (u.listen s proc backlog).2
  | .connect s _ path, u => (u.connect s path).2
  | .accept s, u => (u.accept s).2
  | .close s, u => u.close s
  | .files resolve, u => { u with resolve := resolve }

/-- The open socket is bound to the node that its name is, for the process that bound it. -/
def UnixNet.BoundTo (u : UnixNet) (s node : Nat) : Prop :=
  (u.socks s).isSome ∧ ∃ proc path, u.bound s = some (proc, path) ∧ u.resolve proc path = some node

/-- No two open sockets are bound to one node. -/
def UnixNet.Apart (u : UnixNet) : Prop := ∀ s t node, u.BoundTo s node → u.BoundTo t node → s = t

/-- Nobody binds a node that is bound, unless it listens under the same name. Nobody
connects by a name that is another node for the listener, or from a listening socket.
Files change so that bound names stay different nodes. -/
def UnixAct.Plain (u : UnixNet) : UnixAct → Prop
  | .bind _ proc path => ∀ t node, u.BoundTo t node → u.resolve proc path = some node →
      (u.bindings path).isSome
  | .connect s proc path => (∀ l, u.socks s ≠ some (.listen l)) ∧ ∀ l, u.bindings path = some l →
      (u.resolve proc path).isSome ∧ u.resolve (u.listeners l).proc path = u.resolve proc path
  | .files resolve => UnixNet.Apart { u with resolve := resolve }
  | _ => True

/-- A name in the table is that of a listener, which an open socket is. -/
structure UnixNet.Owned (u : UnixNet) (path : String) (l : Nat) : Prop where
  path_eq : (u.listeners l).path = path
  lt : l < u.nextListener
  owner : ∃ s p, u.socks s = some (.listen l) ∧ u.bound s = some (p, path)

structure UnixNet.Sound (u : UnixNet) : Prop where
  apart : u.Apart
  named : ∀ s p path, u.bound s = some (p, path) → path ≠ ""
  table : ∀ path l, u.bindings path = some l → u.Owned path l
  bound : ∀ s path, u.socks s = some (.bound path) → ∃ p, u.bound s = some (p, path)
  listens : ∀ s l, u.socks s = some (.listen l) → l < u.nextListener
  opened : ∀ s, (u.socks s).isSome → s < u.nextSock
  unbound : ∀ s, u.nextSock ≤ s → u.bound s = none

variable {u : UnixNet}

theorem UnixNet.Apart.mono (h : u.Apart) {v : UnixNet} (hr : v.resolve = u.resolve)
    (hv : ∀ s, (v.socks s).isSome → ∀ b, v.bound s = some b → (u.socks s).isSome ∧ u.bound s = some b) :
    v.Apart := by
  rintro s t node ⟨hs, p, a, ha, hra⟩ ⟨ht, q, b, hb, hrb⟩
  exact h s t node ⟨(hv s hs _ ha).1, p, a, (hv s hs _ ha).2, hr ▸ hra⟩
    ⟨(hv t ht _ hb).1, q, b, (hv t ht _ hb).2, hr ▸ hrb⟩

theorem update_path {l : Nat} {v : UnixListener} (hv : v.path = (u.listeners l).path) (i : Nat) :
    (update u.listeners l v i).path = (u.listeners i).path := by
  by_cases hi : i = l
  · subst hi
    rw [update_self, hv]
  · rw [update_of_ne hi]

/-- A new socket, with the queues as they may be. -/
theorem open_sound (h : u.Sound) {st : SockState} (hst : st = .idle ∨ st = .conn)
    {ls : Nat → UnixListener} (hls : ∀ l, (ls l).path = (u.listeners l).path) :
    UnixNet.Sound { u.open st with listeners := ls } := by
  have hnew : ∀ {s st'}, update u.socks u.nextSock (some st) s = some st' →
      s = u.nextSock ∧ st' = st ∨ s ≠ u.nextSock ∧ u.socks s = some st' := by
    intro s st' hs
    by_cases hn : s = u.nextSock
    · rw [hn, update_self] at hs
      exact .inl ⟨hn, (Option.some.inj hs).symm⟩
    · rw [update_of_ne hn] at hs
      exact .inr ⟨hn, hs⟩
  refine ⟨h.apart.mono rfl fun s hs b hb => ?_, h.named, fun path l hl => ?_, fun s path hs => ?_,
    fun s l hs => ?_, fun s hs => ?_, fun s hs => h.unbound s (Nat.le_of_succ_le hs)⟩
  · replace hb : u.bound s = some b := hb
    replace hs : (update u.socks u.nextSock (some st) s).isSome := hs
    have hlt : s < u.nextSock := by
      by_contra hge
      rw [h.unbound s (Nat.le_of_not_lt hge)] at hb
      cases hb
    rw [update_of_ne (Nat.ne_of_lt hlt)] at hs
    exact ⟨hs, hb⟩
  · obtain ⟨hpath, hlt, s, p, hs, hb⟩ := h.table path l hl
    refine ⟨(hls l).trans hpath, hlt, s, p, ?_, hb⟩
    have hopen := h.opened s (by rw [hs]; rfl)
    exact (update_of_ne (Nat.ne_of_lt hopen) ..).trans hs
  · rcases hnew hs with ⟨-, he⟩ | ⟨-, hs⟩
    · rcases hst with rfl | rfl <;> cases he
    · exact h.bound s path hs
  · rcases hnew hs with ⟨-, he⟩ | ⟨-, hs⟩
    · rcases hst with rfl | rfl <;> cases he
    · exact h.listens s l hs
  · obtain ⟨st', hs⟩ := Option.isSome_iff_exists.mp hs
    rcases hnew hs with ⟨rfl, -⟩ | ⟨-, hs⟩
    · exact Nat.lt_succ_self _
    · exact Nat.lt_succ_of_lt (h.opened s (by rw [hs]; rfl))

theorem bind_sound (h : u.Sound) {s proc : Nat} {path : String}
    (hp : (UnixAct.bind s proc path).Plain u) : (u.bind s proc path).2.Sound := by
  unfold UnixNet.bind
  split
  · exact h
  next st hst =>
  split
  · exact h
  next hne =>
  split
  · exact h
  next hfree =>
  split
  swap
  · exact h
  have hslt := h.opened s (by rw [hst]; rfl)
  have hother : ∀ {t st'}, t ≠ s → update u.socks s (some (.bound path)) t = some st' →
      u.socks t = some st' := fun hts ht => by rwa [update_of_ne hts] at ht
  -- nobody else is bound to the node
  have hnone : ∀ t node, u.BoundTo t node → u.resolve proc path ≠ some node :=
    fun t node ht hr => hfree (hp t node ht hr)
  have hbound : ∀ {t node}, UnixNet.BoundTo { u.setSock s (some (.bound path)) with
      bound := update u.bound s (some (proc, path)) } t node →
      t = s ∧ u.resolve proc path = some node ∨ u.BoundTo t node := by
    rintro t node ⟨ht, q, name, hb, hr⟩
    dsimp only [UnixNet.setSock] at ht hb
    by_cases hts : t = s
    · rw [hts, update_self] at hb
      cases hb
      exact .inl ⟨hts, hr⟩
    · rw [update_of_ne hts] at ht hb
      exact .inr ⟨ht, q, name, hb, hr⟩
  refine ⟨fun a b node ha hb => ?_, fun a p name ha => ?_, fun name l hl => ?_, fun a name ha => ?_,
    fun a l ha => ?_, fun a ha => ?_, fun a ha => ?_⟩
  · rcases hbound ha with ⟨rfl, hr⟩ | ha
    · rcases hbound hb with ⟨rfl, -⟩ | hb
      · rfl
      · exact absurd hr (hnone b node hb)
    · rcases hbound hb with ⟨-, hr⟩ | hb
      · exact absurd hr (hnone a node ha)
      · exact h.apart a b node ha hb
  · dsimp only at ha
    by_cases has : a = s
    · rw [has, update_self] at ha
      cases ha
      exact hne
    · rw [update_of_ne has] at ha
      exact h.named a p name ha
  · obtain ⟨hpath, hlt, t, p, ht, hb⟩ := h.table name l hl
    have hts : t ≠ s := fun hts => by rw [hts, hst] at ht; cases ht
    exact ⟨hpath, hlt, t, p, (update_of_ne hts ..).trans ht, (update_of_ne hts ..).trans hb⟩
  · dsimp only [UnixNet.setSock] at ha ⊢
    by_cases has : a = s
    · rw [has, update_self] at ha ⊢
      cases ha
      exact ⟨proc, rfl⟩
    · rw [update_of_ne has]
      exact h.bound a name (hother has ha)
  · dsimp only [UnixNet.setSock] at ha
    by_cases has : a = s
    · rw [has, update_self] at ha
      cases ha
    · exact h.listens a l (hother has ha)
  · dsimp only [UnixNet.setSock] at ha
    by_cases has : a = s
    · exact has ▸ hslt
    · rw [update_of_ne has] at ha
      exact h.opened a ha
  · exact (update_of_ne (Nat.ne_of_gt (Nat.lt_of_lt_of_le hslt ha)) ..).trans (h.unbound a ha)

/-- A socket that is open gets another state, with its name as before. -/
theorem setSock_apart (h : u.Apart) {s : Nat} (hs : (u.socks s).isSome) (st : SockState)
    {v : UnixNet} (hv : v.socks = update u.socks s (some st)) (hb : v.bound = u.bound)
    (hr : v.resolve = u.resolve) : v.Apart := by
  refine h.mono hr fun t ht b hbt => ⟨?_, hb ▸ hbt⟩
  rw [hv] at ht
  by_cases hts : t = s
  · exact hts ▸ hs
  · rwa [update_of_ne hts] at ht

theorem listen_sound (h : u.Sound) (s proc backlog : Nat) : (u.listen s proc backlog).2.Sound := by
  unfold UnixNet.listen
  split
  · exact h
  · rename_i path hst
    have hopen : (u.socks s).isSome := by rw [hst]; rfl
    obtain ⟨p, hbs⟩ := h.bound s path hst
    refine ⟨setSock_apart h.apart hopen _ rfl rfl rfl, h.named, fun name l hl => ?_, fun a name ha => ?_,
      fun a l ha => ?_, fun a ha => ?_, h.unbound⟩
    · dsimp only at hl
      by_cases hname : name = path
      · rw [hname, update_self] at hl
        cases hl
        exact ⟨by simp [hname], Nat.lt_succ_self _, s, p, update_self .., hname ▸ hbs⟩
      · rw [update_of_ne hname] at hl
        obtain ⟨hpath, hlt, t, q, ht, hb⟩ := h.table name l hl
        have hts : t ≠ s := fun hts => by rw [hts, hst] at ht; cases ht
        exact ⟨by simp [Nat.ne_of_lt hlt, hpath], Nat.lt_succ_of_lt hlt, t, q,
          (update_of_ne hts ..).trans ht, hb⟩
    · dsimp only [UnixNet.setSock] at ha
      by_cases has : a = s
      · rw [has, update_self] at ha
        cases ha
      · rw [update_of_ne has] at ha
        exact h.bound a name ha
    · dsimp only [UnixNet.setSock] at ha ⊢
      by_cases has : a = s
      · rw [has, update_self] at ha
        cases ha
        exact Nat.lt_succ_self _
      · rw [update_of_ne has] at ha
        exact Nat.lt_succ_of_lt (h.listens a l ha)
    · dsimp only [UnixNet.setSock] at ha
      by_cases has : a = s
      · exact has ▸ h.opened s hopen
      · rw [update_of_ne has] at ha
        exact h.opened a ha
  · exact h
  · exact h

theorem connect_sound (h : u.Sound) {s proc : Nat} {path : String}
    (hp : (UnixAct.connect s proc path).Plain u) : (u.connect s path).2.Sound := by
  unfold UnixNet.connect
  split
  · exact h
  · exact h
  next st _ hst =>
  split
  · exact h
  next l' _ =>
  dsimp only
  split
  · exact h
  have hopen : (u.socks s).isSome := by rw [hst]; rfl
  have hother : ∀ {t st'}, st' ≠ .conn → update u.socks s (some .conn) t = some st' →
      u.socks t = some st' := by
    intro t st' hne ht
    by_cases hts : t = s
    · rw [hts, update_self] at ht
      cases ht
      exact absurd rfl hne
    · rwa [update_of_ne hts] at ht
  refine ⟨setSock_apart h.apart hopen _ rfl rfl rfl, h.named, fun name l hl => ?_,
    fun a name ha => h.bound a name (hother nofun ha), fun a l ha => h.listens a l (hother nofun ha),
    fun a ha => ?_, h.unbound⟩
  · obtain ⟨hpath, hlt, t, q, ht, hb⟩ := h.table name l hl
    have hts : t ≠ s := fun hts => hp.1 l (hts ▸ ht)
    refine ⟨?_, hlt, t, q, (update_of_ne hts ..).trans ht, hb⟩
    exact Eq.trans (update_path (l := l') (by rfl) l) hpath
  · dsimp only [UnixNet.setSock] at ha
    by_cases has : a = s
    · exact has ▸ h.opened s hopen
    · rw [update_of_ne has] at ha
      exact h.opened a ha

theorem close_sound (h : u.Sound) (s : Nat) : (u.close s).Sound := by
  have hsocks : ∀ {t st}, update u.socks s none t = some st → t ≠ s ∧ u.socks t = some st := by
    intro t st ht
    by_cases hts : t = s
    · rw [hts, update_self] at ht
      cases ht
    · exact ⟨hts, by rwa [update_of_ne hts] at ht⟩
  have hbound : ∀ {t b}, update u.bound s none t = some b → t ≠ s ∧ u.bound t = some b := by
    intro t b ht
    by_cases hts : t = s
    · rw [hts, update_self] at ht
      cases ht
    · exact ⟨hts, by rwa [update_of_ne hts] at ht⟩
  -- whatever leaves the table, its other names have their owners
  have hgone : ∀ b : String → Option Nat, (∀ path l, b path = some l → u.bindings path = some l ∧
      u.socks s ≠ some (.listen l)) →
      UnixNet.Sound { u.setSock s none with bound := update u.bound s none, bindings := b } := by
    intro b hb
    refine ⟨h.apart.mono rfl fun t ht c hc => ?_, fun t p path ht => h.named t p path (hbound ht).2,
      fun path l hl => ?_, fun t path ht => ?_, fun t l ht => h.listens t l (hsocks ht).2,
      fun t ht => ?_, fun t ht => ?_⟩
    · obtain ⟨hts, hc⟩ := hbound hc
      obtain ⟨st, hst⟩ := Option.isSome_iff_exists.mp ht
      exact ⟨by rw [(hsocks hst).2]; rfl, hc⟩
    · obtain ⟨hl, hne⟩ := hb path l hl
      obtain ⟨hpath, hlt, t, q, ht, hbt⟩ := h.table path l hl
      have hts : t ≠ s := fun hts => hne (hts ▸ ht)
      exact ⟨hpath, hlt, t, q, (update_of_ne hts ..).trans ht, (update_of_ne hts ..).trans hbt⟩
    · obtain ⟨hts, ht⟩ := hsocks ht
      obtain ⟨p, hp⟩ := h.bound t path ht
      exact ⟨p, (update_of_ne hts ..).trans hp⟩
    · obtain ⟨st, hst⟩ := Option.isSome_iff_exists.mp ht
      exact h.opened t (by rw [(hsocks hst).2]; rfl)
    · by_cases hts : t = s
      · exact hts ▸ update_self ..
      · exact (update_of_ne hts ..).trans (h.unbound t ht)
  unfold UnixNet.close
  dsimp only
  split
  next l' hl' =>
    split
    next hreg =>
      refine hgone _ fun path l hl => ?_
      by_cases hpath : path = (u.listeners l').path
      · rw [hpath, update_self] at hl
        cases hl
      · rw [update_of_ne hpath] at hl
        refine ⟨hl, fun hs => hpath ?_⟩
        rw [hl'] at hs
        cases hs
        exact (h.table path l' hl).path_eq.symm
    next hreg =>
      refine hgone u.bindings fun path l hl => ⟨hl, fun hs => hreg ?_⟩
      rw [hl'] at hs
      cases hs
      rw [(h.table path l' hl).path_eq, hl]
  next hnot => exact hgone u.bindings fun path l hl => ⟨hl, hnot l⟩

theorem UnixNet.Sound.step (h : u.Sound) {a : UnixAct} (ha : a.Plain u) :
    (UnixNet.step a u).Sound := by
  cases a with
  | socket => exact open_sound h (.inl rfl) fun _ => rfl
  | bind s proc path => exact bind_sound h ha
  | listen s proc backlog => exact listen_sound h s proc backlog
  | connect s proc path => exact connect_sound h ha
  | accept s =>
    simp only [UnixNet.step, UnixNet.accept]
    split
    · exact h
    · split
      · exact h
      · exact open_sound h (.inr rfl) (update_path rfl)
    · exact h
  | close s => exact close_sound h s
  | files resolve =>
    exact ⟨ha, h.named, fun path l hl => ⟨(h.table path l hl).1, (h.table path l hl).2, (h.table path l hl).3⟩,
      h.bound, h.listens, h.opened, h.unbound⟩

theorem connect_reaches {s l : Nat} {path : String} (h : (u.connect s path).1 = .ok l) :
    u.bindings path = some l := by
  unfold UnixNet.connect at h
  split at h
  · cases h
  · cases h
  split at h
  · cases h
  dsimp only at h
  split at h
  · cases h
  · cases h
    assumption

/-- Every process sees `/run/s`, also as `/run//s`. -/
def oneRoot (_ : Nat) (path : String) : Option Nat :=
  if path = "/run/s" ∨ path = "/run//s" then some 1 else none

/-- Two processes with roots of their own: the same path is another node for each. -/
def ownRoots (proc : Nat) (path : String) : Option Nat := if path = "/run/s" then some proc else none

end Fastros.Net
