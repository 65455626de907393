import Fastros.Mm.Lifecycle

/-!
# A store is seen by no other process's private memory

Processes run in any order: they make calls, touch pages, store bytes, fork and
exit. As long as `protect` gives the right to write only to pages whose frame
nobody else maps, a store by one process changes no byte another process has in
private memory. `fork` leaves a page that is present but not writable without
the copy-on-write mark, so `protect` can break this.
-/

namespace Fastros.Mm

open Lib.Stateful Lib.Run Kernel Watch
open Function (update update_self update_of_ne)

variable {φ : Type}

/-- The kernel and the spaces of the running processes. -/
structure Procs (φ : Type) where
  kernel : Kernel φ
  live : List Nat

inductive Act where
  | call (s : Nat) (c : Call)
  | touch (s addr : Nat) (write : Bool)
  | store (s va : Nat) (b : UInt8)
  | spawn
  | fork (s : Nat)
  | exit (s : Nat)

/-- An error code is returned to the process, a panic ends the run. -/
def Procs.after {α : Type} (m : Procs φ) (live : α → List Nat) :
    EStateM.Result Stop (Kernel φ) α → Option (Procs φ)
  | .ok a k => some ⟨k, live a⟩
  | .error (.errno _) k => some ⟨k, m.live⟩
  | .error _ _ => none

/-- Only a running process acts. A user-mode store above the user range is
stopped by the hardware. -/
def Act.possible (m : Procs φ) : Act → Bool
  | .call s _ | .touch s _ _ | .fork s | .exit s => s ∈ m.live
  | .store s va _ => s ∈ m.live ∧ va < userEnd
  | .spawn => true

variable (A : FrameAllocator φ)

def Procs.perform (m : Procs φ) : Act → Option (Procs φ)
  | .call s c => m.after (fun _ => m.live) (c.run A s m.kernel)
  | .touch s addr write => m.after (fun _ => m.live) (faultIn A s (alignDown addr) write m.kernel)
  | .store s va b => m.after (fun _ => m.live) (userStore s va b m.kernel)
  | .spawn => m.after (· :: m.live) (newSpace A m.kernel)
  | .fork s => m.after (· :: m.live) (fork A s m.kernel)
  | .exit s => m.after (fun _ => m.live.filter (· ≠ s)) (dropSpace A s m.kernel)

def Procs.step (a : Act) (m : Procs φ) : Option (Procs φ) :=
  if a.possible m then m.perform A a else some m

/-- The byte a first touch of a private page would put at `va`. -/
def demandByte (k : Kernel φ) (r : Region) (va : Nat) : UInt8 :=
  match r.backing with
  | none => 0
  | some b =>
    let pageOff := alignDown va - r.start
    if pageOff < b.length then
      let n := min (b.length - pageOff) pageSize
      (((k.files b.file).pread (b.offset + pageOff) n).take n).getD (va % pageSize) 0
    else 0

/-- The byte space `t` has at an address of private memory: in its frame, in its
swap slot, or still to be filled in. -/
def Kernel.privateByte (k : Kernel φ) (t va : Nat) : Option UInt8 :=
  match findRegion (k.spaces t).regions (alignDown va) with
  | none => none
  | some r =>
    if r.shared.isSome then none
    else
      let e := k.pte t (pageIndex va)
      if e.present then some (k.mem e.addr (va % pageSize))
      else if e.swapped then some (k.swap.data (e.addr / pageSize) (va % pageSize))
      else some (demandByte k r va)

structure Secure (live : Nat → Prop) (k : Kernel φ) : Prop where
  own : Own A live k
  arranged : ∀ t, Arranged (k.spaces t)
  within : ∀ t, live t → t < k.nspaces

variable {A} {live : Nat → Prop} {s : Nat} {k : Kernel φ}

/-- The spaces before the first process. -/
structure Kernel.Booted (k : Kernel φ) : Prop where
  spaces : ∀ t, k.spaces t = {}
  objs : ∀ o, k.objs o = []
  exported : ∀ f o, (k.files f).sharedMmap = some o → o < k.nobjs

theorem booted_secure (h : k.Booted) (hl : ∀ t, ¬ live t) : Secure A live k := by
  have hpt : ∀ t i, ((k.tally A).pt t i) = {} := fun t i => by
    show (k.spaces t).pt i = {}
    rw [h.spaces t]
  have hun : ∀ f x, ¬ (k.tally A).Holds f x := by
    intro f x hx
    cases x with
    | page t i =>
      have hp := hx.2.1
      rw [hpt] at hp
      cases hp
    | object o key =>
      have hm : (key, f) ∈ k.objs o := hx
      rw [h.objs o] at hm
      cases hm
  refine ⟨⟨fun f l _ hl => ?_, fun f _ => ⟨List.not_mem_nil, hun f⟩, fun o => ?_, fun t h => absurd h (hl t),
    fun t _ h => absurd h (hl t), fun t h => absurd h (hl t), fun t i _ _ => ?_, fun t i _ hp => ?_, fun o _ => h.objs o,
    fun t r hr => ?_, fun o ⟨f, hf⟩ => h.exported f o hf⟩, fun t => ?_, fun t h => absurd h (hl t)⟩
  · have hnil : l = [] := List.eq_nil_iff_forall_not_mem.mpr fun x hx => hun f x (hl x hx)
    rw [hnil]
    exact Nat.zero_le _
  · show ((k.objs o).map Prod.fst).Nodup
    rw [h.objs o]
    exact List.nodup_nil
  · rw [hpt]
    exact ⟨fun h => (by cases h), fun _ h => (by cases h)⟩
  · rw [hpt] at hp
    cases hp
  · have hr' : r ∈ (k.spaces t).regions := hr
    rw [h.spaces t] at hr'
    cases hr'
  · rw [h.spaces t]
    exact fresh_arranged ⟨rfl, rfl, rfl, rfl⟩

/-- A step stops the machine, or leaves it secure. -/
def SecureStops (A : FrameAllocator φ) (live : Nat → Prop) (e : Stop) (k : Kernel φ) : Prop :=
  Panicked e ∨ Secure A live k

theorem elsewhere_arranged (s n : Nat) :
    Elsewhere s (fun k : Kernel φ => (∀ t, t ≠ s → Arranged (k.spaces t)) ∧ k.nspaces = n) := by
  intro k k' hc h hk
  exact ⟨fun t ht => arranged_of_placement (h t ht) (hk.1 t ht), hc.trans hk.2⟩

variable {k' : Kernel φ} {P : Kernel φ → Prop} {va child t : Nat}

theorem secure_of_space (h : Secure A live k) (hO : Own A live k') (hs : Arranged (k'.spaces s))
    (ho : (∀ t, t ≠ s → Arranged (k'.spaces t)) ∧ k'.nspaces = k.nspaces) : Secure A live k' := by
  refine ⟨hO, fun t => ?_, fun t ht => by rw [ho.2]; exact h.within t ht⟩
  by_cases hts : t = s
  · rw [hts]
    exact hs
  · exact ho.1 t hts

theorem call_secure (c : Call) :
    Ensures (fun k => Secure A live k ∧ live s ∧ c.Fits (k.spaces s) ∧ c.Isolates A s k) (c.run A s)
      (Secure A live) := by
  refine .intro fun k hk => ?_
  have hown := (call_own c).ends ⟨hk.1.own, hk.1.within s hk.2.1, hk.1.arranged s, hk.2.2.2⟩
  have hs := (call_arranged_iff A s c (hk.1.arranged s)).mpr hk.2.2.1
  have ho := (call_elsewhere (A := A) (elsewhere_arranged s k.nspaces) c).state
    ⟨fun t _ => hk.1.arranged t, rfl⟩
  rw [Call.after] at hs
  cases hr : c.run A s k with
  | ok u k' =>
    rw [hr] at hown hs ho
    cases hown with
    | ok hO => exact .ok (secure_of_space hk.1 hO hs ho)
  | error e k' =>
    rw [hr] at hown hs ho
    cases hown with
    | error h => exact .error (h.imp id fun hO => secure_of_space hk.1 hO hs ho)

theorem secure_placement (n : Nat) :
    PlacementOnly (fun k : Kernel φ => (∀ t, Arranged (k.spaces t)) ∧ k.nspaces = n) := by
  intro k k' hc h hk
  exact ⟨fun t => arranged_placement t k k' hc h (hk.1 t), hc.trans hk.2⟩

/-- What keeps the ownership and every placement keeps the machine secure. -/
theorem secure_of_own {α : Type} {x : KM φ α}
    (hO : Ensures (fun k => Own A live k ∧ P k) x (Own A live))
    (hp : ∀ n, Keeps (fun k : Kernel φ => (∀ t, Arranged (k.spaces t)) ∧ k.nspaces = n) x) :
    Ensures (fun k => Secure A live k ∧ P k) x (Secure A live) := by
  have hsec : ∀ {k k' : Kernel φ}, Secure A live k → Own A live k' →
      ((∀ t, Arranged (k'.spaces t)) ∧ k'.nspaces = k.nspaces) → Secure A live k' :=
    fun h hO hk => ⟨hO, hk.1, fun t ht => by rw [hk.2]; exact h.within t ht⟩
  refine Triple.intro fun k hk => ?_
  have hboth := Triple.mono (.and hO (hp k.nspaces)) (fun _ => id)
    (fun _ _ h => hsec hk.1 h.1 h.2) fun _ _ h => h.1.imp id fun hO => hsec hk.1 hO h.2
  exact hboth.ends ⟨⟨hk.1.own, hk.2⟩, hk.1.arranged, rfl⟩

theorem faultIn_own {page : Nat} (write : Bool) (hm : page % pageSize = 0) :
    Ensures (fun k => Own A live k ∧ s < k.nspaces ∧ Tidy s k) (faultIn A s page write)
      (Own A live) := by
  refine triple_faultIn (R := fun r k => Own A live k ∧ s < k.nspaces ∧ Tidy s k ∧
    r ∈ (k.spaces s).regions ∧ r.start ≤ page ∧ page < r.end) .panicked (fun _ h => h.1)
    (fun k r hk hr => ⟨hk.1, hk.2.1, hk.2.2, List.mem_of_find?_eq_some hr, findRegion_contains hr⟩)
    fun r => .intro fun k hk => ?_
  have hlt : page < userEnd := Nat.lt_of_lt_of_le hk.2.2.2.2.2 (hk.2.2.1 r hk.2.2.2.1)
  exact (ensurePage_own write hm hlt r).ends hk

theorem faultIn_placement (hP : PlacementOnly P) (page : Nat) (write : Bool) :
    Keeps P (faultIn A s page write) :=
  triple_faultIn .self (fun _ => id) (fun _ _ h _ => h)
    fun r => unseen_ensurePage (hP.unseen s) page r write

theorem touch_secure (addr : Nat) (write : Bool) :
    Ensures (fun k => Secure A live k ∧ live s) (faultIn A s (alignDown addr) write)
      (Secure A live) :=
  .pre (secure_of_own (faultIn_own write (alignDown_mod addr)) fun n =>
      faultIn_placement (secure_placement n) _ _)
    (fun _ h => ⟨h.1, h.1.within s h.2, fun r hr => ((h.1.arranged s).regions.placed r hr).high⟩)

theorem setPte_rest (k : Kernel φ) (s i : Nat) (e : Pte) : (k.setPte s i e).mem = k.mem ∧
    (k.setPte s i e).swap = k.swap ∧ (k.setPte s i e).files = k.files := by
  unfold setPte
  split <;> exact ⟨rfl, rfl, rfl⟩

/-- A byte stored at offset `off` of page `i`. -/
def Kernel.stored (k : Kernel φ) (s i off : Nat) (b : UInt8) : Kernel φ :=
  { k.setPte s i { k.pte s i with accessed := true, dirty := true } with
    mem := update k.mem (k.pte s i).addr (update (k.mem (k.pte s i).addr) off b) }

theorem userStore_eq (s va : Nat) (b : UInt8) (k : Kernel φ) : userStore s va b k =
    if (k.pte s (pageIndex va)).present && (k.pte s (pageIndex va)).writable &&
        (k.pte s (pageIndex va)).user then
      .ok true (k.stored s (pageIndex va) (va % pageSize) b)
    else .ok false k := by
  unfold userStore leafEntry setLeafEntry stored
  simp only [run_bind, run_get, run_pure, run_ite, run_modify, (setPte_rest k s _ _).1]

theorem store_secure (b : UInt8) (hva : va < userEnd) :
    Keeping (Secure A live) (userStore s va b) (SecureStops A live) := by
  have hown : ∀ k : Kernel φ, Own A live k ∧ True → Own A live (stateOf (userStore s va b k)) := by
    intro k ⟨hO, _⟩
    rw [userStore_eq]
    split
    · rename_i hw
      rw [Bool.and_eq_true, Bool.and_eq_true] at hw
      have hG : Guard A (now live k) [] (k.setPte s (pageIndex va)
          { k.pte s (pageIndex va) with accessed := true, dirty := true }) :=
        guard_rewrite (pageIndex_lt hva) (own_guard hO) hw.1.1 hw.1.1 rfl Or.inl Or.inl
      exact guard_own hG
    · exact hO
  have hplace : ∀ n, Keeps (fun k : Kernel φ => (∀ t, Arranged (k.spaces t)) ∧ k.nspaces = n)
      (userStore s va b) := fun n =>
    .bind (keeps_leafEntry s va) fun _ => .ite (fun _ =>
      .bind (placement_setLeafEntry (secure_placement n) _ _ _) fun _ =>
        Keeping.bind (Keeping.modify fun _ => id) fun _ => Keeping.pure _) fun _ => Keeping.pure _
  exact .pre (secure_of_own (triple_states hown) hplace) (fun _ h => ⟨h, trivial⟩)

theorem spawn_secure :
    Triple (Secure A live) (newSpace A) (fun c => Secure A fun t => t = c ∨ live t)
      (SecureStops A live) := by
  refine .intro fun k hk => ?_
  rw [newSpace_eq]
  cases hal : A.alloc k.frames with
  | none => exact .error (.inr hk)
  | some pf =>
    obtain ⟨p, fr⟩ := pf
    have hO := own_addSpace hal hk.own fun h => Nat.lt_irrefl _ (hk.within _ h)
    refine .ok ⟨?_, fun t => ?_, fun t ht => ?_⟩
    · have hl : (fun t => t = k.nspaces ∨ live t) = fun t => live t ∨ t = k.nspaces :=
        funext fun t => propext Or.comm
      rw [hl]
      exact hO
    · by_cases ht : t = k.nspaces
      · rw [ht, show (k.addSpace fr p { pml4 := p }).spaces k.nspaces = { pml4 := p } from
          update_self ..]
        exact fresh_arranged ⟨rfl, rfl, rfl, rfl⟩
      · rw [show (k.addSpace fr p { pml4 := p }).spaces t = k.spaces t from update_of_ne ht ..]
        exact hk.arranged t
    · rcases ht with rfl | ht
      · exact Nat.lt_succ_self _
      · exact Nat.lt_succ_of_lt (hk.within t ht)

theorem placed_sound {r : Region} (h : r.Placed) : r.Sound :=
  ⟨h.start_mod, Nat.le_of_lt h.nonempty, h.high⟩

theorem dropSpace_elsewhere (hP : Elsewhere s P) :
    Triple P (dropSpace A s) (fun _ k => P k ∧ k.spaces s = {}) (fun _ _ => True) := by
  have hset : ∀ (k : Kernel φ) (sp : AddressSpace), P k → P (k.setSpace s sp) := fun k sp =>
    elsewhere_setSpace hP sp
  have hrest : ∀ {k k' : Kernel φ}, k'.spaces = k.spaces → k'.nspaces = k.nspaces → P k → P k' :=
    placement_rest (elsewhere_placement hP)
  have hpages : ∀ rs, Keeps P (releaseRegions A s rs) := by
    intro rs
    induction rs with
    | nil => exact Keeping.pure _
    | cons r rs ih =>
      exact .bind (keeps_releasePages (P := P) .self (fun _ _ => hrest rfl rfl)
        (fun _ _ _ _ => hrest rfl rfl) (fun _ _ _ h _ =>
          placement_setPte (elsewhere_placement hP) h) fun _ _ => hrest rfl rfl) fun _ =>
          Keeping.bind ih fun _ => .pure _
  have hk : ∀ {α : Type} {x : KM φ α}, Keeps P x → Keeping P x (fun _ _ => True) :=
    fun h => .stop h fun _ _ _ => trivial
  refine .bind (hk (keeps_space s)) fun sp => .bind
    (hk (keeps_modifySpace fun k => hset k _)) fun _ => .bind (hk (hpages _)) fun fs => ?_
  refine .bind (hk (keeps_reapShared (P := P) .self (fun _ _ => hrest rfl rfl) (fun _ _ _ _ => hrest rfl rfl)
    (fun _ _ => hrest rfl rfl) _)) fun _ => ?_
  refine .bind (hk (keeps_unchargePages (P := P) (fun _ _ _ _ => hrest rfl rfl) (fun k _ => hset k _) _))
    fun _ => .bind (hk (keeps_unchargeSwap (P := P) (fun _ _ _ _ => hrest rfl rfl) _)) fun _ => ?_
  refine .bind (hk (keeps_space s)) fun _ => .bind (hk (keeps_freeTables (P := P) .self
    (fun _ _ _ _ => hrest rfl rfl) _)) fun _ => .bind (hk (keeps_freeFrame (P := P) .self
      (fun _ _ _ _ => hrest rfl rfl) _)) fun _ => ?_
  exact .modify fun k h => ⟨hset k _ h, setSpace_self ..⟩

/-- Dropping a space, or an unfinished child. -/
theorem drop_secure {W : Watch} (hs : W.live s) (hex : ∀ t i, ¬ W.exempt t i)
    (hreg : ∀ t, t ≠ s → W.regs t = W.real t) (hsound : ∀ r ∈ W.real s, r.Sound)
    (hin : ∀ t, W.live t → t < W.count) :
    Triple (fun k => Guard A W [] k ∧ ∀ t, Arranged (k.spaces t)) (dropSpace A s)
      (fun _ => Secure A fun t => W.live t ∧ t ≠ s) Panics := by
  refine .mono (.and (dropSpace_own hs hex hreg hsound)
    (dropSpace_elsewhere (elsewhere_arranged s W.count)))
    (fun k h => ⟨h.1, fun t _ => h.2 t, h.1.2.2⟩) (fun _ k h => ?_) fun _ _ h => h.1
  obtain ⟨hO, ⟨ha, hn⟩, hgone⟩ := h
  refine ⟨hO, fun t => ?_, fun t ht => by rw [hn]; exact hin t ht.1⟩
  by_cases hts : t = s
  · rw [hts, hgone]
    exact fresh_arranged ⟨rfl, rfl, rfl, rfl⟩
  · exact ha t hts

theorem exit_secure (hs : live s) :
    Triple (Secure A live) (dropSpace A s) (fun _ => Secure A fun t => live t ∧ t ≠ s)
      Panics := by
  refine .intro fun k hk => ?_
  exact (drop_secure hs (fun _ _ => id) (fun _ _ => rfl)
    (fun r hr => placed_sound ((hk.arranged s).regions.placed r hr)) hk.within).ends
      ⟨own_guard hk.own, hk.arranged⟩

/-- While a fork runs, the child's pages lie in the parent's regions. -/
def Watch.forking (live : Nat → Prop) (k : Kernel φ) (s child : Nat) : Watch :=
  { Watch.now live k with
    regs := update (fun t => (k.spaces t).regions) child (k.spaces s).regions }

theorem forking_regs_child (live : Nat → Prop) (k : Kernel φ) (s child : Nat) :
    (forking live k s child).regs child = (k.spaces s).regions :=
  update_self child _ fun t => (k.spaces t).regions

theorem forking_regs_ne (live : Nat → Prop) (k : Kernel φ) (s : Nat)
    (h : t ≠ child) : (forking live k s child).regs t = (k.spaces t).regions :=
  update_of_ne h _ fun t => (k.spaces t).regions

theorem forking_guard (h : Own A live k) (hc : (k.spaces child).regions = []) :
    Guard A (forking live k s child) [] k := by
  refine ⟨guarded_recover h (fun t i _ hD => ⟨hD, fun r hr hcov => ?_⟩) fun t r hr o ho => ?_,
    fun _ => rfl, rfl⟩
  · by_cases ht : t = child
    · rw [ht, hc] at hr
      cases hr
    · exact ⟨r, by rw [forking_regs_ne _ _ _ ht]; exact hr, hcov, rfl⟩
  · by_cases ht : t = child
    · rw [ht, forking_regs_child] at hr
      exact h.named s r hr o ho
    · rw [forking_regs_ne _ _ _ ht] at hr
      exact h.named t r hr o ho

/-- The child takes over the regions and cursors. -/
theorem forked_secure {k1 : Kernel φ} {sp : AddressSpace}
    (h : Guard A (forking live k1 s child) [] k') (hn : ∀ t, live t → t < k1.nspaces)
    (ha : ∀ t, Arranged (k'.spaces t)) (hp : sp.pt = (k'.spaces child).pt)
    (ht : sp.tableFrames = (k'.spaces child).tableFrames)
    (hpl : sp.placement = (k'.spaces s).placement) : Secure A live (k'.setSpace child sp) := by
  have hregs : sp.regions = (k1.spaces s).regions := (congrArg Prod.fst hpl).trans (h.2.1 s)
  have hreal : (fun t => ((k'.setSpace child sp).spaces t).regions) =
      (forking live k1 s child).regs := by
    funext t
    by_cases ht : t = child
    · rw [ht, setSpace_self, forking_regs_child, hregs]
    · rw [setSpace_ne k' _ ht, forking_regs_ne _ _ _ ht]
      exact h.2.1 t
  refine ⟨?_, fun t => ?_, fun t ht => ?_⟩
  · unfold Own
    rw [hreal, tally_setSpace k' child hp ht]
    exact h.1
  · by_cases ht : t = child
    · rw [ht, setSpace_self]
      exact arranged_of_placement hpl (ha s)
    · rw [setSpace_ne k' _ ht]
      exact ha t
  · show t < k'.nspaces
    rw [h.2.2]
    exact hn t ht

theorem fork_secure (hs : live s) :
    Triple (Secure A live) (fork A s) (fun c => Secure A fun t => t = c ∨ live t)
      (SecureStops A live) := by
  have hnew : Triple (Secure A live) (newSpace A) (fun c k => Secure A (fun t => t = c ∨ live t) k ∧
      c ≠ s ∧ (k.spaces c).regions = [] ∧ ¬ live c) (SecureStops A live) := by
    refine .intro fun k hk => ?_
    have hspawn := spawn_secure.ends hk
    rw [newSpace_eq] at hspawn ⊢
    cases hal : A.alloc k.frames with
    | none => exact .error (.inr hk)
    | some pf =>
      rw [hal] at hspawn
      cases hspawn with
      | ok hsec =>
      have hfresh : ¬ live k.nspaces := fun h => Nat.lt_irrefl _ (hk.within _ h)
      refine .ok ⟨hsec, fun h => hfresh (h ▸ hs), ?_, hfresh⟩
      rw [show (k.addSpace pf.2 pf.1 { pml4 := pf.1 }).spaces k.nspaces = { pml4 := pf.1 } from
        update_self ..]
  refine .bind hnew fun c => ?_
  refine .bind (R := fun sp k => (Secure A (fun t => t = c ∨ live t) k ∧ c ≠ s ∧
    (k.spaces c).regions = [] ∧ ¬ live c) ∧ sp = k.spaces s)
    (.total fun k hk => ⟨_, k, rfl, hk, rfl⟩) fun sp => .intro fun k hk => ?_
  obtain ⟨⟨hk, hcs, hcr, hnl⟩, rfl⟩ := hk
  let W := forking (fun t => t = c ∨ live t) k s c
  have hregs : W.regs s = (k.spaces s).regions := forking_regs_ne _ _ _ (Ne.symm hcs)
  have hrun : Triple (fun k' => Guard A W [] k' ∧
        ((∀ t, Arranged (k'.spaces t)) ∧ k'.nspaces = k.nspaces))
      (forkRegions A s c (k.spaces s).regions)
      (fun _ k' => Guard A W [] k' ∧ ∀ t, Arranged (k'.spaces t))
      (fun e k' => Panicked e ∨ Guard A W [] k' ∧ ∀ t, Arranged (k'.spaces t)) := by
    refine .mono (.and (forkRegions_guard
      (fun r hr => ((hk.arranged s).regions.placed r hr).high)
      (by rw [hregs]; exact forking_regs_child ..) (hk.within s (.inr hs))
      (hk.within c (Or.inl rfl)) (fun _ _ => id) (k.spaces s).regions
      (fun r hr => by rw [hregs]; exact hr) (by rw [hregs]; exact (hk.arranged s).regions))
      (placement_forkRegions (secure_placement k.nspaces) c _))
      (fun _ => id) (fun _ _ h => ⟨h.1, h.2.1⟩) fun e k' h => h.1.imp id fun hG => ⟨hG, h.2.1⟩
  have hdrop := drop_secure (A := A) (Or.inl rfl) (fun _ _ => id)
    (fun t ht => forking_regs_ne _ _ _ ht)
    (fun r hr => by rw [show W.real c = [] from hcr] at hr; cases hr) hk.within
  have hlive : (fun t => W.live t ∧ t ≠ c) = live := by
    funext t
    exact propext ⟨fun h => h.1.resolve_left h.2, fun h => ⟨Or.inr h, fun he => hnl (he ▸ h)⟩⟩
  rw [hlive] at hdrop
  refine (triple_rescue hrun hdrop (.intro fun k1 ⟨hG, ha⟩ => ?_)).ends
    ⟨forking_guard hk.own hcr, hk.arranged, rfl⟩
  refine .ok (forked_secure hG hk.within ha rfl rfl ?_)
  rw [show (k.spaces s).regions = (k1.spaces s).regions from (hG.2.1 s).symm]
  rfl

/-- What an act needs: a call meets regions it fits, unmaps no kernel page, and
`protect` grants the right to write only to pages nobody else maps. -/
def Act.Fits (A : FrameAllocator φ) (m : Procs φ) : Act → Prop
  | .call s c => c.Fits (m.kernel.spaces s) ∧ c.Isolates A s m.kernel
  | _ => True

/-- What a triple says about the machine after the act. -/
theorem after_secure {α : Type} {m m' : Procs φ} {x : KM φ α} {C : Kernel φ → Prop}
    {after : α → List Nat} (hx : Triple C x (fun a => Secure A (· ∈ after a))
      (SecureStops A (· ∈ m.live))) (hc : C m.kernel) (h : m.after after (x m.kernel) = some m') :
    Secure A (· ∈ m'.live) m'.kernel := by
  cases hr : x m.kernel with
  | ok a k =>
    rw [hr] at h
    cases h
    exact hx.ok hc hr
  | error e k =>
    rw [hr] at h
    cases e with
    | errno n =>
      cases h
      rcases hx.error hc hr with hp | hs
      · exact absurd rfl (hp n)
      · exact hs
    | overflow => cases h
    | assertion => cases h

theorem step_secure (a : Act) {m m' : Procs φ} (h : Secure A (· ∈ m.live) m.kernel)
    (hf : a.Fits A m) (hs : m.step A a = some m') : Secure A (· ∈ m'.live) m'.kernel := by
  unfold Procs.step at hs
  split at hs
  swap
  · cases hs
    exact h
  rename_i hp
  cases a with
  | call s c => exact after_secure (call_secure c) ⟨h, of_decide_eq_true hp, hf⟩ hs
  | touch s addr write => exact after_secure (touch_secure addr write) ⟨h, of_decide_eq_true hp⟩ hs
  | store s va b => exact after_secure (store_secure b (of_decide_eq_true hp).2) h hs
  | spawn =>
    exact after_secure (.mono spawn_secure (fun _ => id) (fun c k h => by
      simpa only [List.mem_cons] using h) fun _ _ => id) h hs
  | fork s =>
    exact after_secure (.mono (fork_secure (of_decide_eq_true hp)) (fun _ => id)
      (fun c k h => by simpa only [List.mem_cons] using h) fun _ _ => id) h hs
  | exit s =>
    exact after_secure (.mono (exit_secure (of_decide_eq_true hp)) (fun _ => id)
      (fun _ k h => by simpa only [List.mem_filter, decide_eq_true_eq] using h)
      fun _ _ h => .inl h) h hs

/-- The frame a process may write to is the frame of no private page of another. -/
theorem frame_apart (h : Secure A live k) {i j : Nat} {r : Region} (hts : t ≠ s)
    (hi : i < kernelHalf) (hp : (k.pte s i).present = true) (hw : (k.pte s i).writable = true)
    (hj : j < kernelHalf) (hpj : (k.pte t j).present = true) (hr : r ∈ (k.spaces t).regions)
    (hcov : r.Covers j) (hsh : r.shared = none) : (k.pte t j).addr ≠ (k.pte s i).addr := by
  intro hsame
  have hpage : ∀ t i, i < kernelHalf → (k.pte t i).present = true →
      ∃ r ∈ (k.spaces t).regions, r.Covers i ∧ EntryOk (k.tally A) r.shared t i (k.pte t i) := by
    intro t i hi hp
    have hok := (h.own.page t i hi id).1
    rw [tally_pt k t hi] at hok
    exact hok hp
  obtain ⟨q, hq, hqj, hokq⟩ := hpage t j hj hpj
  rw [covers_unique (h.arranged t).regions.apart hq hr hqj hcov, hsh] at hokq
  obtain ⟨q', -, -, hok⟩ := hpage s i hi hp
  cases hq' : q'.shared with
  | none =>
    rw [hq'] at hok
    have hmap : (k.tally A).Maps t j (k.pte s i).addr := by
      refine ⟨hj, ?_, ?_⟩
      · rw [tally_pt k t hj]
        exact hpj
      · rw [tally_pt k t hj]
        exact hsame
    exact hts (hok.2 hw t j hmap).1
  | some o =>
    rw [hq'] at hok
    obtain ⟨key, hkey⟩ := hok.1
    rw [← hsame] at hkey
    exact hokq.1 ⟨o, key, hkey⟩

/-- What a private byte depends on. -/
theorem privateByte_congr (hsp : (k'.spaces t).regions = (k.spaces t).regions)
    (hpte : k'.pte t (pageIndex va) = k.pte t (pageIndex va)) (hswap : k'.swap = k.swap)
    (hfiles : k'.files = k.files)
    (hmem : ∀ r ∈ (k.spaces t).regions, r.shared = none → r.start ≤ alignDown va →
      alignDown va < r.end → (k.pte t (pageIndex va)).present = true →
      k'.mem (k.pte t (pageIndex va)).addr = k.mem (k.pte t (pageIndex va)).addr) :
    k'.privateByte t va = k.privateByte t va := by
  have hdemand : ∀ r, demandByte k' r va = demandByte k r va := by
    intro r
    unfold demandByte
    rw [hfiles]
  unfold privateByte
  rw [hsp]
  cases hfind : findRegion (k.spaces t).regions (alignDown va) with
  | none => rfl
  | some r =>
    dsimp only
    cases hsh : r.shared with
    | some o => rfl
    | none =>
      have hin := findRegion_contains hfind
      have hr : r ∈ (k.spaces t).regions := List.mem_of_find?_eq_some hfind
      rw [hpte, hdemand, hswap]
      by_cases hpj : (k.pte t (pageIndex va)).present = true
      · rw [if_pos hpj, if_pos hpj, hmem r hr hsh hin.1 hin.2 hpj]
      · rw [if_neg hpj, if_neg hpj]

theorem store_invisible (h : Secure A live k) (b : UInt8) (hva : va < userEnd)
    (hts : t ≠ s) (va' : Nat) :
    (stateOf (userStore s va b k)).privateByte t va' = k.privateByte t va' := by
  rw [userStore_eq]
  split
  swap
  · rfl
  rename_i hok
  rw [Bool.and_eq_true, Bool.and_eq_true] at hok
  have hi := pageIndex_lt hva
  generalize pageIndex va = i at hok hi
  have hspace : (k.stored s i (va % pageSize) b).spaces t = k.spaces t := by
    unfold stored setPte
    rw [if_pos hi]
    exact setSpace_ne k _ hts
  have hkpt : (k.stored s i (va % pageSize) b).kpt = k.kpt := by
    unfold stored setPte
    rw [if_pos hi]
    rfl
  have hrest := setPte_rest k s i { k.pte s i with accessed := true, dirty := true }
  refine privateByte_congr (by rw [stateOf, hspace]) ?_ hrest.2.1 hrest.2.2
    fun r hr hsh hstart hend hpj => ?_
  · unfold pte
    rw [stateOf, hspace, hkpt]
  have hlt := Nat.lt_of_lt_of_le hend ((h.arranged t).regions.placed r hr).high
  have hj := pageIndex_lt hlt
  have hcov := covers_page (alignDown_mod va') hlt ⟨hstart, hend⟩
  rw [pageIndex_alignDown] at hj hcov
  exact update_of_ne (frame_apart h hts hi hok.1.1 hok.1.2 hj hpj hr hcov hsh) ..

/-- **In a run from boot whose acts all fit, a store by one process never changes
a byte of private memory of another.** -/
theorem run_store_isolated (A : FrameAllocator φ) (k : Kernel φ) (hboot : k.Booted) (acts : List Act)
    (hfit : Throughout (Procs.step A) (fun m a => a.Fits A m) acts ⟨k, []⟩) (n : Nat) (m m' : Procs φ)
    (hrun : runs (Procs.step A) (acts.take n) ⟨k, []⟩ = some m) (s va : Nat) (b : UInt8)
    (hstore : m.step A (.store s va b) = some m') (t : Nat) (ht : t ≠ s) (va' : Nat) :
    m'.kernel.privateByte t va' = m.kernel.privateByte t va' := by
  have hstart : Secure A (· ∈ ([] : List Nat)) k := booted_secure hboot fun _ h => by cases h
  have hinv := throughout_invariant
    (fun m a m' h hf hs => step_secure a h hf hs) acts _ hstart hfit n m hrun
  unfold Procs.step at hstore
  split at hstore
  · rename_i hp
    have hva := (of_decide_eq_true hp).2
    have hinvis := store_invisible hinv b hva ht va'
    rw [← hinvis]
    change m.after (fun _ => m.live) (userStore s va b m.kernel) = some m' at hstore
    rw [userStore_eq] at hstore ⊢
    split at hstore
    · cases hstore
      rename_i hw
      rw [if_pos hw]
      rfl
    · cases hstore
      rename_i hw
      rw [if_neg hw]
      rfl
  · cases hstore
    rfl

theorem bootKernel_booted (n : Nat) : (bootKernel n).Booted :=
  ⟨fun _ => rfl, fun _ => rfl, fun _ _ h => by cases h⟩

/-- A read-only page is present at the fork; the child then asks for the right
to write to it. -/
def upgradeRun : List Act :=
  [.spawn, .call 1 (.mapRegion 0x10000 0x11000 { read := true } false),
   .call 1 (.fault 0x10000 false false), .fork 1,
   .call 2 (.protect 0x10000 0x1000 { read := true, write := true })]

/-- The child's store shows up in the parent's private page. -/
theorem upgradeRun_leaks : (bootKernel 16).Booted ∧
    ∃ m m', runs (Procs.step listAllocator) upgradeRun ⟨bootKernel 16, []⟩ = some m ∧
      m.step listAllocator (.store 2 0x10000 7) = some m' ∧
      m.kernel.privateByte 1 0x10000 = some 0 ∧ m'.kernel.privateByte 1 0x10000 = some 7 := by
  have hobs : (runs (Procs.step listAllocator) upgradeRun ⟨bootKernel 16, []⟩).bind (fun m =>
      (m.step listAllocator (.store 2 0x10000 7)).map fun m' =>
        (m.kernel.privateByte 1 0x10000, m'.kernel.privateByte 1 0x10000)) =
      some (some 0, some 7) := by decide +kernel
  obtain ⟨m, hm, hval⟩ := Option.bind_eq_some_iff.mp hobs
  obtain ⟨m', hm', hval⟩ := Option.map_eq_some_iff.mp hval
  rw [Prod.mk.injEq] at hval
  exact ⟨bootKernel_booted 16, m, m', hm, hm', hval.1, hval.2⟩

/-- A writable page is shared copy-on-write; the child faults and stores. -/
def copyRun : List Act :=
  [.spawn, .call 1 (.mapRegion 0x10000 0x11000 { read := true, write := true } false),
   .call 1 (.fault 0x10000 true false), .store 1 0x10000 5, .fork 1,
   .call 2 (.fault 0x10000 true false)]

theorem run_store_isolated_copy : ∃ m m', runs (Procs.step listAllocator) (copyRun.take 6)
      ⟨bootKernel 16, []⟩ = some m ∧ m.step listAllocator (.store 2 0x10000 7) = some m' ∧
      m.kernel.privateByte 1 0x10000 = some 5 ∧ m'.kernel.privateByte 1 0x10000 = some 5 := by
  have hobs : (runs (Procs.step listAllocator) (copyRun.take 6) ⟨bootKernel 16, []⟩).bind (fun m =>
      (m.step listAllocator (.store 2 0x10000 7)).map fun _ => m.kernel.privateByte 1 0x10000) =
      some (some 5) := by decide +kernel
  obtain ⟨m, hm, hval⟩ := Option.bind_eq_some_iff.mp hobs
  obtain ⟨m', hm', hval⟩ := Option.map_eq_some_iff.mp hval
  have hfit : Throughout (Procs.step listAllocator) (fun m a => a.Fits listAllocator m) copyRun
      ⟨bootKernel 16, []⟩ :=
    ⟨trivial, fun _ _ => ⟨⟨trivial, trivial⟩, fun _ _ => ⟨⟨trivial, trivial⟩, fun _ _ =>
      ⟨trivial, fun _ _ => ⟨trivial, fun _ _ => ⟨⟨trivial, trivial⟩, fun _ _ => trivial⟩⟩⟩⟩⟩⟩
  have hiso := run_store_isolated listAllocator (bootKernel 16) (bootKernel_booted 16) copyRun hfit 6
    m m' hm 2 0x10000 7 hm' 1 (by decide) 0x10000
  exact ⟨m, m', hm, hm', hval, hiso.trans hval⟩

end Fastros.Mm
