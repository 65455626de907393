import Fastros.Lib.Linked
import Fastros.Mm.Fault

/-!
# Who holds a frame

A user frame is held by the page-table entries that map it and by the shared
object that lists it. The reference count is at least the number of holders plus
the references a running call still carries (`pend`). Free frames have no
holder, page-table frames are neither free nor held. Each present page lies in a
region: in a private one its frame is in no object, and if it is writable it is
the frame's only mapping; in a shared one the frame belongs to the object.

The pages of `D` are exempt: a call is about to take them out of the table.
-/

namespace Fastros.Mm

open List
open Function (update update_self update_of_ne)
open Lib.Linked (mem_update_cons)

/-- The table frames of a space. -/
def AddressSpace.tableFrames (sp : AddressSpace) : List PhysAddr := sp.tables.map Prod.snd ++ [sp.pml4]

/-- The part of the kernel's state that decides who holds a frame. -/
structure Tally where
  isFree : PhysAddr → Prop
  refs : PhysAddr → Nat
  pt : Nat → Nat → Pte
  tables : Nat → List PhysAddr
  objs : Nat → List (Nat × PhysAddr)
  nspaces : Nat
  nobjs : Nat
  exported : Nat → Prop

inductive Holder where
  | page (s i : Nat)
  | object (o key : Nat)
  deriving DecidableEq

namespace Tally

/-- User page `i` of space `s` maps the frame. -/
def Maps (T : Tally) (s i : Nat) (f : PhysAddr) : Prop :=
  i < kernelHalf ∧ (T.pt s i).present = true ∧ (T.pt s i).addr = f

def Holds (T : Tally) (f : PhysAddr) : Holder → Prop
  | .page s i => T.Maps s i f
  | .object o key => (key, f) ∈ T.objs o

def InObject (T : Tally) (f : PhysAddr) : Prop := ∃ o key, (key, f) ∈ T.objs o

def setPt (T : Tally) (s i : Nat) (e : Pte) : Tally :=
  { T with pt := update T.pt s (update (T.pt s) i e) }

abbrev setObj (T : Tally) (o : Nat) (es : List (Nat × PhysAddr)) : Tally :=
  { T with objs := update T.objs o es }

end Tally

def Region.Covers (r : Region) (i : Nat) : Prop := r.start ≤ i * pageSize ∧ i * pageSize < r.end

/-- What a present entry of a region of that kind must satisfy. -/
def EntryOk (T : Tally) (shared : Option Nat) (s i : Nat) (e : Pte) : Prop :=
  match shared with
  | none => ¬ T.InObject e.addr ∧
      (e.writable = true → ∀ t j, T.Maps t j e.addr → t = s ∧ j = i)
  | some o => (∃ key, (key, e.addr) ∈ T.objs o) ∧ e.cow = false

/-- A present page is in order in its region, a swapped one is private. -/
def PageOk (rs : List Region) (T : Tally) (s i : Nat) (e : Pte) : Prop :=
  (e.present = true → ∃ r ∈ rs, r.Covers i ∧ EntryOk T r.shared s i e) ∧
    (e.present = false → e.swapped = true → ∃ r ∈ rs, r.Covers i ∧ r.shared = none)

/-- The frame has a use other than as a page table. -/
def Tally.Used (T : Tally) (pend : List PhysAddr) (f : PhysAddr) : Prop :=
  T.isFree f ∨ f ∈ pend ∨ ∃ h, T.Holds f h

structure Guarded (live : Nat → Prop) (regs : Nat → List Region) (D : Nat → Nat → Prop)
    (pend : List PhysAddr) (T : Tally) : Prop where
  refs : ∀ f (l : List Holder), l.Nodup → (∀ h ∈ l, T.Holds f h) → l.length + pend.count f ≤ T.refs f
  free : ∀ f, T.isFree f → f ∉ pend ∧ ∀ h, ¬ T.Holds f h
  keys : ∀ o, ((T.objs o).map Prod.fst).Nodup
  tables_nodup : ∀ s, live s → (T.tables s).Nodup
  tables_apart : ∀ s t, live s → live t → s ≠ t → ∀ p ∈ T.tables s, p ∉ T.tables t
  tables_unused : ∀ s, live s → ∀ p ∈ T.tables s, ¬ T.Used pend p
  page : ∀ s i, i < kernelHalf → ¬ D s i → PageOk (regs s) T s i (T.pt s i)
  room : ∀ s i, i < kernelHalf → (T.pt s i).present = true → s < T.nspaces
  fresh : ∀ o, T.nobjs ≤ o → T.objs o = []
  named : ∀ s, ∀ r ∈ regs s, ∀ o, r.shared = some o → o < T.nobjs
  exported : ∀ o, T.exported o → o < T.nobjs

section

variable {live : Nat → Prop} {regs : Nat → List Region} {D : Nat → Nat → Prop}
  {pend pend' : List PhysAddr} {T : Tally} {s i : Nat} {f : PhysAddr}
variable {key c : Nat}

theorem setPt_pt_same (T : Tally) (s i : Nat) (e : Pte) : (T.setPt s i e).pt s i = e := by
  unfold Tally.setPt
  dsimp only
  rw [update_self, update_self]

variable {D' : Nat → Nat → Prop} {j n t : Nat} {regs' : Nat → List Region}

theorem setPt_pt_ne (T : Tally) (e : Pte) (h : ¬ (t = s ∧ j = i)) :
    (T.setPt s i e).pt t j = T.pt t j := by
  unfold Tally.setPt
  dsimp only
  by_cases ht : t = s
  · subst ht
    have hj : j ≠ i := fun hj => h ⟨rfl, hj⟩
    rw [update_self, update_of_ne hj]
  · rw [update_of_ne ht]

variable {e : Pte} {h : Holder} {isFree : PhysAddr → Prop} {o : Nat} {g : PhysAddr}

theorem maps_setPt_same :
    (T.setPt s i e).Maps s i f ↔ i < kernelHalf ∧ e.present = true ∧ e.addr = f := by
  unfold Tally.Maps
  rw [setPt_pt_same]

theorem maps_setPt_ne (h : ¬ (t = s ∧ j = i)) : (T.setPt s i e).Maps t j f ↔ T.Maps t j f := by
  unfold Tally.Maps
  rw [setPt_pt_ne T e h]

theorem setPt_holds (T : Tally) (s i : Nat) (e : Pte) (hh : h ≠ .page s i) :
    (T.setPt s i e).Holds f h ↔ T.Holds f h := by
  cases h with
  | object o key => exact Iff.rfl
  | page t j =>
    exact maps_setPt_ne fun h => hh (by rw [h.1, h.2])

/-- One if the entry maps the frame. -/
def Pte.share (e : Pte) (f : PhysAddr) : Nat := if e.present = true ∧ e.addr = f then 1 else 0

theorem share_pos (h : e.present = true ∧ e.addr = f) : e.share f = 1 := if_pos h

theorem share_neg (h : ¬ (e.present = true ∧ e.addr = f)) : e.share f = 0 := if_neg h

/-- References carried by the call and by the entry move into each other. -/
theorem refs_setPt (hi : i < kernelHalf) (hG : Guarded live regs D pend T)
    (hc : ∀ f, pend'.count f + e.share f ≤ pend.count f + (T.pt s i).share f)
    (l : List Holder) (hl : l.Nodup) (hh : ∀ h ∈ l, (T.setPt s i e).Holds f h) :
    l.length + pend'.count f ≤ T.refs f := by
  have hcf := hc f
  have hold : ∀ h ∈ l.erase (.page s i), T.Holds f h := fun h hm =>
    (setPt_holds T s i e (hl.mem_erase_iff.mp hm).1).mp (hh h (mem_of_mem_erase hm))
  have : l.length ≤ (l.erase (.page s i)).length + e.share f := by
    by_cases hm : Holder.page s i ∈ l
    · have hmap := hh _ hm
      rw [length_erase_of_mem hm, share_pos (maps_setPt_same.mp hmap).2]
      omega
    · rw [erase_of_not_mem hm]
      omega
  by_cases hm : (T.pt s i).present = true ∧ (T.pt s i).addr = f
  · -- the entry was a holder before, so the old list is one longer
    have hnd : (Holder.page s i :: l.erase (.page s i)).Nodup :=
      nodup_cons.mpr ⟨fun h => (hl.mem_erase_iff.mp h).1 rfl, hl.erase _⟩
    have hr := hG.refs f _ hnd fun h hh => by
      rcases mem_cons.mp hh with rfl | hh
      · exact ⟨hi, hm⟩
      · exact hold h hh
    rw [share_pos hm] at hcf
    rw [length_cons] at hr
    omega
  · have hr := hG.refs f _ (hl.erase _) hold
    rw [share_neg hm] at hcf
    omega

theorem used_setPt (hi : i < kernelHalf)
    (hc : ∀ f, pend'.count f + e.share f ≤ pend.count f + (T.pt s i).share f)
    (hu : (T.setPt s i e).Used pend' f) : T.Used pend f := by
  have hback : 0 < pend'.count f + e.share f → f ∈ pend ∨ ∃ h, T.Holds f h := by
    intro hpos
    have hcf := hc f
    by_cases hm : (T.pt s i).present = true ∧ (T.pt s i).addr = f
    · exact .inr ⟨.page s i, hi, hm⟩
    · rw [share_neg hm] at hcf
      exact .inl (count_pos_iff.mp (by omega))
  rcases hu with hf | hp | ⟨h, hh⟩
  · exact .inl hf
  · exact .inr (hback (Nat.add_pos_left (count_pos_iff.mpr hp) _))
  by_cases he : h = .page s i
  · subst he
    refine Or.inr (hback (Nat.add_pos_right _ ?_))
    rw [share_pos (maps_setPt_same.mp hh).2]
    exact Nat.one_pos
  · exact .inr (.inr ⟨h, (setPt_holds T s i e he).mp hh⟩)

/-- No private page maps the frame and may write to it. -/
def Tally.Quiet (T : Tally) (D : Nat → Nat → Prop) (f : PhysAddr) : Prop :=
  ∀ t j, T.Maps t j f → ¬ D t j → (T.pt t j).writable = true → T.InObject f

/-- An entry can be stored if the references balance, the page is in order
afterwards and no private page loses its frame. -/
theorem guarded_setPt (hi : i < kernelHalf) (hG : Guarded live regs D pend T)
    (hc : ∀ f, pend'.count f + e.share f ≤ pend.count f + (T.pt s i).share f)
    (hp : ¬ D s i → PageOk (regs s) (T.setPt s i e) s i e)
    (hq : e.present = true → T.Maps s i e.addr ∨ T.Quiet D e.addr)
    (hr : e.present = true → s < T.nspaces) :
    Guarded live regs D pend' (T.setPt s i e) where
  refs f l hl hh := refs_setPt hi hG hc l hl hh
  free f hf := by
    obtain ⟨h1, h2⟩ := hG.free f hf
    -- a free frame is neither carried nor held, so it gets neither here
    have hcf := hc f
    have h0 : (T.pt s i).share f = 0 := share_neg fun hm => h2 (.page s i) ⟨hi, hm⟩
    rw [count_eq_zero_of_not_mem h1, h0] at hcf
    refine ⟨fun h => ?_, fun h hh => ?_⟩
    · have := count_pos_iff.mpr h
      omega
    by_cases he : h = .page s i
    · subst he
      rw [share_pos (maps_setPt_same.mp hh).2] at hcf
      omega
    · exact h2 h ((setPt_holds T s i e he).mp hh)
  keys := hG.keys
  tables_nodup := hG.tables_nodup
  tables_apart := hG.tables_apart
  tables_unused t ht p hp hu := hG.tables_unused t ht p hp (used_setPt hi hc hu)
  page t j hj hD := by
    by_cases h : t = s ∧ j = i
    · obtain ⟨rfl, rfl⟩ := h
      rw [setPt_pt_same]
      exact hp hD
    rw [setPt_pt_ne T e h]
    have hok := hG.page t j hj hD
    refine ⟨fun hpres => ?_, hok.2⟩
    obtain ⟨r, hr, hcov, he⟩ := hok.1 hpres
    refine ⟨r, hr, hcov, ?_⟩
    unfold EntryOk at he ⊢
    split at he
    · refine ⟨he.1, fun hw t' j' hm => ?_⟩
      by_cases h' : t' = s ∧ j' = i
      · obtain ⟨rfl, rfl⟩ := h'
        obtain ⟨-, hpe, hae⟩ := maps_setPt_same.mp hm
        rcases hq hpe with hold | hquiet
        · rw [hae] at hold
          exact he.2 hw t' j' hold
        · rw [hae] at hquiet
          exact absurd (hquiet t j ⟨hj, hpres, rfl⟩ hD hw) he.1
      · exact he.2 hw t' j' ((maps_setPt_ne h').mp hm)
    · exact he
  room t j hj hpres := by
    by_cases h : t = s ∧ j = i
    · obtain ⟨rfl, rfl⟩ := h
      rw [setPt_pt_same] at hpres
      exact hr hpres
    · rw [setPt_pt_ne T e h] at hpres
      exact hG.room t j hj hpres
  fresh := hG.fresh
  named := hG.named
  exported := hG.exported

section

variable (hG : Guarded live regs D pend T)
include hG

/-- A reference may be forgotten: the frame then stays allocated. -/
theorem guarded_forget (hc : ∀ f, pend'.count f ≤ pend.count f) : Guarded live regs D pend' T := by
  have hmem : ∀ f, f ∈ pend' → f ∈ pend := fun f hf =>
    count_pos_iff.mp (Nat.lt_of_lt_of_le (count_pos_iff.mpr hf) (hc f))
  refine { hG with refs := fun f l hl hh => ?_, free := fun f hf => ?_,
                   tables_unused := fun s hs p hp hu => ?_ }
  · have h := hG.refs f l hl hh
    have h' := hc f
    omega
  · exact ⟨fun h => (hG.free f hf).1 (hmem f h), (hG.free f hf).2⟩
  refine hG.tables_unused s hs p hp ?_
  rcases hu with h | h | h
  · exact .inl h
  · exact .inr (.inl (hmem p h))
  · exact .inr (.inr h)

/-- The caller carries one more reference to a frame that is held, or that was free and
is so no more. -/
theorem guarded_take
    (hf : T.isFree f ∨ ∃ h, T.Holds f h) (hfree : ∀ q, isFree q → T.isFree q ∧ q ≠ f)
    (hn : ∀ l : List Holder, l.Nodup → (∀ h ∈ l, T.Holds f h) → l.length + pend.count f < n) :
    Guarded live regs D (f :: pend) { T with isFree := isFree, refs := update T.refs f n } := by
  refine { hG with refs := fun g l hl hh => ?_, free := fun g hg => ?_,
                   tables_unused := fun s hs p hp hu => ?_ }
  · dsimp only
    by_cases hgf : g = f
    · subst hgf
      rw [count_cons_self, update_self]
      exact hn l hl hh
    · rw [count_cons_of_ne (Ne.symm hgf), update_of_ne hgf]
      exact hG.refs g l hl hh
  · obtain ⟨hg, hne⟩ := hfree g hg
    obtain ⟨h1, h2⟩ := hG.free g hg
    refine ⟨fun h => ?_, h2⟩
    rcases mem_cons.mp h with h | h
    · exact hne h
    · exact h1 h
  · refine hG.tables_unused s hs p hp ?_
    rcases hu with h | h | h
    · exact .inl (hfree p h).1
    · rcases mem_cons.mp h with rfl | h
      · exact hf.imp id Or.inr
      · exact .inr (.inl h)
    · exact .inr (.inr h)

/-- `page_get` on a frame that has a holder. -/
theorem guarded_get (hf : ∃ h, T.Holds f h) :
    Guarded live regs D (f :: pend) { T with refs := update T.refs f (T.refs f + 1) } := by
  refine guarded_take hG (.inr hf) (fun q hq => ⟨hq, fun hqf => ?_⟩)
    fun l hl hh => Nat.lt_succ_of_le (hG.refs f l hl hh)
  obtain ⟨x, hx⟩ := hf
  exact (hG.free q hq).2 x (hqf ▸ hx)

end

/-- A frame whose only reference is carried has no holder. -/
theorem guarded_unheld (hG : Guarded live regs D (f :: pend) T) (h1 : T.refs f = 1) (h : Holder) :
    ¬ T.Holds f h := by
  intro hh
  have hc := hG.refs f [h] (nodup_cons.mpr ⟨not_mem_nil, nodup_nil⟩) fun y hy => by
    rw [mem_singleton.mp hy]
    exact hh
  rw [count_cons_self, h1, length_singleton] at hc
  omega

/-- `page_put` of a reference the call carries; the last one frees the frame. -/
theorem guarded_put (hG : Guarded live regs D (f :: pend) T)
    (hfree : ∀ q, isFree q → T.isFree q ∨ q = f ∧ T.refs f = 1) :
    Guarded live regs D pend
      { T with isFree := isFree, refs := update T.refs f (T.refs f - 1) } := by
  refine { hG with refs := fun g l hl hh => ?_, free := fun g hg => ?_,
                   tables_unused := fun s hs p hp hu => ?_ }
  · have h := hG.refs g l hl hh
    dsimp only
    by_cases hgf : g = f
    · subst hgf
      rw [count_cons_self] at h
      rw [update_self]
      omega
    · rw [count_cons_of_ne (Ne.symm hgf)] at h
      rw [update_of_ne hgf]
      exact h
  · rcases hfree g hg with hg | ⟨rfl, h1⟩
    · obtain ⟨h1, h2⟩ := hG.free g hg
      exact ⟨fun h => h1 (mem_cons_of_mem _ h), h2⟩
    -- the carried reference was the only one, so nobody is left
    refine ⟨fun h => ?_, fun x hx => ?_⟩
    · have hc := hG.refs g [] nodup_nil (fun _ h => (by cases h))
      have := count_pos_iff.mpr h
      rw [count_cons_self, h1] at hc
      omega
    · exact guarded_unheld hG h1 x hx
  · refine hG.tables_unused s hs p hp ?_
    rcases hu with h | h | h
    · rcases hfree p h with h | ⟨rfl, -⟩
      · exact .inl h
      · exact .inr (.inl mem_cons_self)
    · exact .inr (.inl (mem_cons_of_mem _ h))
    · exact .inr (.inr h)

/-- `alloc_user_page`: the caller carries the only reference. -/
theorem guarded_alloc (hG : Guarded live regs D pend T)
    (hf : T.isFree f) (hfree : ∀ q, isFree q → T.isFree q ∧ q ≠ f) :
    Guarded live regs D (f :: pend) { T with isFree := isFree, refs := update T.refs f 1 } := by
  obtain ⟨hp, hh⟩ := hG.free f hf
  refine guarded_take hG (.inl hf) hfree fun l hl hl' => ?_
  have hnil : l = [] := eq_nil_iff_forall_not_mem.mpr fun x hx => hh x (hl' x hx)
  rw [count_eq_zero_of_not_mem hp, hnil]
  exact Nat.zero_lt_one

/-- A frame from the allocator becomes a page table of `s`. -/
theorem guarded_addTable (hG : Guarded live regs D pend T)
    (hf : T.isFree f) (hfree : ∀ q, isFree q → T.isFree q ∧ q ≠ f) :
    Guarded live regs D pend
      { T with isFree := isFree, tables := update T.tables s (f :: T.tables s) } := by
  obtain ⟨hp, hh⟩ := hG.free f hf
  have hnot : ∀ t, live t → f ∉ T.tables t := fun t ht hm =>
    hG.tables_unused t ht f hm (.inl hf)
  refine { hG with free := fun g hg => hG.free g (hfree g hg).1, tables_nodup := fun t ht => ?_,
                   tables_apart := fun t u ht hu htu p hpt hpu => ?_,
                   tables_unused := fun t ht p hp' hu => ?_ }
  · dsimp only
    by_cases hts : t = s
    · subst hts
      rw [update_self]
      exact nodup_cons.mpr ⟨hnot t ht, hG.tables_nodup t ht⟩
    · rw [update_of_ne hts]
      exact hG.tables_nodup t ht
  · rcases mem_update_cons.mp hpt with ⟨rfl, rfl⟩ | h1
    · rcases mem_update_cons.mp hpu with ⟨h2, -⟩ | h2
      · exact htu h2.symm
      · exact hnot u hu h2
    · rcases mem_update_cons.mp hpu with ⟨rfl, rfl⟩ | h2
      · exact hnot t ht h1
      · exact hG.tables_apart t u ht hu htu p h1 h2
  rcases mem_update_cons.mp hp' with ⟨rfl, rfl⟩ | h1
  · rcases hu with h | h | ⟨x, hx⟩
    · exact (hfree p h).2 rfl
    · exact hp h
    · exact hh x hx
  · refine hG.tables_unused t ht p h1 ?_
    rcases hu with h | h | h
    · exact .inl (hfree p h).1
    · exact .inr (.inl h)
    · exact .inr (.inr h)

theorem holds_insert (hh : h ≠ .object o key) :
    (T.setObj o ((key, f) :: T.objs o)).Holds g h ↔
      T.Holds g h := by
  cases h with
  | page t j => exact Iff.rfl
  | object o' key' =>
    show (key', g) ∈ update T.objs o ((key, f) :: T.objs o) o' ↔ (key', g) ∈ T.objs o'
    by_cases ho : o' = o
    · subst ho
      rw [update_self, mem_cons, or_iff_right]
      intro he
      rw [Prod.mk.injEq] at he
      exact hh (by rw [he.1])
    · rw [update_of_ne ho]

theorem holds_inserted (hk : key ∉ (T.objs o).map Prod.fst)
    (hh : (T.setObj o ((key, f) :: T.objs o)).Holds g
      (.object o key)) : g = f := by
  have hm : (key, g) ∈ update T.objs o ((key, f) :: T.objs o) o := hh
  rw [update_self] at hm
  rcases mem_cons.mp hm with he | hm
  · rw [Prod.mk.injEq] at he
    exact he.2
  · exact absurd (mem_map.mpr ⟨_, hm, rfl⟩) hk

/-- What an object lists may be replaced if no frame gets a use it had not. -/
theorem guarded_setObj {es : List (Nat × PhysAddr)} (hG : Guarded live regs D pend' T)
    (hin : ∀ g, (g ∈ pend ∨ ∃ h, (T.setObj o es).Holds g h) → g ∈ pend' ∨ ∃ h, T.Holds g h)
    (hrefs : ∀ g (l : List Holder), l.Nodup → (∀ h ∈ l, (T.setObj o es).Holds g h) →
      l.length + pend.count g ≤ T.refs g)
    (hkeys : (es.map Prod.fst).Nodup) (hnew : T.nobjs ≤ o → es = [])
    (hpage : ∀ t j, j < kernelHalf → ¬ D t j → (T.pt t j).present = true → ∀ r ∈ regs t,
      EntryOk T r.shared t j (T.pt t j) → EntryOk (T.setObj o es) r.shared t j (T.pt t j)) :
    Guarded live regs D pend (T.setObj o es) := by
  refine { hG with refs := hrefs, free := fun g hg => ?_, keys := fun o' => ?_,
                   tables_unused := fun t ht p hp hu =>
                     hG.tables_unused t ht p hp (hu.imp id (hin p)),
                   page := fun t j hj hD => ?_, fresh := fun o' ho' => ?_ }
  · obtain ⟨h1, h2⟩ := hG.free g hg
    have hno : ¬ (g ∈ pend' ∨ ∃ h, T.Holds g h) := not_or.mpr ⟨h1, not_exists.mpr h2⟩
    exact ⟨fun h => hno (hin g (.inl h)), fun h hh => hno (hin g (.inr ⟨h, hh⟩))⟩
  · dsimp only
    by_cases he : o' = o
    · rw [he, update_self]
      exact hkeys
    · rw [update_of_ne he]
      exact hG.keys o'
  · refine ⟨fun hp => ?_, (hG.page t j hj hD).2⟩
    obtain ⟨r, hr, hcov, he⟩ := (hG.page t j hj hD).1 hp
    exact ⟨r, hr, hcov, hpage t j hj hD hp r hr he⟩
  · dsimp only
    by_cases he : o' = o
    · rw [he, update_self]
      exact hnew (he ▸ ho')
    · rw [update_of_ne he]
      exact hG.fresh o' ho'

/-- A fresh frame becomes the page of an object under a new key. -/
theorem guarded_insert (hG : Guarded live regs D (f :: pend) T) (h1 : T.refs f = 1)
    (hk : key ∉ (T.objs o).map Prod.fst) (ho : o < T.nobjs) :
    Guarded live regs D pend (T.setObj o ((key, f) :: T.objs o)) := by
  refine guarded_setObj hG (fun g hg => ?_) (fun g l hl hh => ?_) (nodup_cons.mpr ⟨hk, hG.keys o⟩)
    (fun hn => absurd ho (Nat.not_lt.mpr hn)) fun t j hj hD hp r hr he => ?_
  · rcases hg with h | ⟨h, hh⟩
    · exact .inl (mem_cons_of_mem _ h)
    by_cases he : h = .object o key
    · subst he
      rw [holds_inserted hk hh]
      exact .inl mem_cons_self
    · exact .inr ⟨h, (holds_insert he).mp hh⟩
  · have hold : ∀ h ∈ l.erase (.object o key), T.Holds g h := fun h hm =>
      (holds_insert (hl.mem_erase_iff.mp hm).1).mp (hh h (mem_of_mem_erase hm))
    have hr := hG.refs g _ (hl.erase _) hold
    by_cases hm : Holder.object o key ∈ l
    · have hgf := holds_inserted hk (hh _ hm)
      subst hgf
      rw [count_cons_self, length_erase_of_mem hm] at hr
      omega
    · rw [erase_of_not_mem hm] at hr
      have := count_le_count_cons (a := g) (b := f) (l := pend)
      omega
  unfold EntryOk at he ⊢
  split at he
  · refine ⟨?_, he.2⟩
    rintro ⟨o', key', hm⟩
    by_cases hnew : Holder.object o' key' = .object o key
    · rw [Holder.object.injEq] at hnew
      obtain ⟨rfl, rfl⟩ := hnew
      exact guarded_unheld hG h1 (.page t j) ⟨hj, hp, holds_inserted hk hm⟩
    · exact he.1 ⟨o', key', (holds_insert hnew).mp hm⟩
  rename_i _ o' _
  refine ⟨?_, he.2⟩
  obtain ⟨key', hm⟩ := he.1
  by_cases ho' : o' = o
  · subst ho'
    exact ⟨key', by dsimp only; rw [update_self]; exact mem_cons_of_mem _ hm⟩
  · exact ⟨key', by dsimp only; rw [update_of_ne ho']; exact hm⟩

theorem holds_clear (hh : (T.setObj o []).Holds g h) :
    T.Holds g h ∧ ∀ key, h ≠ .object o key := by
  cases h with
  | page t j => exact ⟨hh, fun key he => (by cases he)⟩
  | object o' key' =>
    have hm : (key', g) ∈ update T.objs o [] o' := hh
    by_cases ho : o' = o
    · subst ho
      rw [update_self] at hm
      cases hm
    · rw [update_of_ne ho] at hm
      refine ⟨hm, fun key he => ho ?_⟩
      rw [Holder.object.injEq] at he
      exact he.1

/-- The object's holders of a frame, one for each time it lists it. -/
theorem object_holders (g : PhysAddr) (hk : ((T.objs o).map Prod.fst).Nodup) :
    ∃ l : List Holder, l.Nodup ∧ l.length = ((T.objs o).map Prod.snd).count g ∧
      ∀ h ∈ l, T.Holds g h ∧ ∃ key, h = .object o key := by
  refine ⟨((T.objs o).filter (·.2 = g)).map fun x => .object o x.1, ?_, ?_, ?_⟩
  · have hsub : (((T.objs o).filter (·.2 = g)).map Prod.fst).Nodup :=
      hk.sublist (filter_sublist.map _)
    have hinj : Function.Injective (Holder.object o) := fun a b h => by
      rw [Holder.object.injEq] at h
      exact h.2
    have hmap := hsub.map hinj
    rw [map_map] at hmap
    exact hmap
  · rw [length_map, ← countP_eq_length_filter, count_eq_countP, countP_map]
    refine countP_congr fun x _ => ?_
    simp
  · intro h hm
    obtain ⟨x, hx, rfl⟩ := mem_map.mp hm
    obtain ⟨hmem, hg⟩ := mem_filter.mp hx
    have hg := of_decide_eq_true hg
    subst hg
    exact ⟨hmem, x.1, rfl⟩

section

variable (hG : Guarded live regs D pend T)
include hG

/-- An object that no region names any more goes; its references are carried. -/
theorem guarded_clear
    (hn : ∀ t j, j < kernelHalf → (T.pt t j).present = true → ¬ D t j →
      ∀ r ∈ regs t, r.shared ≠ some o) :
    Guarded live regs D ((T.objs o).map Prod.snd ++ pend) (T.setObj o []) := by
  refine guarded_setObj hG (fun g hg => ?_) (fun g l hl hh => ?_) nodup_nil (fun _ => rfl)
    fun t j hj hD hp r hr he => ?_
  · rcases hg with h | ⟨h, hh⟩
    · rcases mem_append.mp h with h | h
      · obtain ⟨x, hx, rfl⟩ := mem_map.mp h
        exact .inr ⟨.object o x.1, hx⟩
      · exact .inl h
    · exact .inr ⟨h, (holds_clear hh).1⟩
  · obtain ⟨l', hl', hlen, hh'⟩ := object_holders g (hG.keys o)
    have hdis : ∀ h ∈ l, ∀ h' ∈ l', h ≠ h' := fun h hm h' hm' he => by
      obtain ⟨-, key, hk⟩ := hh' h' hm'
      exact (holds_clear (hh h hm)).2 key (he.trans hk)
    have hr := hG.refs g (l ++ l') (nodup_append.mpr ⟨hl, hl', hdis⟩) fun h hm => by
      rcases mem_append.mp hm with hm | hm
      · exact (holds_clear (hh h hm)).1
      · exact (hh' h hm).1
    rw [length_append, hlen] at hr
    rw [count_append]
    omega
  · have hno := hn t j hj hp hD r hr
    unfold EntryOk at he ⊢
    split at he
    · exact ⟨fun ⟨o', key, hm⟩ => he.1 ⟨o', key, (holds_clear (h := .object o' key) hm).1⟩, he.2⟩
    rename_i _ o' hs
    have hne : o' ≠ o := by
      rintro rfl
      exact hno hs
    obtain ⟨key, hm⟩ := he.1
    exact ⟨⟨key, by dsimp only; rw [update_of_ne hne]; exact hm⟩, he.2⟩

theorem guarded_regions
    (hp : ∀ s i, i < kernelHalf → ¬ D' s i → PageOk (regs' s) T s i (T.pt s i))
    (hn : ∀ s, ∀ r ∈ regs' s, ∀ o, r.shared = some o → o < T.nobjs) :
    Guarded live regs' D' pend T :=
  { hG with page := hp, named := hn }

/-- New regions that cover the pages as the old ones did. -/
theorem guarded_recover
    (hc : ∀ s i, i < kernelHalf → ¬ D' s i → ¬ D s i ∧ ∀ r ∈ regs s, r.Covers i →
      ∃ r' ∈ regs' s, r'.Covers i ∧ r'.shared = r.shared)
    (hn : ∀ s, ∀ r ∈ regs' s, ∀ o, r.shared = some o → o < T.nobjs) :
    Guarded live regs' D' pend T := by
  refine guarded_regions hG (fun s i hi hD => ?_) hn
  obtain ⟨hD', hcov⟩ := hc s i hi hD
  have hok := hG.page s i hi hD'
  refine ⟨fun hp => ?_, fun hp hs => ?_⟩
  · obtain ⟨r, hr, hri, he⟩ := hok.1 hp
    obtain ⟨r', hr', hri', hsh⟩ := hcov r hr hri
    exact ⟨r', hr', hri', hsh ▸ he⟩
  · obtain ⟨r, hr, hri, hnone⟩ := hok.2 hp hs
    obtain ⟨r', hr', hri', hsh⟩ := hcov r hr hri
    exact ⟨r', hr', hri', hsh.trans hnone⟩

end

theorem guarded_live {live' : Nat → Prop} (hG : Guarded live regs D pend T)
    (h : ∀ s, live' s → live s) : Guarded live' regs D pend T :=
  { hG with tables_nodup := fun s hs => hG.tables_nodup s (h s hs),
            tables_apart := fun s t hs ht => hG.tables_apart s t (h s hs) (h t ht),
            tables_unused := fun s hs => hG.tables_unused s (h s hs) }

/-- The tally with the page table of `c` emptied. -/
def Tally.blank (T : Tally) (c : Nat) (tables : List PhysAddr) : Tally :=
  { T with pt := update T.pt c (fun _ => {}), tables := update T.tables c tables }

theorem holds_blank {tb : List PhysAddr} (hh : (T.blank c tb).Holds g h) : T.Holds g h := by
  cases h with
  | object o key => exact hh
  | page t j =>
    have hm : j < kernelHalf ∧ (update T.pt c (fun _ => {}) t j).present = true ∧
      (update T.pt c (fun _ => {}) t j).addr = g := hh
    by_cases ht : t = c
    · subst ht
      rw [update_self] at hm
      cases hm.2.1
    · rw [update_of_ne ht] at hm
      exact hm

/-- A space outside the accounts can be emptied, whatever its regions become. -/
theorem guarded_blank (tb : List PhysAddr)
    (hG : Guarded live regs D pend T) (hc : ¬ live c) (hr : ∀ t, t ≠ c → regs' t = regs t)
    (hn : ∀ r ∈ regs' c, ∀ o, r.shared = some o → o < T.nobjs) :
    Guarded live regs' D pend (T.blank c tb) := by
  have hpt : ∀ t, t ≠ c → (T.blank c tb).pt t = T.pt t := fun t ht => update_of_ne ht ..
  have htb : ∀ t, live t → (T.blank c tb).tables t = T.tables t := fun t ht =>
    update_of_ne (show t ≠ c from fun h => hc (h ▸ ht)) ..
  have hnil : (T.blank c tb).pt c = fun _ => {} := update_self ..
  refine ⟨fun g l hl hh => hG.refs g l hl fun h hm => holds_blank (hh h hm),
    fun g hg => ⟨(hG.free g hg).1, fun h hh => (hG.free g hg).2 h (holds_blank hh)⟩, hG.keys,
    fun t ht => ?_, fun t u ht hu htu p hp => ?_, fun t ht p hp hu => ?_, fun t j hj hD => ?_,
    fun t j hj hp => ?_, hG.fresh, fun t r hr' o ho => ?_, hG.exported⟩
  · rw [htb t ht]
    exact hG.tables_nodup t ht
  · rw [htb t ht] at hp
    rw [htb u hu]
    exact hG.tables_apart t u ht hu htu p hp
  · rw [htb t ht] at hp
    refine hG.tables_unused t ht p hp ?_
    rcases hu with h | h | ⟨h, hh⟩
    · exact .inl h
    · exact .inr (.inl h)
    · exact .inr (.inr ⟨h, holds_blank hh⟩)
  · by_cases ht : t = c
    · subst ht
      rw [hnil]
      exact ⟨fun h => (by cases h), fun _ h => (by cases h)⟩
    rw [hpt t ht, hr t ht]
    have hok := hG.page t j hj hD
    refine ⟨fun hp => ?_, hok.2⟩
    obtain ⟨r, hr, hcov, he⟩ := hok.1 hp
    refine ⟨r, hr, hcov, ?_⟩
    unfold EntryOk at he ⊢
    split at he
    · exact ⟨he.1, fun hw t' j' hm => he.2 hw t' j' (holds_blank (h := .page t' j') hm)⟩
    · exact he
  · by_cases ht : t = c
    · subst ht
      rw [hnil] at hp
      cases hp
    · rw [hpt t ht] at hp
      exact hG.room t j hj hp
  · by_cases ht : t = c
    · subst ht
      exact hn r hr' o ho
    · rw [hr t ht] at hr'
      exact hG.named t r hr' o ho

/-- One more space, with an empty page table, whose root comes from the allocator. -/
theorem guarded_open (hG : Guarded live regs D pend T)
    (ht : T.tables c = []) (hf : T.isFree f) (hfree : ∀ q, isFree q → T.isFree q ∧ q ≠ f)
    (hn : T.nspaces ≤ n) :
    Guarded (fun t => live t ∨ t = c) regs D pend
      { T with isFree := isFree, tables := update T.tables c [f], nspaces := n } := by
  have hG' : Guarded (fun t => live t ∨ t = c) regs D pend T := by
    refine { hG with tables_nodup := fun s hs => ?_, tables_apart := fun s t hs ht' hst p hp => ?_,
                     tables_unused := fun s hs p hp => ?_ }
    · rcases hs with hs | rfl
      · exact hG.tables_nodup s hs
      · rw [ht]
        exact nodup_nil
    · rcases hs with hs | rfl
      · rcases ht' with ht' | rfl
        · exact hG.tables_apart s t hs ht' hst p hp
        · rw [ht]
          exact not_mem_nil
      · rw [ht] at hp
        cases hp
    · rcases hs with hs | rfl
      · exact hG.tables_unused s hs p hp
      · rw [ht] at hp
        cases hp
  have h := guarded_addTable (s := c) hG' hf hfree
  rw [ht] at h
  exact { h with room := fun s i hi hp => Nat.lt_of_lt_of_le (h.room s i hi hp) hn }

/-- A table frame of nobody goes back to the allocator. -/
theorem guarded_freeTable (hG : Guarded live regs D pend T)
    (hf : ¬ T.Used pend f) (ht : ∀ t, live t → f ∉ T.tables t)
    (hfree : ∀ q, isFree q → T.isFree q ∨ q = f) :
    Guarded live regs D pend { T with isFree := isFree } := by
  refine { hG with free := fun g hg => ?_, tables_unused := fun t htl p hp hu => ?_ }
  · rcases hfree g hg with hg | rfl
    · exact hG.free g hg
    · exact ⟨fun h => hf (.inr (.inl h)), fun h hh => hf (.inr (.inr ⟨h, hh⟩))⟩
  rcases hu with h | h
  · rcases hfree p h with h | rfl
    · exact hG.tables_unused t htl p hp (.inl h)
    · exact ht t htl hp
  · exact hG.tables_unused t htl p hp (.inr h)

end

end Fastros.Mm
