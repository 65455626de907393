import Fastros.Mm.Types

/-!
# Frames, page tables, swap slots and memory cgroups

The primitive state changes of the memory manager. Everything above is written
in terms of these, so what a leaf entry, a reference count or a counter can
become is decided here.
-/

namespace Fastros.Mm

open Function (update update_self update_of_ne)

variable {φ : Type}

def assert (b : Bool) : KM φ Unit := if b then pure () else throw .assertion

/-- Nine bits for each of four levels select the entry: bits 12..47 of `va`. -/
def pageIndex (va : Nat) : Nat := va / pageSize % 2 ^ 36

/-- PML4 slots 256 and up are the kernel's tables, shared by every space. -/
def kernelHalf : Nat := 2 ^ 35

def Kernel.setSpace (k : Kernel φ) (s : Nat) (sp : AddressSpace) : Kernel φ :=
  { k with spaces := update k.spaces s sp }

/-- The leaf entry at page index `i` of space `s`. -/
def Kernel.pte (k : Kernel φ) (s i : Nat) : Pte :=
  if i < kernelHalf then (k.spaces s).pt i else k.kpt i

def Kernel.setPte (k : Kernel φ) (s i : Nat) (e : Pte) : Kernel φ :=
  if i < kernelHalf then
    k.setSpace s { k.spaces s with pt := update (k.spaces s).pt i e }
  else { k with kpt := update k.kpt i e }

def space (s : Nat) : KM φ AddressSpace := return (← get).spaces s

def modifySpace (s : Nat) (f : AddressSpace → AddressSpace) : KM φ Unit :=
  modify fun k => k.setSpace s (f (k.spaces s))

/-- `paging::leaf_entry`, read. -/
def leafEntry (s va : Nat) : KM φ Pte := return (← get).pte s (pageIndex va)

/-- A store through the pointer `paging::leaf_entry` returned. -/
def setLeafEntry (s va : Nat) (e : Pte) : KM φ Unit := modify fun k => k.setPte s (pageIndex va) e

variable (k : Kernel φ)

@[simp] theorem setSpace_self (s : Nat) (sp : AddressSpace) :
    (k.setSpace s sp).spaces s = sp := update_self ..

theorem setSpace_ne {s t : Nat} (sp : AddressSpace) (h : t ≠ s) :
    (k.setSpace s sp).spaces t = k.spaces t := update_of_ne h ..

/-- A change of a space is not seen through what it leaves the same. -/
theorem setSpace_congr {α : Type} (g : AddressSpace → α) (k : Kernel φ) {s : Nat} {sp : AddressSpace}
    (h : g sp = g (k.spaces s)) (t : Nat) : g ((k.setSpace s sp).spaces t) = g (k.spaces t) := by
  by_cases ht : t = s
  · subst ht
    rw [setSpace_self, h]
  · rw [setSpace_ne k _ ht]

/-- Storing an entry changes no space beyond its page table. -/
theorem setPte_congr {α : Type} (g : AddressSpace → α) (hg : ∀ sp pt, g { sp with pt := pt } = g sp)
    (k : Kernel φ) (s i t : Nat) (e : Pte) : g ((k.setPte s i e).spaces t) = g (k.spaces t) := by
  unfold Kernel.setPte
  split
  · exact setSpace_congr g k (hg _ _) t
  · rfl

theorem setPte_regions (s i t : Nat) (e : Pte) :
    ((k.setPte s i e).spaces t).regions = (k.spaces t).regions :=
  setPte_congr (·.regions) (fun _ _ => rfl) k s i t e

@[simp] theorem setPte_self (s i : Nat) (e : Pte) : (k.setPte s i e).pte s i = e := by
  unfold Kernel.setPte Kernel.pte
  by_cases h : i < kernelHalf
  · rw [if_pos h, if_pos h, setSpace_self]
    exact update_self ..
  · rw [if_neg h, if_neg h]
    exact update_self ..

theorem setPte_ne {s i t j : Nat} (e : Pte) (h : j ≠ i) : (k.setPte s i e).pte t j = k.pte t j := by
  unfold Kernel.setPte Kernel.pte
  by_cases hi : i < kernelHalf
  · rw [if_pos hi]
    by_cases ht : t = s
    · subst ht
      rw [setSpace_self]
      dsimp only
      rw [update_of_ne h]
      rfl
    · rw [setSpace_ne k _ ht]
      rfl
  · rw [if_neg hi]
    dsimp only
    rw [update_of_ne h]

/-- Changing a space outside its page table changes no entry. -/
theorem setSpace_pte (s t i : Nat) {sp : AddressSpace}
    (h : sp.pt = (k.spaces s).pt) : (k.setSpace s sp).pte t i = k.pte t i := by
  unfold Kernel.pte
  rw [setSpace_congr (·.pt) k h t]
  rfl

/-- An entry that holds a page, in memory or in swap. -/
def Pte.live (e : Pte) : Bool := e.present || e.swapped

variable (A : FrameAllocator φ)

/-- `frame::alloc_zeroed(0)`. -/
def allocZeroed : KM φ (Option PhysAddr) := do
  match A.alloc (← get).frames with
  | none => return none
  | some (p, fr) =>
    modify fun k => { k with frames := fr, mem := update k.mem p fun _ => 0 }
    return some p

/-- `frame::free(p, 0)`: a mismatched free is a panic. -/
def freeFrame (p : PhysAddr) : KM φ Unit := do
  match A.free (← get).frames p with
  | none => throw .assertion
  | some fr => modify fun k => { k with frames := fr }

/-- The bounds check of `ref_slot`. -/
def refSlot (p : PhysAddr) : KM φ Unit := do
  assert (p / pageSize < (← get).refFrames)

def allocUserPage : KM φ (Option PhysAddr) := do
  match ← allocZeroed A with
  | none => return none
  | some p =>
    refSlot p
    modify fun k => { k with refs := update k.refs p 1 }
    return some p

def pageGet (p : PhysAddr) : KM φ Unit := do
  refSlot p
  let old := (← get).refs p
  assert (old ≠ 0 ∧ old ≠ 65535)
  modify fun k => { k with refs := update k.refs p (old + 1) }

/-- `page_put`: the last reference returns the page to the allocator. -/
def pagePut (p : PhysAddr) : KM φ Unit := do
  refSlot p
  let old := (← get).refs p
  assert (old ≠ 0)
  modify fun k => { k with refs := update k.refs p (old - 1) }
  if old = 1 then freeFrame A p

def pageCount (p : PhysAddr) : KM φ Nat := do
  refSlot p
  return (← get).refs p

/-- The simplest allocator: a list of free frames. -/
def listAllocator : FrameAllocator (List PhysAddr) where
  alloc
    | [] => none
    | p :: ps => some (p, ps.filter (· ≠ p))
  free ps p := if p ∈ ps then none else some (p :: ps)
  isFree ps p := p ∈ ps
  alloc_isFree := by
    intro s p s' h
    cases s with
    | nil => cases h
    | cons q qs => cases h; exact List.mem_cons_self
  alloc_iff := by
    intro s p s' h q
    cases s with
    | nil => cases h
    | cons r rs =>
      cases h
      simp only [List.mem_filter, List.mem_cons, decide_eq_true_eq]
      constructor
      · rintro ⟨hm, hn⟩; exact ⟨Or.inr hm, hn⟩
      · rintro ⟨rfl | hm, hn⟩
        · exact absurd rfl hn
        · exact ⟨hm, hn⟩
  alloc_none := by
    intro s h q hq
    cases s with
    | nil => cases hq
    | cons p ps => cases h
  free_iff := by
    intro s p s' h q
    split at h
    · cases h
    · cases h
      rw [List.mem_cons, or_comm]

/-- A kernel with `n` free user frames, one empty address space and no cgroup. -/
def bootKernel (n : Nat) : Kernel (List PhysAddr) where
  frames := (List.range n).map (· * pageSize)
  refFrames := n
  refs := fun _ => 0
  mem := fun _ _ => 0
  kpt := fun _ => {}
  spaces := fun _ => {}
  nspaces := 1
  objs := fun _ => []
  nobjs := 0
  held := fun _ => false
  files := fun _ => {}
  swap := {}
  cgroups := fun _ => none

/-- The tables a walk to page index `i` passes: levels 3, 2 and 1. -/
def tablePath (i : Nat) : List (Nat × Nat) := [(3, i / 2 ^ 27), (2, i / 2 ^ 18), (1, i / 2 ^ 9)]

/-- `walk(.., create = true)`: allocate the missing tables from the top down. -/
def walkCreate (s : Nat) : List (Nat × Nat) → KM φ Bool
  | [] => return true
  | key :: rest => do
    if (← space s).tables.any (·.1 = key) then walkCreate s rest
    else
      match ← allocZeroed A with
      | none => return false
      | some p =>
        modifySpace s fun sp => { sp with tables := (key, p) :: sp.tables }
        walkCreate s rest

/-- `paging::map_4k` with `map_err` applied to its result. -/
def map4k (s va phys : Nat) (fl : Pte) : KM φ Unit := do
  if ← walkCreate A s (tablePath (pageIndex va)) then
    let e ← leafEntry s va
    if e.present then throw (.errno .efault)
    setLeafEntry s va { fl with addr := phys, present := true }
  else throw (.errno .enomem)

/-- `paging::unmap_4k`: clears a present entry and returns it. -/
def unmap4k (s va : Nat) : KM φ (Option Pte) := do
  let e ← leafEntry s va
  if e.present then
    setLeafEntry s va {}
    return some e
  return none

def allocSlot : KM φ (Option Nat) := do
  let sw := (← get).swap
  match (List.range sw.slots).find? (fun i => !sw.used i) with
  | none => return none
  | some i =>
    modify fun k => { k with swap := { k.swap with used := update k.swap.used i true } }
    return some i

def freeSlot (i : Nat) : KM φ Unit :=
  modify fun k => { k with swap := { k.swap with used := update k.swap.used i false } }

/-- `swap::store_page`: stage a frame's contents to a fresh slot. -/
def storePage (phys : PhysAddr) : KM φ (Option Nat) := do
  match ← allocSlot with
  | none => return none
  | some i =>
    if (← get).swap.writeOk i then
      modify fun k =>
        { k with swap := { k.swap with data := update k.swap.data i (k.mem phys) } }
      return some i
    freeSlot i
    return none

/-- `swap::read_slot` into a frame. -/
def readSlot (i : Nat) (phys : PhysAddr) : KM φ Bool := do
  if (← get).swap.readOk i then
    modify fun k => { k with mem := update k.mem phys (k.swap.data i) }
    return true
  return false

/-! ## Memory cgroups

The counters are `i64`, compared with a limit as `u64`. -/

def wrapI64 (x : Int) : Int := (x + 2 ^ 63) % 2 ^ 64 - 2 ^ 63

def asU64 (x : Int) : Nat := (x % 2 ^ 64).toNat

def Kernel.setCgroup (k : Kernel φ) (cid : String) (cg : Cgroup) : Kernel φ :=
  { k with cgroups := update k.cgroups cid (some cg) }

/-- `fetch_add(1)`, undone again when the old value was at the limit. -/
def tryCharge (counter : Int) (limit : Nat) : Bool × Int :=
  if limit = 0 then (true, counter)
  else if limit ≤ asU64 counter then (false, wrapI64 (wrapI64 (counter + 1) - 1))
  else (true, wrapI64 (counter + 1))

def tryChargePage (cid : String) : KM φ Bool := do
  match (← get).cgroups cid with
  | none => return true
  | some cg =>
    let (ok, n) := tryCharge cg.memPages cg.memLimitPages
    modify (·.setCgroup cid { cg with memPages := n })
    return ok

def cgroupUnchargePages (cid : String) (n : Nat) : KM φ Unit := do
  match (← get).cgroups cid with
  | none => return
  | some cg =>
    if n = 0 then return
    modify (·.setCgroup cid { cg with memPages := wrapI64 (cg.memPages - n) })

def tryChargeSwap (cid : String) : KM φ Bool := do
  match (← get).cgroups cid with
  | none => return true
  | some cg =>
    let (ok, n) := tryCharge cg.swapPages cg.swapLimitPages
    modify (·.setCgroup cid { cg with swapPages := n })
    return ok

def cgroupUnchargeSwap (cid : String) (n : Nat) : KM φ Unit := do
  match (← get).cgroups cid with
  | none => return
  | some cg =>
    if n = 0 then return
    modify (·.setCgroup cid { cg with swapPages := wrapI64 (cg.swapPages - n) })

end Fastros.Mm
