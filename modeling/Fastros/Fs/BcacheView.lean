import Fastros.Fs.Bcache
import Fastros.Lib.WriteBack

/-!
# The block cache is transparent

Seen through the cache the device is a plain sequence of bytes: a read returns
them, a write replaces some, and loading, eviction and write-back show nothing.
-/

namespace Fastros.Fs.Bcache

open BlockCache
open Nat (add_assoc add_mul add_zero div_add_mod mod_lt mul_assoc mul_le_mul_right succ_mul)

open List hiding get set modify

open Lib.WriteBack (Line Moved Coherent view)
open Lib.Stateful (run_bind run_pure run_get run_modify)

/-- The pages of the device. -/
def Device.page (d : Device) (k : Nat) : PageData :=
  Vector.ofFn fun x => d.bytes (k * pageSize + x.val)

/-- The cached pages without their use. -/
def BlockCache.lines (c : BlockCache) (k : Nat) : Option (Line PageData) :=
  (c.pages[k]?).map fun p => ⟨p.data, p.dirty⟩

theorem pageSize_pos : 0 < pageSize := by decide

/-- A sequence of pages as a sequence of bytes. -/
def bytesOf (v : Nat → PageData) (a : Nat) : UInt8 :=
  (v (a / pageSize)).get ⟨a % pageSize, Nat.mod_lt a pageSize_pos⟩

theorem get_ofFn (f : Fin pageSize → UInt8) (x : Fin pageSize) : (Vector.ofFn f).get x = f x := by
  show (Vector.ofFn f)[x.val] = f x
  rw [Vector.getElem_ofFn]

theorem bytesOf_page (d : Device) : bytesOf d.page = d.bytes := by
  funext a
  simp only [bytesOf, Device.page, get_ofFn]
  rw [Nat.mul_comm, div_add_mod]

theorem page_ext {v w : PageData} (h : ∀ x : Fin pageSize, v.get x = w.get x) : v = w := by
  apply Vector.ext
  intro i hi
  exact h ⟨i, hi⟩

variable {len k pos offset : Nat} {buf : List UInt8}
variable {excess idx n start x : Nat}

/-- The pages from `idx` to `idx + n` change to those of a buffer that is written there. -/
theorem page_overlay {d d' : Device} (hlen : buf.length = len * pageSize)
    (hd : d'.bytes = overlay d.bytes (start * pageSize) buf) (k : Nat) :
    d'.page k = if start ≤ k ∧ k < start + len then pageOf buf (k - start) else d.page k := by
  apply page_ext
  intro x
  simp only [Device.page, get_ofFn, hd, overlay, hlen]
  by_cases hk : start ≤ k ∧ k < start + len
  · obtain ⟨i, rfl⟩ := Nat.exists_eq_add_of_le hk.1
    have hi : i + 1 ≤ len := by omega
    have hmul := mul_le_mul_right pageSize hi
    rw [add_mul] at hmul
    have hin : start * pageSize ≤ (start + i) * pageSize + x.val ∧
        (start + i) * pageSize + x.val < start * pageSize + len * pageSize := by
      rw [add_mul]
      omega
    rw [if_pos hin, if_pos hk]
    simp only [pageOf, get_ofFn, Nat.add_sub_cancel_left]
    congr 1
    rw [add_mul]
    omega
  · rw [if_neg hk, if_neg]
    · simp only [get_ofFn]
    rintro ⟨h1, h2⟩
    rcases Nat.lt_or_ge k start with hlt | hge
    · have hmul := mul_le_mul_right pageSize (Nat.succ_le_of_lt hlt)
      rw [succ_mul] at hmul
      omega
    · have hle : start + len ≤ k := by omega
      have hmul := mul_le_mul_right pageSize hle
      rw [add_mul] at hmul
      omega

/-- Through the cache the pages `v` are seen; every cached page lies where the
device's commands succeed. -/
structure Shows (lim : Nat) (c : BlockCache) (v : Nat → PageData) : Prop where
  coherent : Coherent c.lines c.dev.page
  view : view c.lines c.dev.page = v
  limit : c.dev.limit = lim
  total : c.pagesTotal * pageSize ≤ lim
  inside : ∀ k p, c.pages[k]? = some p → (k + 1) * pageSize ≤ lim

variable {lim : Nat} {c c' : BlockCache} {v : Nat → PageData}

theorem Shows.moved (h : Shows lim c v)
    (hm : ∀ k, Moved (c.lines k) (c.dev.page k) (c'.lines k) (c'.dev.page k))
    (hl : c'.dev.limit = c.dev.limit) (ht : c'.pagesTotal = c.pagesTotal)
    (hi : ∀ k p, c'.pages[k]? = some p → (k + 1) * pageSize ≤ lim) : Shows lim c' v where
  coherent := Moved.coherent hm h.coherent
  view := (Moved.view_eq hm h.coherent).trans h.view
  limit := hl.trans h.limit
  total := by
    rw [ht]
    exact h.total
  inside := hi

/-- What is seen does not depend on the uses of the pages. -/
theorem Shows.congr (h : Shows lim c v) (hp : ∀ k, c'.lines k = c.lines k) (hd : c'.dev = c.dev)
    (ht : c'.pagesTotal = c.pagesTotal) : Shows lim c' v := by
  refine h.moved (fun k => ?_) (by rw [hd]) ht fun k p hk => ?_
  · rw [hp, hd]
    exact .same _ _
  have hline := hp k
  rw [lines, hk] at hline
  cases hc : c.pages[k]? with
  | none => simp [lines, hc] at hline
  | some q => exact h.inside k q hc

theorem lines_eq_some {l : Line PageData} :
    c.lines k = some l ↔ ∃ p, c.pages[k]? = some p ∧ l = ⟨p.data, p.dirty⟩ := by
  rw [lines, Option.map_eq_some_iff]
  simp only [eq_comm]

theorem lines_eq_none : c.lines k = none ↔ c.pages[k]? = none := by
  simp [lines]

theorem Shows.page_eq (h : Shows lim c v) {p : Page} (hp : c.pages[k]? = some p) :
    v k = p.data := by
  rw [← h.view]
  simp [Lib.WriteBack.view, lines, hp]

theorem put_pages (c : BlockCache) (idx : Nat) (p : Page) (k : Nat) :
    (c.put idx p).pages[k]? = if k = idx then some p else c.pages[k]? := by
  rw [put, Std.TreeMap.getElem?_insert]
  by_cases hk : k = idx
  · simp [hk]
  · have : compare idx k ≠ .eq := by simpa using Ne.symm hk
    simp [this, hk]

theorem expectPage_spec {p : Page} (h : c.pages[k]? = some p) : expectPage k c = .ok p c := by
  simp only [expectPage, run_bind, run_get, h, run_pure]

theorem gather_spec (start : Nat) : ∀ n, (∀ i, i < n → ∃ p, c.pages[start + i]? = some p) →
    ∃ buf, gather start n c = .ok buf c ∧ buf.length = n * pageSize ∧
      ∀ i p, i < n → c.pages[start + i]? = some p → pageOf buf i = p.data := by
  intro n
  induction n with
  | zero =>
    intro _
    exact ⟨[], rfl, by simp, fun i p hi => absurd hi (by omega)⟩
  | succ n ih =>
    intro hpages
    obtain ⟨buf, hrun, hlen, hbuf⟩ := ih fun i hi => hpages i (by omega)
    obtain ⟨q, hq⟩ := hpages n (by omega)
    refine ⟨buf ++ q.data.toList, ?_, ?_, ?_⟩
    · simp only [gather, run_bind, hrun, expectPage_spec hq, run_pure]
    · rw [length_append, hlen, Vector.length_toList, succ_mul]
    intro i p hi hp
    apply page_ext
    intro x
    simp only [pageOf, get_ofFn]
    by_cases hin : i = n
    · subst hin
      rw [hq] at hp
      cases hp
      rw [getD_append_right _ _ _ _ (by omega), hlen, Nat.add_sub_cancel_left]
      simp [getD, Vector.get]
    · have hmul := mul_le_mul_right pageSize (show i + 1 ≤ n by omega)
      rw [succ_mul] at hmul
      rw [getD_append _ _ _ _ (by omega), ← hbuf i p (by omega) hp]
      simp only [pageOf, get_ofFn]

theorem setClean_pages (c : BlockCache) (idx k : Nat) :
    (c.setClean idx).pages[k]? = if k = idx then (c.pages[k]?).map fun p => { p with dirty := false }
      else c.pages[k]? := by
  rw [setClean]
  split
  · next p hp =>
    rw [put_pages]
    by_cases hk : k = idx <;> simp [hk, hp]
  · next hp =>
    by_cases hk : k = idx <;> simp [hk, hp]

theorem markClean_spec (start : Nat) : ∀ (n : Nat) (c : BlockCache), ∃ c', markClean start n c = .ok () c' ∧
    c'.dev = c.dev ∧ c'.pagesTotal = c.pagesTotal ∧
    ∀ k, c'.pages[k]? = if start ≤ k ∧ k < start + n then
      (c.pages[k]?).map fun p => { p with dirty := false } else c.pages[k]? := by
  intro n
  induction n with
  | zero =>
    intro c
    refine ⟨c, rfl, rfl, rfl, fun k => ?_⟩
    rw [if_neg (by omega)]
  | succ n ih =>
    intro c
    obtain ⟨c1, hrun, hdev, htot, hpages⟩ := ih c
    have hset : (c1.setClean (start + n)).dev = c1.dev ∧
        (c1.setClean (start + n)).pagesTotal = c1.pagesTotal := by
      rw [setClean]
      split <;> exact ⟨rfl, rfl⟩
    refine ⟨c1.setClean (start + n), ?_, hset.1.trans hdev, hset.2.trans htot, fun k => ?_⟩
    · simp only [markClean, run_bind, hrun, run_modify]
    rw [setClean_pages, hpages]
    by_cases hk : k = start + n
    · rw [if_pos hk, if_neg (by omega), if_pos (by omega)]
    rw [if_neg hk]
    by_cases hin : start ≤ k ∧ k < start + n
    · rw [if_pos hin, if_pos (by omega)]
    · rw [if_neg hin, if_neg (by omega)]

theorem devWrite_spec (hlen : buf.length = len * pageSize)
    (hin : (start + len) * pageSize ≤ c.dev.limit) :
    ∃ dev, devWrite (start * sectorsPerPage) buf c = .ok () { c with dev := dev } ∧
      dev.limit = c.dev.limit ∧ ∀ k, dev.page k =
        if start ≤ k ∧ k < start + len then pageOf buf (k - start) else c.dev.page k := by
  have hsec : start * sectorsPerPage * sectorSize = start * pageSize := by
    rw [mul_assoc]
    rfl
  have hfit : start * sectorsPerPage * sectorSize + buf.length ≤ c.dev.limit := by
    rw [hsec, hlen, ← add_mul]
    exact hin
  refine ⟨{ c.dev with bytes := overlay c.dev.bytes (start * pageSize) buf }, ?_, rfl, ?_⟩
  · simp only [devWrite, run_bind, run_get, Device.write]
    rw [if_pos hfit]
    simp only [hsec, run_modify]
  · exact page_overlay hlen rfl

theorem runLength_spec (start : Nat) : ∀ (rest : List Nat) (len : Nat),
    len ≤ runLength start len rest ∧ runLength start len rest ≤ len + rest.length ∧
    rest.take (runLength start len rest - len)
      = range' (start + len) (runLength start len rest - len) := by
  intro rest
  induction rest with
  | nil =>
    intro len
    simp [runLength]
  | cons k rest ih =>
    intro len
    rw [runLength]
    split
    · next hk =>
      obtain ⟨h1, h2, h3⟩ := ih (len + 1)
      refine ⟨by omega, by simp only [length_cons]; omega, ?_⟩
      obtain ⟨d, hd⟩ := Nat.exists_eq_add_of_le h1
      rw [hd] at h3 ⊢
      have he : len + 1 + d - len = d + 1 := by omega
      have he' : len + 1 + d - (len + 1) = d := by omega
      rw [he'] at h3
      rw [he, take_succ_cons, h3, range'_succ, hk.1, add_assoc]
    · simp

/-- The first pages of the list are a run of consecutive ones. -/
theorem take_runLength (start : Nat) (rest : List Nat) :
    (start :: rest).take (runLength start 1 rest) = range' start (runLength start 1 rest) := by
  obtain ⟨h1, _, h3⟩ := runLength_spec start rest 1
  obtain ⟨d, hd⟩ := Nat.exists_eq_add_of_le' h1
  rw [hd] at h3 ⊢
  rw [take_succ_cons, range'_succ]
  simpa using h3

/-- Cached pages are as before, but for the dirty mark of those that were written. -/
structure Written (c c' : BlockCache) (done : Nat → Prop) : Prop where
  absent : ∀ k : Nat, c'.pages[k]? = none ↔ c.pages[k]? = none
  present : ∀ (k : Nat) (p : Page), c'.pages[k]? = some p → (done k → p.dirty = false) ∧
    ∃ q, c.pages[k]? = some q ∧ (p.dirty = true → q.dirty = true)

theorem writeRuns_spec : ∀ (fuel : Nat) (ks : List Nat) {c : BlockCache}, ks.length ≤ fuel →
    Shows lim c v → (∀ k ∈ ks, ∃ p, c.pages[k]? = some p) →
    ∃ c', writeRuns fuel ks c = .ok () c' ∧ Shows lim c' v ∧ Written c c' (· ∈ ks) := by
  intro fuel
  induction fuel with
  | zero =>
    intro ks c hfuel h _
    obtain rfl := eq_nil_of_length_eq_zero (Nat.le_zero.mp hfuel)
    exact ⟨c, rfl, h, fun _ => Iff.rfl, fun k p hp => ⟨fun hk => absurd hk not_mem_nil, p, hp, id⟩⟩
  | succ fuel ih =>
    intro ks c hfuel h hks
    cases ks with
    | nil =>
      exact ⟨c, rfl, h, fun _ => Iff.rfl,
        fun k p hp => ⟨fun hk => absurd hk not_mem_nil, p, hp, id⟩⟩
    | cons start rest =>
      have htake := take_runLength start rest
      obtain ⟨hpos, hle, _⟩ := runLength_spec start rest 1
      generalize hlen : runLength start 1 rest = len at htake hpos hle
      have hrun : ∀ k, start ≤ k ∧ k < start + len → ∃ p, c.pages[k]? = some p := by
        intro k hk
        apply hks
        apply mem_of_mem_take
        rw [htake, mem_range'_1]
        exact hk
      obtain ⟨buf, hgather, hbuflen, hbuf⟩ := gather_spec start len
        fun i hi => hrun (start + i) (by omega)
      have hlast : (start + len) * pageSize ≤ c.dev.limit := by
        obtain ⟨p, hp⟩ := hrun (start + (len - 1)) (by omega)
        have hin := h.inside _ p hp
        rw [h.limit]
        rwa [show start + (len - 1) + 1 = start + len by omega] at hin
      obtain ⟨dev, hwrite, hlimit, hpage⟩ := devWrite_spec hbuflen hlast
      obtain ⟨c1, hmark, hdev1, htot1, hpages1⟩ := markClean_spec start len { c with dev := dev }
      have hshow : Shows lim c1 v := by
        refine h.moved (fun k => ?_) (by rw [hdev1]; exact hlimit) htot1 fun k p hp => ?_
        · rw [hdev1, hpage, lines, lines, hpages1]
          by_cases hk : start ≤ k ∧ k < start + len
          · obtain ⟨p, hp⟩ := hrun k hk
            rw [if_pos hk, if_pos hk, hp, hbuf (k - start) p (by omega)
              (by rw [show start + (k - start) = k by omega]; exact hp)]
            exact .written ⟨p.data, p.dirty⟩ _
          · rw [if_neg hk, if_neg hk]
            exact .same _ _
        · rw [hpages1] at hp
          split at hp
          · obtain ⟨q, hq, _⟩ := Option.map_eq_some_iff.mp hp
            exact h.inside k q hq
          · exact h.inside k p hp
      obtain ⟨c', hrest, hshow', hw⟩ := ih ((start :: rest).drop len)
        (by rw [length_drop]; omega) hshow (fun k hk => by
          obtain ⟨p, hp⟩ := hks k (mem_of_mem_drop hk)
          rw [hpages1]
          split
          · exact ⟨{ p with dirty := false }, by rw [hp]; rfl⟩
          · exact ⟨p, hp⟩)
      refine ⟨c', ?_, hshow', fun k => ?_, fun k p hp => ?_⟩
      · simp only [writeRuns, hlen, run_bind, hgather, hwrite, hmark, hrest]
      · rw [hw.absent, hpages1]
        split <;> simp
      obtain ⟨hclean, q, hq, hdirty⟩ := hw.present k p hp
      rw [hpages1] at hq
      split at hq
      · obtain ⟨r, hr, hrq⟩ := Option.map_eq_some_iff.mp hq
        have hqd : q.dirty = false := by rw [← hrq]
        rw [hqd] at hdirty
        have hpd : p.dirty = false := by simpa using hdirty
        exact ⟨fun _ => hpd, r, hr, fun hd => by rw [hpd] at hd; cases hd⟩
      · next hout =>
        refine ⟨fun hk => hclean ?_, q, hq, hdirty⟩
        rw [← take_append_drop len (start :: rest), mem_append, htake, mem_range'_1] at hk
        exact hk.resolve_left hout

theorem mem_dirtyKeys : k ∈ c.dirtyKeys ↔ ∃ p, c.pages[k]? = some p ∧ p.dirty = true := by
  simp only [dirtyKeys, mem_map, mem_filter]
  constructor
  · rintro ⟨⟨k', p⟩, ⟨hmem, hd⟩, rfl⟩
    exact ⟨p, Std.TreeMap.mem_toList_iff_getElem?_eq_some.mp hmem, hd⟩
  · rintro ⟨p, hp, hd⟩
    exact ⟨(k, p), ⟨Std.TreeMap.mem_toList_iff_getElem?_eq_some.mpr hp, hd⟩, rfl⟩

/-- Writing back shows nothing, and leaves no page dirty. -/
theorem writeback_spec (h : Shows lim c v) : ∃ c', writeback c = .ok () c' ∧ Shows lim c' v ∧
    (∀ k : Nat, c'.pages[k]? = none ↔ c.pages[k]? = none) ∧
    ∀ (k : Nat) (p : Page), c'.pages[k]? = some p → p.dirty = false := by
  obtain ⟨c', hrun, hshow, hw⟩ := writeRuns_spec _ c.dirtyKeys (Nat.le_refl _) h fun k hk => by
    obtain ⟨p, hp, _⟩ := mem_dirtyKeys.mp hk
    exact ⟨p, hp⟩
  refine ⟨c', ?_, hshow, hw.absent, fun k p hp => ?_⟩
  · simp only [writeback, run_bind, run_get, hrun]
  obtain ⟨hclean, q, hq, hdirty⟩ := hw.present k p hp
  cases hd : p.dirty with
  | false => rfl
  | true =>
    rw [hclean (mem_dirtyKeys.mpr ⟨q, hq, hdirty hd⟩)] at hd
    cases hd

theorem foldl_remove (es : List (Nat × Nat)) (c : BlockCache) :
    (es.foldl (fun c e => c.remove e.2) c).dev = c.dev ∧
    (es.foldl (fun c e => c.remove e.2) c).pagesTotal = c.pagesTotal ∧
    ∀ k, (es.foldl (fun c e => c.remove e.2) c).pages[k]? =
      if k ∈ es.map Prod.snd then none else c.pages[k]? := by
  induction es generalizing c with
  | nil => simp
  | cons e es ih =>
    obtain ⟨h1, h2, h3⟩ := ih (c.remove e.2)
    refine ⟨h1, h2, fun k => ?_⟩
    rw [foldl_cons, h3]
    simp only [map_cons, mem_cons, remove, Std.TreeMap.getElem?_erase]
    by_cases hk : k = e.2
    · simp [hk]
    · have hne : compare e.2 k ≠ .eq := by simpa using Ne.symm hk
      simp only [hk, hne, if_false, false_or]

theorem clean_of_mem
    (hk : k ∈ ((c.cleanPages.mergeSort olderFirst).take excess).map Prod.snd) :
    ∃ p, c.pages[k]? = some p ∧ p.dirty = false := by
  obtain ⟨⟨t, k'⟩, hmem, rfl⟩ := mem_map.mp hk
  have hin := mem_mergeSort.mp (mem_of_mem_take hmem)
  simp only [cleanPages, mem_map, mem_filter] at hin
  obtain ⟨⟨k0, p⟩, ⟨hp, hd⟩, he⟩ := hin
  cases he
  exact ⟨p, Std.TreeMap.mem_toList_iff_getElem?_eq_some.mp hp, by simpa using hd⟩

/-- Only clean pages are evicted. -/
theorem evict_spec (h : Shows lim c v) (excess : Nat) : ∃ c', evict excess c = .ok () c' ∧
    Shows lim c' v ∧ ∀ k : Nat, c'.pages[k]? = c.pages[k]? ∨
      c'.pages[k]? = none ∧ ∃ p, c.pages[k]? = some p ∧ p.dirty = false := by
  obtain ⟨hdev, htot, hpages⟩ := foldl_remove ((c.cleanPages.mergeSort olderFirst).take excess) c
  refine ⟨_, rfl, h.moved (fun k => ?_) (by rw [hdev]) htot fun k p hp => ?_, fun k => ?_⟩
  · rw [hdev, lines, lines, hpages]
    split
    · next hk =>
      obtain ⟨p, hp, hd⟩ := clean_of_mem hk
      rw [hp]
      exact .dropped ⟨p.data, p.dirty⟩ _ hd
    · exact .same _ _
  · rw [hpages] at hp
    split at hp
    · cases hp
    · exact h.inside k p hp
  · rw [hpages]
    split
    · next hk => exact .inr ⟨rfl, clean_of_mem hk⟩
    · exact .inl rfl

theorem makeRoom_spec (h : Shows lim c v) (want : Nat) : ∃ c', makeRoom want c = .ok () c' ∧
    Shows lim c' v ∧ ∀ k : Nat, c.pages[k]? = none → c'.pages[k]? = none := by
  have hevict : ∀ (excess : Nat) {c1 : BlockCache}, Shows lim c1 v →
      (∀ k : Nat, c.pages[k]? = none → c1.pages[k]? = none) →
      ∃ c', evict excess c1 = .ok () c' ∧ Shows lim c' v ∧
        ∀ k : Nat, c.pages[k]? = none → c'.pages[k]? = none := by
    intro excess c1 h1 hnone
    obtain ⟨c', hev, hshow, hsub⟩ := evict_spec h1 excess
    refine ⟨c', hev, hshow, fun k hk => ?_⟩
    rcases hsub k with he | ⟨hn, _⟩
    · rw [he]
      exact hnone k hk
    · exact hn
  unfold makeRoom
  simp only [run_bind, run_get]
  split
  · exact ⟨c, rfl, h, fun _ => id⟩
  generalize c.pages.size + want - c.capacity = excess
  split
  · obtain ⟨c1, hrun, h1, hn, _⟩ := writeback_spec h
    obtain ⟨c', hev, hrest⟩ := hevict excess h1 fun k hk => (hn k).mpr hk
    exact ⟨c', by rw [run_bind, hrun]; exact hev, hrest⟩
  · exact hevict excess h fun _ => id

theorem touch_spec (c : BlockCache) : touch c = .ok (c.tick + 1) { c with tick := c.tick + 1 } := by
  simp only [touch, run_bind, run_modify, run_get, run_pure]

theorem ahead_spec (idx : Nat) : ∀ (fuel n : Nat), n ≤ c.ahead idx fuel n ∧
    ∀ i, n ≤ i → i < c.ahead idx fuel n → idx + i < c.pagesTotal ∧ c.pages[idx + i]? = none := by
  intro fuel
  induction fuel with
  | zero =>
    intro n
    simp only [ahead]
    exact ⟨Nat.le_refl n, fun i h1 h2 => by omega⟩
  | succ fuel ih =>
    intro n
    rw [ahead]
    split
    · next hcond =>
      obtain ⟨h1, h2⟩ := ih (n + 1)
      refine ⟨by omega, fun i hi hlt => ?_⟩
      rcases Nat.eq_or_lt_of_le hi with rfl | hi'
      · refine ⟨hcond.2.1, ?_⟩
        have hnot := hcond.2.2
        simpa using hnot
      · exact h2 i hi' hlt
    · exact ⟨Nat.le_refl n, fun i h1 h2 => by omega⟩

theorem devRead_spec (hin : (idx + n) * pageSize ≤ c.dev.limit) :
    ∃ buf, devRead (idx * sectorsPerPage) (n * pageSize) c = .ok buf c ∧
      ∀ i, i < n → pageOf buf i = c.dev.page (idx + i) := by
  have hsec : idx * sectorsPerPage * sectorSize = idx * pageSize := by
    rw [mul_assoc]
    rfl
  have hfit : idx * sectorsPerPage * sectorSize + n * pageSize ≤ c.dev.limit := by
    rw [hsec, ← add_mul]
    exact hin
  refine ⟨(range (n * pageSize)).map fun i => c.dev.bytes (idx * pageSize + i), ?_, fun i hi => ?_⟩
  · simp only [devRead, run_bind, run_get, Device.read]
    rw [if_pos hfit, hsec]
    rfl
  apply page_ext
  intro x
  have hmul := mul_le_mul_right pageSize (Nat.succ_le_of_lt hi)
  rw [succ_mul] at hmul
  simp only [pageOf, Device.page, get_ofFn]
  rw [getD_eq_getElem _ _ (by simp; omega)]
  simp only [getElem_map, getElem_range]
  rw [add_mul, add_assoc]

theorem fill_spec (idx t : Nat) (buf : List UInt8) : ∀ (n : Nat) (c : BlockCache),
    ∃ c', fill idx t buf n c = .ok () c' ∧ c'.dev = c.dev ∧ c'.pagesTotal = c.pagesTotal ∧
      ∀ k, c'.lines k = if idx ≤ k ∧ k < idx + n then some ⟨pageOf buf (k - idx), false⟩
        else c.lines k := by
  intro n
  induction n with
  | zero =>
    intro c
    refine ⟨c, rfl, rfl, rfl, fun k => ?_⟩
    rw [if_neg (by omega)]
  | succ n ih =>
    intro c
    obtain ⟨c1, hrun, hdev, htot, hlines⟩ := ih c
    refine ⟨c1.put (idx + n) ⟨pageOf buf n, false, if n = 0 then t else t - 1000000⟩, ?_, hdev, htot,
      fun k => ?_⟩
    · simp only [fill, run_bind, hrun]
      rfl
    simp only [lines, put_pages]
    by_cases hk : k = idx + n
    · have hin : idx ≤ k ∧ k < idx + (n + 1) := by omega
      rw [if_pos hk, if_pos hin, hk, Nat.add_sub_cancel_left]
      rfl
    have hold := hlines k
    rw [lines] at hold
    rw [if_neg hk, hold]
    by_cases hin : idx ≤ k ∧ k < idx + n
    · rw [if_pos hin, if_pos (by omega)]
    · rw [if_neg hin, if_neg (by omega)]
      rfl

/-- The page is there afterwards; nothing else is seen of a load that needs the data. -/
theorem load_spec (h : Shows lim c v) (hin : (idx + 1) * pageSize ≤ lim) :
    ∃ c', load idx true c = .ok () c' ∧ Shows lim c' v ∧ ∃ p, c'.pages[idx]? = some p := by
  unfold load
  simp only [run_bind, run_get]
  split
  · next hhit =>
    rw [Std.TreeMap.contains_eq_isSome_getElem?, Option.isSome_iff_exists] at hhit
    exact ⟨c, rfl, h, hhit⟩
  next hmiss =>
  have hmiss' : c.pages[idx]? = none := by
    simpa using hmiss
  obtain ⟨c1, hroom, h1, hnone⟩ := makeRoom_spec h readAhead
  obtain ⟨c2, hc2⟩ : ∃ c2 : BlockCache, c2 = { c1 with tick := c1.tick + 1 } := ⟨_, rfl⟩
  have h2 : Shows lim c2 v := h1.congr (fun k => by rw [hc2]; rfl) (by rw [hc2]) (by rw [hc2])
  have hnone2 : c2.pages[idx]? = none := by
    rw [hc2]
    exact hnone idx hmiss'
  obtain ⟨hn, hahead⟩ := ahead_spec idx (readAhead - 1) 1
  generalize hlen : c2.ahead idx (readAhead - 1) 1 = n at hn hahead
  have hgap : ∀ i, i < n → c2.pages[idx + i]? = none := by
    intro i hi
    rcases Nat.eq_zero_or_pos i with rfl | hpos
    · exact hnone2
    · exact (hahead i hpos hi).2
  have hinside : ∀ i, i < n → (idx + i + 1) * pageSize ≤ lim := by
    intro i hi
    rcases Nat.eq_zero_or_pos i with rfl | hpos
    · exact hin
    · exact Nat.le_trans (mul_le_mul_right pageSize (hahead i hpos hi).1) h2.total
  have hfit : (idx + n) * pageSize ≤ c2.dev.limit := by
    rw [h2.limit]
    have := hinside (n - 1) (by omega)
    rwa [show idx + (n - 1) + 1 = idx + n by omega] at this
  obtain ⟨buf, hread, hbuf⟩ := devRead_spec hfit
  obtain ⟨c', hfill, hdev, htot, hlines⟩ := fill_spec idx (c1.tick + 1) buf n c2
  have hnew : ∀ {k}, idx ≤ k ∧ k < idx + n → ∃ i, k = idx + i ∧ i < n := fun {k} hk =>
    ⟨k - idx, by omega, by omega⟩
  refine ⟨c', ?_, h2.moved (fun k => ?_) (by rw [hdev]) htot fun k p hp => ?_, ?_⟩
  · simp only [run_bind, hroom, touch_spec, ← hc2, run_get, hlen, hread, hfill, Bool.not_true,
      Bool.false_eq_true, if_false]
  · rw [hlines, hdev]
    split
    · next hk =>
      obtain ⟨i, rfl, hi⟩ := hnew hk
      rw [lines_eq_none.mpr (hgap i hi), Nat.add_sub_cancel_left, hbuf i hi]
      exact .fetched _
    · exact .same _ _
  · have hk := hlines k
    split at hk
    · next hin' =>
      obtain ⟨i, rfl, hi⟩ := hnew hin'
      exact hinside i hi
    · rw [lines_eq_some.mpr ⟨p, hp, rfl⟩] at hk
      obtain ⟨q, hq, _⟩ := lines_eq_some.mp hk.symm
      exact h2.inside k q hq
  · have hk := hlines idx
    rw [if_pos (by omega)] at hk
    obtain ⟨p, hp, _⟩ := lines_eq_some.mp hk
    exact ⟨p, hp⟩

/-- A page that is about to be overwritten as a whole is not read. -/
theorem load_blank_spec (h : Shows lim c v) (idx : Nat) :
    ∃ c' c1, load idx false c = .ok () c' ∧ Shows lim c1 v ∧ c'.dev = c1.dev ∧
      c'.pagesTotal = c1.pagesTotal ∧ (∀ k : Nat, k ≠ idx → c'.pages[k]? = c1.pages[k]?) ∧
      ∃ p, c'.pages[idx]? = some p := by
  unfold load
  simp only [run_bind, run_get]
  split
  · next hhit =>
    rw [Std.TreeMap.contains_eq_isSome_getElem?, Option.isSome_iff_exists] at hhit
    exact ⟨c, c, rfl, h, rfl, rfl, fun _ _ => rfl, hhit⟩
  obtain ⟨c1, hroom, h1, _⟩ := makeRoom_spec h readAhead
  refine ⟨put { c1 with tick := c1.tick + 1 } idx
    ⟨Vector.replicate pageSize 0, false, c1.tick + 1⟩, c1, ?_, h1, rfl, rfl, ?_, ?_⟩
  · simp only [run_bind, hroom, touch_spec, Bool.not_false, if_true, insert, run_modify]
  · intro k hk
    rw [put_pages, if_neg hk]
  · exact ⟨_, by rw [put_pages, if_pos rfl]⟩

theorem bytesOf_add (hx : pos % pageSize + x < pageSize) :
    bytesOf v (pos + x) = (v (pos / pageSize)).get ⟨pos % pageSize + x, hx⟩ := by
  have := div_add_mod pos pageSize
  have hsum : pos + x = pageSize * (pos / pageSize) + (pos % pageSize + x) := by omega
  have hdiv : (pos + x) / pageSize = pos / pageSize := by
    rw [hsum, Nat.mul_add_div pageSize_pos, Nat.div_eq_of_lt hx, add_zero]
  have hrem : (pos + x) % pageSize = pos % pageSize + x := by
    rw [hsum, Nat.mul_add_mod, Nat.mod_eq_of_lt hx]
  simp only [bytesOf, hdiv, hrem]

theorem slice_eq (hn : pos % pageSize + n ≤ pageSize) :
    slice (v (pos / pageSize)) (pos % pageSize) n = (range n).map fun x => bytesOf v (pos + x) := by
  apply ext_getElem
  · simp only [slice, length_take, length_drop, Vector.length_toList, length_map, length_range]
    omega
  intro i h1 h2
  have hi : i < n := by simpa using h2
  simp only [slice, getElem_take, getElem_drop, getElem_map, getElem_range]
  rw [bytesOf_add (by omega)]
  rfl

/-- Every page the bytes lie in is where the device's commands succeed. -/
def Within (lim offset len : Nat) : Prop :=
  ∀ pos, offset ≤ pos → pos < offset + len → (pos / pageSize + 1) * pageSize ≤ lim

theorem readLoop_spec (hin : Within lim offset len) :
    ∀ (fuel done : Nat) (buf : List UInt8) {c : BlockCache}, len - done ≤ fuel → Shows lim c v →
      ∃ c', readLoop offset len fuel done buf c
        = .ok (buf ++ (range' done (len - done)).map fun i => bytesOf v (offset + i)) c' ∧
        Shows lim c' v := by
  intro fuel
  induction fuel with
  | zero =>
    intro done buf c hfuel h
    have hz : len - done = 0 := by omega
    refine ⟨c, ?_, h⟩
    rw [hz, range'_zero, map_nil, append_nil]
    rfl
  | succ fuel ih =>
    intro done buf c hfuel h
    rw [readLoop]
    split
    · next hlt =>
      generalize hpos : offset + done = pos
      have := mod_lt pos pageSize_pos
      generalize hn : min (pageSize - pos % pageSize) (len - done) = n
      obtain ⟨c1, hload, h1, p, hp⟩ := load_spec h (hin pos (by omega) (by omega))
      have hp' : ({ c1 with tick := c1.tick + 1 } : BlockCache).pages[pos / pageSize]? = some p := hp
      have h2 : Shows lim (put { c1 with tick := c1.tick + 1 } (pos / pageSize)
          { p with lastUse := c1.tick + 1 }) v := by
        refine h1.congr (fun k => ?_) rfl rfl
        simp only [lines, put_pages]
        by_cases hk : k = pos / pageSize
        · rw [if_pos hk, hk, hp]
          rfl
        · rw [if_neg hk]
      obtain ⟨c', hrest, h'⟩ := ih (done + n) (buf ++ slice p.data (pos % pageSize) n) (by omega) h2
      have hchunk : slice p.data (pos % pageSize) n
          = (range' done n).map fun i => bytesOf v (offset + i) := by
        rw [← h1.page_eq hp, slice_eq (by omega), range'_eq_map_range, map_map, ← hpos]
        simp only [Function.comp_def, add_assoc]
      have hsplit : len - done = n + (len - (done + n)) := by omega
      refine ⟨c', ?_, h'⟩
      simp only [run_bind, hn, hload, touch_spec, expectPage_spec hp', putPage, run_modify, hrest]
      rw [hchunk, hsplit, ← range'_append_1, map_append, append_assoc]
    · next hge =>
      have hz : len - done = 0 := by omega
      refine ⟨c, ?_, h⟩
      rw [hz, range'_zero, map_nil, append_nil]
      rfl

theorem read_spec (hin : Within lim offset len) (h : Shows lim c v) :
    ∃ c', read offset len c = .ok ((range len).map fun i => bytesOf v (offset + i)) c' ∧
      Shows lim c' v := by
  obtain ⟨c', hrun, h'⟩ := readLoop_spec hin len 0 [] (Nat.le_refl _) h
  refine ⟨c', ?_, h'⟩
  rw [nil_append, Nat.sub_zero, ← range_eq_range'] at hrun
  exact hrun

theorem overlay_append (bytes : Nat → UInt8) (start : Nat) (a b : List UInt8) :
    overlay (overlay bytes start a) (start + a.length) b = overlay bytes start (a ++ b) := by
  funext x
  simp only [overlay, length_append]
  by_cases hb : start + a.length ≤ x ∧ x < start + a.length + b.length
  · rw [if_pos hb, if_pos (by omega), getD_append_right _ _ _ _ (by omega)]
    congr 1
    omega
  · rw [if_neg hb]
    by_cases ha : start ≤ x ∧ x < start + a.length
    · rw [if_pos ha, if_pos (by omega), getD_append _ _ _ _ (by omega)]
    · rw [if_neg ha, if_neg (by omega)]

theorem bytesOf_splice {chunk : List UInt8} (hn : pos % pageSize + chunk.length ≤ pageSize) :
    bytesOf (Function.update v (pos / pageSize)
      (splice (v (pos / pageSize)) (pos % pageSize) chunk)) = overlay (bytesOf v) pos chunk := by
  funext a
  have := div_add_mod pos pageSize
  have ha := div_add_mod a pageSize
  rw [overlay, bytesOf]
  by_cases hk : a / pageSize = pos / pageSize
  · rw [hk] at ha
    have hin : pos % pageSize ≤ a % pageSize ∧ a % pageSize < pos % pageSize + chunk.length ↔
        pos ≤ a ∧ a < pos + chunk.length := by omega
    have hsub : a % pageSize - pos % pageSize = a - pos := by omega
    rw [hk, Function.update_self, splice, get_ofFn]
    simp only [hin, hsub, bytesOf, hk]
    rfl
  · rw [Function.update_of_ne hk, if_neg]
    · rfl
    rintro ⟨h1, h2⟩
    apply hk
    obtain ⟨d, rfl⟩ := Nat.exists_eq_add_of_le h1
    have hsum : pos + d = pageSize * (pos / pageSize) + (pos % pageSize + d) := by omega
    have hd : (pos % pageSize + d) / pageSize = 0 := Nat.div_eq_of_lt (by omega)
    rw [hsum, Nat.mul_add_div pageSize_pos, hd, add_zero]

/-- A page is changed. -/
theorem Shows.put (h : Shows lim c v) (c' : BlockCache)
    (hin : (idx + 1) * pageSize ≤ lim) (hd : c'.dev = c.dev) (ht : c'.pagesTotal = c.pagesTotal)
    (hp : ∀ k : Nat, k ≠ idx → c'.pages[k]? = c.pages[k]?) (data : PageData) (t : Nat) :
    Shows lim (c'.put idx ⟨data, true, t⟩) (Function.update v idx data) := by
  have hlines : ∀ k, (c'.put idx ⟨data, true, t⟩).lines k
      = if k = idx then some ⟨data, true⟩ else c.lines k := by
    intro k
    simp only [lines, put_pages]
    by_cases hk : k = idx
    · simp [hk]
    · simp [hk, hp k hk]
  have hdev : (c'.put idx ⟨data, true, t⟩).dev = c.dev := hd
  constructor
  · rw [hdev]
    exact Lib.WriteBack.coherent_update hlines h.coherent
  · rw [hdev, Lib.WriteBack.view_update hlines, h.view]
  · rw [hdev]
    exact h.limit
  · have htot : (c'.put idx ⟨data, true, t⟩).pagesTotal = c.pagesTotal := ht
    rw [htot]
    exact h.total
  · intro k p hk
    rw [put_pages] at hk
    split at hk
    · next he =>
      rw [he]
      exact hin
    · next hne =>
      rw [hp k hne] at hk
      exact h.inside k p hk

theorem load_put_spec (h : Shows lim c v) (chunk : List UInt8)
    (hin : (pos / pageSize + 1) * pageSize ≤ lim) (hn : pos % pageSize + chunk.length ≤ pageSize) :
    ∃ c1 p, load (pos / pageSize) (chunk.length != pageSize) c = .ok () c1 ∧
      c1.pages[pos / pageSize]? = some p ∧ ∀ t, Shows lim (put { c1 with tick := t }
        (pos / pageSize) ⟨splice p.data (pos % pageSize) chunk, true, t⟩)
        (Function.update v (pos / pageSize) (splice (v (pos / pageSize)) (pos % pageSize) chunk)) := by
  by_cases hwhole : chunk.length = pageSize
  · obtain ⟨c1, c0, hload, h0, hd, ht, hp, p, hpage⟩ := load_blank_spec h (pos / pageSize)
    -- nothing of the old contents is left
    have hsplice : ∀ a b : PageData, splice a (pos % pageSize) chunk = splice b (pos % pageSize) chunk := by
      intro a b
      apply page_ext
      intro x
      simp only [splice, get_ofFn]
      rw [if_pos (by omega), if_pos (by omega)]
    refine ⟨c1, p, by simpa [hwhole] using hload, hpage, fun t => ?_⟩
    rw [hsplice p.data (v (pos / pageSize))]
    exact h0.put { c1 with tick := t } hin hd ht hp _ t
  · obtain ⟨c1, hload, h1, p, hpage⟩ := load_spec h hin
    have hne : (chunk.length != pageSize) = true := by simpa using hwhole
    refine ⟨c1, p, by rw [hne]; exact hload, hpage, fun t => ?_⟩
    rw [h1.page_eq hpage]
    exact h1.put { c1 with tick := t } hin rfl rfl (fun _ _ => rfl) _ t

theorem writeLoop_spec (hin : Within lim offset buf.length) :
    ∀ (fuel done : Nat) {c : BlockCache} {v : Nat → PageData}, buf.length - done ≤ fuel →
      Shows lim c v → ∃ c' v', writeLoop offset buf fuel done c = .ok () c' ∧ Shows lim c' v' ∧
        bytesOf v' = overlay (bytesOf v) (offset + done) (buf.drop done) := by
  have hnil : ∀ {done : Nat} (bytes : Nat → UInt8), buf.length ≤ done →
      overlay bytes (offset + done) (buf.drop done) = bytes := by
    intro done bytes hle
    funext a
    rw [drop_eq_nil_of_le hle, overlay, if_neg]
    simp
  intro fuel
  induction fuel with
  | zero =>
    intro done c v hfuel h
    exact ⟨c, v, rfl, h, (hnil _ (by omega)).symm⟩
  | succ fuel ih =>
    intro done c v hfuel h
    rw [writeLoop]
    split
    · next hlt =>
      generalize hpos : offset + done = pos
      have := mod_lt pos pageSize_pos
      generalize hn : min (pageSize - pos % pageSize) (buf.length - done) = n
      have hchunk : ((buf.drop done).take n).length = n := by
        rw [length_take, length_drop]
        omega
      obtain ⟨c1, p, hload, hp, hput⟩ := load_put_spec h ((buf.drop done).take n)
        (hin pos (by omega) (by omega)) (by omega)
      rw [hchunk] at hload
      have hp' : ({ c1 with tick := c1.tick + 1 } : BlockCache).pages[pos / pageSize]? = some p := hp
      obtain ⟨c', v', hrest, h', hv'⟩ := ih (done + n) (by omega) (hput (c1.tick + 1))
      refine ⟨c', v', ?_, h', ?_⟩
      · simp only [run_bind, hn, hload, touch_spec, expectPage_spec hp', putPage, run_modify, hrest]
      have hsplit : buf.drop done = (buf.drop done).take n ++ buf.drop (done + n) := by
        rw [← drop_drop, take_append_drop]
      rw [hv', bytesOf_splice (by omega)]
      conv_rhs => rw [hsplit, ← overlay_append, hchunk]
      rw [← hpos, add_assoc]
    · next hge => exact ⟨c, v, rfl, h, (hnil _ (by omega)).symm⟩

theorem write_spec (hin : Within lim offset buf.length)
    (h : Shows lim c v) : ∃ c' v', write offset buf c = .ok () c' ∧ Shows lim c' v' ∧
      bytesOf v' = overlay (bytesOf v) offset buf := by
  obtain ⟨c', v', hrun, h', hv⟩ := writeLoop_spec hin buf.length 0 (Nat.sub_le _ _) h
  exact ⟨c', v', hrun, h', by simpa using hv⟩

theorem dropClean_spec (h : Shows lim c v) : ∃ c', dropClean c = .ok () c' ∧ Shows lim c' v := by
  have hpages : ∀ k : Nat, (c.pages.filter fun _ p => p.dirty)[k]?
      = (c.pages[k]?).filter fun p => p.dirty := fun k => Std.TreeMap.getElem?_filter'
  refine ⟨{ c with pages := c.pages.filter fun _ p => p.dirty }, rfl,
    h.moved (fun k => ?_) rfl rfl fun k p hp => ?_⟩
  · simp only [lines, hpages]
    cases hk : c.pages[k]? with
    | none => exact .same _ _
    | some p =>
      cases hd : p.dirty with
      | true =>
        simp only [Option.filter_some, hd, if_true]
        exact .same _ _
      | false =>
        simp only [Option.filter_some, hd]
        exact .dropped ⟨p.data, p.dirty⟩ _ hd
  · rw [hpages] at hp
    exact h.inside k p (Option.filter_eq_some_iff.mp hp).1

/-- What a call answers on a plain sequence of bytes. -/
def Call.answer (bytes : Nat → UInt8) : Call → List UInt8
  | .read offset len => (List.range len).map fun i => bytes (offset + i)
  | _ => []

/-- The bytes after a call. -/
def Call.effect (bytes : Nat → UInt8) : Call → Nat → UInt8
  | .write offset buf => overlay bytes offset buf
  | _ => bytes

def answers (bytes : Nat → UInt8) : List Call → List (List UInt8)
  | [] => []
  | c :: rest => c.answer bytes :: answers (c.effect bytes) rest

/-- The initial bytes overlaid with all the writes. -/
def contents (bytes : Nat → UInt8) (cs : List Call) : Nat → UInt8 := cs.foldl Call.effect bytes

/-- The call stays where the device's commands succeed. -/
def Call.Inside (lim : Nat) : Call → Prop
  | .read offset len => Within lim offset len
  | .write offset buf => Within lim offset buf.length
  | _ => True

theorem call_spec (h : Shows lim c v) {k : Call} (hin : k.Inside lim) :
    ∃ c' v', call k c = .ok (k.answer (bytesOf v)) c' ∧ Shows lim c' v' ∧
      bytesOf v' = k.effect (bytesOf v) := by
  cases k with
  | read offset len =>
    obtain ⟨c', hrun, h'⟩ := read_spec hin h
    exact ⟨c', v, hrun, h', rfl⟩
  | write offset buf =>
    obtain ⟨c', v', hrun, h', hv⟩ := write_spec hin h
    exact ⟨c', v', by simp only [call, run_bind, hrun]; rfl, h', hv⟩
  | writeback =>
    obtain ⟨c', hrun, h', _⟩ := writeback_spec h
    exact ⟨c', v, by simp only [call, run_bind, hrun]; rfl, h', rfl⟩
  | flush =>
    obtain ⟨c', hrun, h', _⟩ := writeback_spec h
    exact ⟨c', v, by simp only [call, flush, run_bind, hrun]; rfl, h', rfl⟩
  | dropClean =>
    obtain ⟨c', hrun, h'⟩ := dropClean_spec h
    exact ⟨c', v, by simp only [call, run_bind, hrun]; rfl, h', rfl⟩

theorem calls_spec : ∀ (cs : List Call) {c : BlockCache} {v : Nat → PageData}, Shows lim c v →
    (∀ k ∈ cs, k.Inside lim) →
    ∃ c' v', calls cs c = .ok (answers (bytesOf v) cs) c' ∧ Shows lim c' v' ∧
      bytesOf v' = contents (bytesOf v) cs := by
  intro cs
  induction cs with
  | nil => exact fun {c v} h _ => ⟨c, v, rfl, h, rfl⟩
  | cons k rest ih =>
    intro c v h hin
    obtain ⟨c1, v1, hrun1, h1, hv1⟩ := call_spec h (hin k mem_cons_self)
    obtain ⟨c', v', hrun, h', hv⟩ := ih h1 fun j hj => hin j (mem_cons_of_mem k hj)
    refine ⟨c', v', ?_, h', ?_⟩
    · simp only [calls, run_bind, hrun1, hrun, hv1]
      rfl
    · rw [hv, hv1]
      rfl

theorem shows_new (dev : Device) (capacity : Nat) :
    Shows dev.limit (.new dev capacity) dev.page := by
  have hlines : ∀ k, (new dev capacity).lines k = none := by
    intro k
    simp [lines, new]
  refine ⟨fun k l hl => ?_, ?_, rfl, ?_, fun k p hp => ?_⟩
  · rw [hlines] at hl
    cases hl
  · funext k
    rfl
  · have hdiv := Nat.div_mul_le_self dev.sectors sectorsPerPage
    have hmul := mul_le_mul_right sectorSize hdiv
    rw [mul_assoc] at hmul
    exact Nat.le_trans hmul dev.reach
  · have := lines_eq_none.mp (hlines k)
    cases hp

/-- After any calls the cache has answered as the device alone would have. Then a
flush brings the device up to date, and a dirty page that another call throws out of
the cache is on the device with what that call leaves of it. -/
theorem block_cache_transparent (dev : Device) (capacity : Nat) (cs : List Call)
    (hin : ∀ k ∈ cs, k.Inside dev.limit) :
    ∃ c, calls cs (.new dev capacity) = .ok (answers dev.bytes cs) c ∧
      (∃ c', flush c = .ok () c' ∧ c'.dev.bytes = contents dev.bytes cs) ∧
      ∀ k : Call, k.Inside dev.limit → ∃ a c', call k c = .ok a c' ∧
        ∀ (idx : Nat) (p : Page), c.pages[idx]? = some p → p.dirty = true → c'.pages[idx]? = none →
          ∀ x, x < pageSize → c'.dev.bytes (idx * pageSize + x)
            = k.effect (contents dev.bytes cs) (idx * pageSize + x) := by
  obtain ⟨c, v, hrun, h, hv⟩ := calls_spec cs (shows_new dev capacity) hin
  rw [bytesOf_page] at hrun hv
  refine ⟨c, hrun, ?_, fun k hk => ?_⟩
  · obtain ⟨c', hflush, h', _, hclean⟩ := writeback_spec h
    refine ⟨c', hflush, ?_⟩
    rw [← hv, ← h'.view, ← bytesOf_page, Lib.WriteBack.view_of_clean h'.coherent]
    intro j l hl
    obtain ⟨p, hp, rfl⟩ := lines_eq_some.mp hl
    exact hclean j p hp
  obtain ⟨c', v', hcall, h', hv'⟩ := call_spec h hk
  refine ⟨_, c', hcall, fun idx p _ _ hnone x hx => ?_⟩
  rw [← hv, ← hv', ← h'.view]
  have hdiv : (idx * pageSize + x) / pageSize = idx := by
    rw [Nat.mul_comm, Nat.mul_add_div pageSize_pos, Nat.div_eq_of_lt hx, add_zero]
  rw [bytesOf, hdiv, view, lines_eq_none.mpr hnone]
  have hbytes := congrFun (bytesOf_page c'.dev) (idx * pageSize + x)
  rw [bytesOf, hdiv] at hbytes
  exact hbytes.symm

/-- Two pages, of which the second is read ahead. -/
theorem block_cache_transparent_two :
    ∃ c, calls [.read 0 10, .write 4000 [1, 2], .flush, .dropClean]
        (.new ⟨16, fun a => UInt8.ofNat a, 8192, by decide⟩ 64) = .ok (answers (fun a => UInt8.ofNat a)
          [.read 0 10, .write 4000 [1, 2], .flush, .dropClean]) c ∧
      (∃ c', flush c = .ok () c' ∧ c'.dev.bytes = contents (fun a => UInt8.ofNat a)
        [.read 0 10, .write 4000 [1, 2], .flush, .dropClean]) ∧
      ∃ a c', call (.write 0 [5]) c = .ok a c' ∧
        ∀ (idx : Nat) (p : Page), c.pages[idx]? = some p → p.dirty = true → c'.pages[idx]? = none →
          ∀ x, x < pageSize → c'.dev.bytes (idx * pageSize + x) = (Call.write 0 [5]).effect
            (contents (fun a => UInt8.ofNat a) [.read 0 10, .write 4000 [1, 2], .flush, .dropClean])
            (idx * pageSize + x) := by
  have hin : ∀ k ∈ [Call.read 0 10, .write 4000 [1, 2], .flush, .dropClean], k.Inside 8192 := by
    intro k hk
    simp only [mem_cons, not_mem_nil, or_false] at hk
    rcases hk with rfl | rfl | rfl | rfl
    · intro pos _ hlt
      simp only [pageSize]
      omega
    · intro pos _ hlt
      simp only [length_cons, length_nil] at hlt
      simp only [pageSize]
      omega
    · trivial
    · trivial
  obtain ⟨c, hrun, hflush, hout⟩ :=
    block_cache_transparent ⟨16, fun a => UInt8.ofNat a, 8192, by decide⟩ 64 _ hin
  refine ⟨c, hrun, hflush, hout (.write 0 [5]) fun pos _ hlt => ?_⟩
  simp only [length_cons, length_nil] at hlt
  simp only [pageSize]
  omega

end Fastros.Fs.Bcache
