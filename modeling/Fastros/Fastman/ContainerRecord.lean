import Fastros.Fastman.Container

/-!
# Reading a container record back

A record whose texts have no tab and no newline is read back field by field, up to a
carriage return at the end of a line. The texts of a record that was read have no tab and
no newline, so no other container is read back as it was.
-/

namespace Fastros.Fastman.Container

open Lib.Texts
open List hiding get set modify

variable {c d : Container} {P : Text → Prop}

theorem parse_word (k : Key) : Key.parse k.word.toList = some k := by
  cases k <;> rfl

theorem not_mem_word (k : Key) : '\t' ∉ k.word.toList ∧ '\n' ∉ k.word.toList := by
  cases k <;> decide

theorem parse_asStr (s : State) : State.parse s.asStr = s := by
  cases s <;> rfl

theorem stripCr_asStr (s : State) : stripCr s.asStr = s.asStr := by
  cases s <;> decide

theorem flag_eq_one (b : Bool) : decide (flag b = ['1']) = b := by
  cases b <;> decide

theorem stripCr_flag (b : Bool) : stripCr (flag b) = flag b := by
  cases b <;> decide

theorem stripCr_decimal (n : Nat) : stripCr (decimal n) = decimal n :=
  stripCr_self.mpr fun h => not_mem_decimal (by decide) (mem_of_getLast? h)

theorem stripCr_decimalInt (z : Int) : stripCr (decimalInt z) = decimalInt z :=
  stripCr_self.mpr fun h => not_mem_decimalInt (by decide) (by decide) (mem_of_getLast? h)

theorem parse16_decimal (x : UInt16) : parse16 (decimal x.toNat) = some x := by
  have h := x.toNat_lt
  rw [parse16, parseNat_decimal (by omega), Option.map_some, UInt16.ofNat_toNat]

theorem parse32_decimal (x : UInt32) : parse32 (decimal x.toNat) = some x := by
  have h := x.toNat_lt
  rw [parse32, parseNat_decimal (by omega), Option.map_some, UInt32.ofNat_toNat]

theorem parse64_decimal (x : UInt64) : parse64 (decimal x.toNat) = some x := by
  have h := x.toNat_lt
  rw [parse64, parseNat_decimal (by omega), Option.map_some, UInt64.ofNat_toNat]

theorem parseI32_decimalInt (x : Int32) : parseI32 (decimalInt x.toInt) = some x := by
  have h1 := x.le_toInt
  have h2 := x.toInt_lt
  rw [parseI32, parseInt_decimalInt h1 h2, Option.map_some, Int32.ofInt_toInt]

/-- All texts of a container have a property. -/
structure All (P : Text → Prop) (c : Container) : Prop where
  id : P c.id
  name : P c.name
  imageKey : P c.imageKey
  imageId : P c.imageId
  cmd : ∀ x ∈ c.cmd, P x
  env : ∀ x ∈ c.env, P x
  workdir : P c.workdir
  volumes : ∀ v ∈ c.volumes, P v.host ∧ P v.container
  network : P c.network
  healthCmd : P c.healthCmd
  healthStatus : P c.healthStatus
  restartPolicy : P c.restartPolicy
  hostname : P c.hostname
  labels : ∀ l ∈ c.labels, P l.1 ∧ P l.2

/-- All texts that end a line have a property. -/
structure Ends (P : Text → Prop) (c : Container) : Prop where
  id : P c.id
  name : P c.name
  imageKey : P c.imageKey
  imageId : P c.imageId
  cmd : ∀ x ∈ c.cmd, P x
  env : ∀ x ∈ c.env, P x
  workdir : P c.workdir
  network : P c.network
  healthCmd : P c.healthCmd
  healthStatus : P c.healthStatus
  restartPolicy : P c.restartPolicy
  hostname : P c.hostname
  labels : ∀ l ∈ c.labels, P l.2

/-- Neither a tab nor a newline. -/
def Free (s : Text) : Prop := '\t' ∉ s ∧ '\n' ∉ s

/-- A record is kept if its texts have no separator and no line ends in a carriage return. -/
structure Kept (c : Container) : Prop where
  free : All Free c
  ends : Ends (fun s => s.getLast? ≠ some '\r') c

/-- Health numbers come with a health command, or a health status. -/
structure HealthSet (c : Container) : Prop where
  cmd : c.healthCmd = [] → c.healthInterval = 0 ∧ c.healthTimeout = 0 ∧ c.healthRetries = 0
  status : c.healthStatus = [] → c.healthFails = 0

theorem free_decimal (n : Nat) : Free (decimal n) :=
  ⟨not_mem_decimal (by decide), not_mem_decimal (by decide)⟩

theorem free_decimalInt (z : Int) : Free (decimalInt z) :=
  ⟨not_mem_decimalInt (by decide) (by decide), not_mem_decimalInt (by decide) (by decide)⟩

theorem free_flag (b : Bool) : Free (flag b) := by
  cases b <;> exact ⟨by decide, by decide⟩

theorem free_asStr (s : State) : Free s.asStr := by
  cases s <;> exact ⟨by decide, by decide⟩

theorem set_free (h : All Free c) (k : Key) {rest : List Text} (hrest : ∀ t ∈ rest, Free t) :
    All Free (c.set k rest) := by
  have hnil : Free [] := ⟨not_mem_nil, not_mem_nil⟩
  have hget : ∀ i : Nat, Free (rest[i]?.getD []) := by
    intro i
    cases hi : rest[i]? with
    | none => exact hnil
    | some t => exact hrest t (mem_of_getElem? hi)
  have hv : Free (rest.headD []) := by
    rw [headD_eq_head?_getD, head?_eq_getElem?]
    exact hget 0
  have hpush : ∀ {xs : List Text}, (∀ x ∈ xs, Free x) → ∀ x ∈ xs ++ [rest.headD []], Free x := by
    intro xs hxs x hx
    rcases mem_append.mp hx with hx | hx
    · exact hxs x hx
    · rw [mem_singleton.mp hx]
      exact hv
  cases k with
  | id => exact { h with id := hv }
  | name => exact { h with name := hv }
  | imageKey => exact { h with imageKey := hv }
  | imageId => exact { h with imageId := hv }
  | workdir => exact { h with workdir := hv }
  | network => exact { h with network := hv }
  | cmd => exact { h with cmd := hpush h.cmd }
  | env => exact { h with env := hpush h.env }
  | healthCmd => exact { h with healthCmd := hv }
  | healthStatus => exact { h with healthStatus := hv }
  | restartPolicy => exact { h with restartPolicy := hv }
  | hostname => exact { h with hostname := hv }
  | volume =>
    refine { h with volumes := ?_ }
    intro v hmem
    rcases mem_append.mp hmem with hmem | hmem
    · exact h.volumes v hmem
    · rw [mem_singleton.mp hmem]
      exact ⟨hv, hget 1⟩
  | label =>
    rw [set]
    cases hval : rest[1]? with
    | none => exact h
    | some val =>
      refine { h with labels := ?_ }
      intro l hmem
      rcases mem_append.mp hmem with hmem | hmem
      · exact h.labels l hmem
      · rw [mem_singleton.mp hmem]
        exact ⟨hv, hrest val (mem_of_getElem? hval)⟩
  | port | remap =>
    rw [set]
    split
    · exact { h with }
    · exact h
  | _ => exact { h with }

theorem foldl_free (fss : List (List Text)) : ∀ c, All Free c → (∀ fs ∈ fss, ∀ t ∈ fs, Free t) →
    All Free (fss.foldl take c) := by
  induction fss with
  | nil => exact fun c h _ => h
  | cons fs fss ih =>
    intro c h hfss
    apply ih _ _ fun x hx => hfss x (mem_cons_of_mem fs hx)
    rw [take]
    split
    · exact set_free h _ fun t ht => hfss fs mem_cons_self t (mem_of_mem_tail ht)
    · exact h

theorem initial_free : All Free initial := by
  constructor <;> first
    | exact ⟨by decide, by decide⟩
    | exact fun _ h => absurd h not_mem_nil

/-- The texts of a container that was read have no tab and no newline. -/
theorem decode_free {text : Text} (h : decode text = some c) : All Free c := by
  have hall : All Free (((lines text).map (splitOn '\t')).foldl take initial) := by
    apply foldl_free _ _ initial_free
    intro fs hfs t ht
    obtain ⟨l, hl, rfl⟩ := mem_map.mp hfs
    exact ⟨not_mem_splitOn ht, fun hc => not_mem_of_mem_lines hl (mem_of_splitOn ht hc)⟩
  rw [decode] at h
  split at h
  · exact absurd h (by simp)
  · exact Option.some.inj h ▸ hall

/-- Each line has a value, and no value of a free container has a separator. -/
theorem entries_free (h : All Free c) : ∀ e ∈ c.entries, e.2 ≠ [] ∧ ∀ t ∈ e.2, Free t := by
  have hdec := free_decimal
  have hone : Free ['1'] := free_flag true
  intro e he
  obtain ⟨g, hg, heg⟩ := mem_flatten.mp he
  simp only [groups, mem_cons, not_mem_nil, or_false] at hg
  rcases hg with rfl | rfl | rfl | rfl | rfl | rfl | rfl | rfl | rfl | rfl | rfl | rfl | rfl | rfl | rfl | rfl
  · simp only [mem_cons, not_mem_nil, or_false] at heg
    rcases heg with rfl | rfl | rfl | rfl | rfl | rfl | rfl | rfl | rfl | rfl | rfl | rfl <;>
      simp [h.id, h.name, h.imageKey, h.imageId, h.workdir, h.network, hdec, free_decimalInt, free_flag, free_asStr]
  · obtain ⟨x, hx, rfl⟩ := mem_map.mp heg
    simpa using h.cmd x hx
  · obtain ⟨x, hx, rfl⟩ := mem_map.mp heg
    simpa using h.env x hx
  · obtain ⟨p, -, rfl⟩ := mem_map.mp heg
    simp [hdec, free_flag]
  · obtain ⟨v, hv, rfl⟩ := mem_map.mp heg
    simp [h.volumes v hv, free_flag]
  · obtain ⟨p, -, rfl⟩ := mem_map.mp heg
    simp [hdec]
  all_goals first
    | (obtain ⟨l, hl, rfl⟩ := mem_map.mp heg
       simp [h.labels l hl])
    | (split at heg
       all_goals simp only [mem_cons, not_mem_nil, or_false] at heg
       all_goals first
         | (subst heg; simp [hdec, hone, h.restartPolicy, h.hostname])
         | (rcases heg with rfl | rfl | rfl | rfl <;> simp [hdec, h.healthCmd]; done)
         | (rcases heg with rfl | rfl <;> simp [hdec, h.healthStatus]))

/-- One line of a record, as it is read. -/
def step (d : Container) (e : Key × List Text) : Container := d.set e.1 (stripLast e.2)

theorem decode_encode_free (h : All Free c) :
    decode c.encode = if (c.entries.foldl step initial).id = [] then none
      else some (c.entries.foldl step initial) := by
  have hentries := entries_free h
  have hlines : (lines c.encode).map (splitOn '\t')
      = c.entries.map fun e => stripLast (e.1.word.toList :: e.2) := by
    have hread := fields_lines '\t' (c.entries.map fun e => e.1.word.toList :: e.2) (by decide) (by decide) ?_
    · rw [flatMap_map, map_map] at hread
      exact hread
    intro fs hfs
    obtain ⟨e, he, rfl⟩ := mem_map.mp hfs
    refine ⟨cons_ne_nil _ _, ?_⟩
    rw [forall_mem_cons]
    exact ⟨not_mem_word e.1, (hentries e he).2⟩
  have hfold : ∀ (es : List (Key × List Text)) (d : Container), (∀ e ∈ es, e.2 ≠ []) →
      (es.map fun e => stripLast (e.1.word.toList :: e.2)).foldl take d = es.foldl step d := by
    intro es
    induction es with
    | nil => exact fun d _ => rfl
    | cons e es ih =>
      intro d hes
      obtain ⟨v, vs, hv⟩ := exists_cons_of_ne_nil (hes e mem_cons_self)
      have htake : take d (stripLast (e.1.word.toList :: e.2)) = step d e := by
        rw [step, hv]
        show take d (e.1.word.toList :: stripLast (v :: vs)) = _
        rw [take, headD_cons, parse_word]
        rfl
      rw [map_cons, foldl_cons, foldl_cons, htake, ih _ fun x hx => hes x (mem_cons_of_mem e hx)]
  rw [decode, hlines, hfold c.entries initial fun e he => (hentries e he).1]

/-- The container with no carriage return at the end of a line. -/
def normal (c : Container) : Container :=
  { c with
    id := stripCr c.id
    name := stripCr c.name
    imageKey := stripCr c.imageKey
    imageId := stripCr c.imageId
    cmd := c.cmd.map stripCr
    env := c.env.map stripCr
    workdir := stripCr c.workdir
    network := stripCr c.network
    healthCmd := stripCr c.healthCmd
    healthStatus := stripCr c.healthStatus
    restartPolicy := stripCr c.restartPolicy
    hostname := stripCr c.hostname
    labels := c.labels.map fun l => (l.1, stripCr l.2) }

theorem foldl_add {α β γ σ : Type} {s : σ → β → σ} {f : α → β} {g : α → γ} (add : σ → List γ → σ)
    (hnil : ∀ d, add d [] = d) (hcons : ∀ d x ys, add (s d (f x)) ys = add d (g x :: ys)) :
    ∀ (xs : List α) (d : σ), (xs.map f).foldl s d = add d (xs.map g) := by
  intro xs
  induction xs with
  | nil => exact fun d => (hnil d).symm
  | cons x xs ih =>
    intro d
    rw [map_cons, foldl_cons, ih, hcons, map_cons]

theorem foldl_cmd (xs : List Text) (d : Container) :
    (xs.map fun x => (Key.cmd, [x])).foldl step d = { d with cmd := d.cmd ++ xs.map stripCr } :=
  foldl_add (fun d ys => { d with cmd := d.cmd ++ ys }) (by simp) (by simp [step, set, stripLast]) xs d

theorem foldl_env (xs : List Text) (d : Container) :
    (xs.map fun x => (Key.env, [x])).foldl step d = { d with env := d.env ++ xs.map stripCr } :=
  foldl_add (fun d ys => { d with env := d.env ++ ys }) (by simp) (by simp [step, set, stripLast]) xs d

theorem foldl_ports (xs : List Port) (d : Container) :
    (xs.map fun p => (Key.port, [decimal p.host.toNat, decimal p.container.toNat, flag p.udp])).foldl step d
      = { d with ports := d.ports ++ xs } := by
  have h := foldl_add (s := step)
    (f := fun p : Port => (Key.port, [decimal p.host.toNat, decimal p.container.toNat, flag p.udp]))
    (g := fun p => p) (fun d ys => { d with ports := d.ports ++ ys }) (by simp)
    (by simp [step, set, stripLast, parse16_decimal, stripCr_flag, flag_eq_one]) xs d
  rw [h, map_id']

theorem foldl_volumes (xs : List Volume) (d : Container) :
    (xs.map fun v => (Key.volume, [v.host, v.container, flag v.readOnly])).foldl step d
      = { d with volumes := d.volumes ++ xs } := by
  have h := foldl_add (s := step)
    (f := fun v : Volume => (Key.volume, [v.host, v.container, flag v.readOnly]))
    (g := fun v => v) (fun d ys => { d with volumes := d.volumes ++ ys }) (by simp)
    (by simp [step, set, stripLast, stripCr_flag, flag_eq_one]) xs d
  rw [h, map_id']

theorem foldl_labels (xs : List (Text × Text)) (d : Container) :
    (xs.map fun l => (Key.label, [l.1, l.2])).foldl step d
      = { d with labels := d.labels ++ xs.map fun l => (l.1, stripCr l.2) } :=
  foldl_add (fun d ys => { d with labels := d.labels ++ ys }) (by simp) (by simp [step, set, stripLast]) xs d

theorem foldl_first (c d : Container) :
    ([(.id, [c.id]), (.name, [c.name]), (.imageKey, [c.imageKey]), (.imageId, [c.imageId]),
      (.state, [c.state.asStr]), (.pid, [decimal c.pid.toNat]), (.exitCode, [decimalInt c.exitCode.toInt]),
      (.created, [decimal c.created.toNat]), (.workdir, [c.workdir]), (.network, [c.network]),
      (.detach, [flag c.detach]), (.user, [decimal c.uid.toNat, decimal c.gid.toNat])]
      : List (Key × List Text)).foldl step d
      = { d with
          id := stripCr c.id
          name := stripCr c.name
          imageKey := stripCr c.imageKey
          imageId := stripCr c.imageId
          state := c.state
          pid := c.pid
          exitCode := c.exitCode
          created := c.created
          workdir := stripCr c.workdir
          network := stripCr c.network
          detach := c.detach
          uid := c.uid
          gid := c.gid } := by
  simp [step, set, stripLast, stripCr_decimal, stripCr_decimalInt, stripCr_asStr, stripCr_flag, parse_asStr,
    parse32_decimal, parse64_decimal, parseI32_decimalInt, flag_eq_one]

theorem foldl_unless {p : Prop} [Decidable p] (es : List (Key × List Text)) (d d' : Container)
    (hskip : p → d = d') (hset : ¬ p → es.foldl step d = d') :
    (if p then [] else es).foldl step d = d' := by
  split
  · next h => exact hskip h
  · next h => exact hset h

section

variable (c d)

theorem foldl_remap (h : d.portRemap = none) :
    (c.portRemap.toList.map fun p => (Key.remap, [decimal p.1.toNat, decimal p.2.toNat])).foldl step d
      = { d with portRemap := c.portRemap } := by
  cases hp : c.portRemap with
  | none =>
    show d = { d with portRemap := none }
    rw [← h]
  | some p => simp [step, set, stripLast, stripCr_decimal, parse16_decimal]

theorem foldl_memLimit (h : d.memLimit = 0) :
    (if c.memLimit = 0 then [] else [(Key.memLimit, [decimal c.memLimit.toNat])]).foldl step d
      = { d with memLimit := c.memLimit } :=
  foldl_unless _ _ _ (fun hz => by rw [hz, ← h])
    fun _ => by simp [step, set, stripLast, stripCr_decimal, parse64_decimal]

theorem foldl_capAdd (h : d.capAdd = 0) :
    (if c.capAdd = 0 then [] else [(Key.capAdd, [decimal c.capAdd.toNat])]).foldl step d
      = { d with capAdd := c.capAdd } :=
  foldl_unless _ _ _ (fun hz => by rw [hz, ← h])
    fun _ => by simp [step, set, stripLast, stripCr_decimal, parse64_decimal]

theorem foldl_capDrop (h : d.capDrop = 0) :
    (if c.capDrop = 0 then [] else [(Key.capDrop, [decimal c.capDrop.toNat])]).foldl step d
      = { d with capDrop := c.capDrop } :=
  foldl_unless _ _ _ (fun hz => by rw [hz, ← h])
    fun _ => by simp [step, set, stripLast, stripCr_decimal, parse64_decimal]

theorem foldl_pidsLimit (h : d.pidsLimit = 0) :
    (if c.pidsLimit = 0 then [] else [(Key.pidsLimit, [decimal c.pidsLimit.toNat])]).foldl step d
      = { d with pidsLimit := c.pidsLimit } :=
  foldl_unless _ _ _ (fun hz => by rw [hz, ← h])
    fun _ => by simp [step, set, stripLast, stripCr_decimal, parse32_decimal]

theorem stripCr_nil : stripCr [] = [] := rfl

theorem foldl_health (hh : HealthSet c) (h : d.healthCmd = []) (hi : d.healthInterval = 0)
    (ht : d.healthTimeout = 0) (hr : d.healthRetries = 0) :
    (if c.healthCmd = [] then [] else
      [(Key.healthCmd, [c.healthCmd]), (.healthInterval, [decimal c.healthInterval.toNat]),
        (.healthTimeout, [decimal c.healthTimeout.toNat]),
        (.healthRetries, [decimal c.healthRetries.toNat])]).foldl step d
      = { d with
          healthCmd := stripCr c.healthCmd
          healthInterval := c.healthInterval
          healthTimeout := c.healthTimeout
          healthRetries := c.healthRetries } := by
  apply foldl_unless
  · intro hz
    obtain ⟨h1, h2, h3⟩ := hh.cmd hz
    rw [hz, stripCr_nil, h1, h2, h3]
    cases d
    simp_all
  · intro _
    simp [step, set, stripLast, stripCr_decimal, parse32_decimal]

theorem foldl_status (hh : HealthSet c) (h : d.healthStatus = []) (hf : d.healthFails = 0) :
    (if c.healthStatus = [] then [] else
      [(Key.healthStatus, [c.healthStatus]), (.healthFails, [decimal c.healthFails.toNat])]).foldl step d
      = { d with healthStatus := stripCr c.healthStatus, healthFails := c.healthFails } := by
  apply foldl_unless
  · intro hz
    rw [hz, stripCr_nil, hh.status hz]
    cases d
    simp_all
  · intro _
    simp [step, set, stripLast, stripCr_decimal, parse32_decimal]

theorem foldl_restartPolicy (h : d.restartPolicy = []) :
    (if c.restartPolicy = [] then [] else [(Key.restartPolicy, [c.restartPolicy])]).foldl step d
      = { d with restartPolicy := stripCr c.restartPolicy } :=
  foldl_unless _ _ _ (fun hz => by rw [hz, stripCr_nil, ← h]) fun _ => rfl

theorem foldl_stopped (h : d.stoppedByUser = false) :
    (if c.stoppedByUser = true then [(Key.stoppedByUser, [['1']])] else []).foldl step d
      = { d with stoppedByUser := c.stoppedByUser } := by
  cases hs : c.stoppedByUser with
  | false =>
    show d = { d with stoppedByUser := false }
    rw [← h]
  | true => rfl

theorem foldl_hostname (h : d.hostname = []) :
    (if c.hostname = [] then [] else [(Key.hostname, [c.hostname])]).foldl step d
      = { d with hostname := stripCr c.hostname } :=
  foldl_unless _ _ _ (fun hz => by rw [hz, stripCr_nil, ← h]) fun _ => rfl

end

/-- The fields of a record, read one group after another. -/
theorem foldl_entries (hh : HealthSet c) : c.entries.foldl step initial = c.normal := by
  rw [entries, groups]
  simp only [flatten_cons, flatten_nil, foldl_append, append_nil]
  rw [foldl_first, foldl_cmd, foldl_env, foldl_ports, foldl_volumes, foldl_remap c _ rfl, foldl_memLimit c _ rfl,
    foldl_capAdd c _ rfl, foldl_capDrop c _ rfl, foldl_pidsLimit c _ rfl, foldl_health c _ hh rfl rfl rfl rfl,
    foldl_status c _ hh rfl rfl, foldl_restartPolicy c _ rfl, foldl_stopped c _ rfl, foldl_hostname c _ rfl,
    foldl_labels]
  rfl

/-- A container without separators is read back without the carriage returns. -/
theorem decode_encode (hh : HealthSet c) (h : All Free c) :
    decode c.encode = if stripCr c.id = [] then none else some c.normal := by
  rw [decode_encode_free h, foldl_entries hh]
  rfl

theorem map_eq_self {α : Type} {f : α → α} {l : List α} : l.map f = l ↔ ∀ x ∈ l, f x = x := by
  simpa using map_inj_left (g := fun x => x)

/-- A record is read back unchanged if no text ends in a carriage return. -/
theorem normal_eq_iff : c.normal = c ↔ Ends (fun s => s.getLast? ≠ some '\r') c := by
  constructor
  · intro h
    have hmap : ∀ {xs : List Text}, xs.map stripCr = xs → ∀ x ∈ xs, x.getLast? ≠ some '\r' := by
      intro xs hxs x hx
      rw [← stripCr_self]
      exact map_eq_self.mp hxs x hx
    have hlabels : (c.labels.map fun l => (l.1, stripCr l.2)) = c.labels := congrArg labels h
    exact {
      id := stripCr_self.mp (congrArg Container.id h)
      name := stripCr_self.mp (congrArg Container.name h)
      imageKey := stripCr_self.mp (congrArg imageKey h)
      imageId := stripCr_self.mp (congrArg imageId h)
      cmd := hmap (congrArg cmd h)
      env := hmap (congrArg env h)
      workdir := stripCr_self.mp (congrArg workdir h)
      network := stripCr_self.mp (congrArg network h)
      healthCmd := stripCr_self.mp (congrArg healthCmd h)
      healthStatus := stripCr_self.mp (congrArg healthStatus h)
      restartPolicy := stripCr_self.mp (congrArg restartPolicy h)
      hostname := stripCr_self.mp (congrArg hostname h)
      labels := fun l hl => stripCr_self.mp (congrArg Prod.snd (map_eq_self.mp hlabels l hl)) }
  · intro h
    have hmap : ∀ {xs : List Text}, (∀ x ∈ xs, x.getLast? ≠ some '\r') → xs.map stripCr = xs := by
      intro xs hxs
      exact map_eq_self.mpr fun x hx => stripCr_self.mpr (hxs x hx)
    have hlabels : (c.labels.map fun l => (l.1, stripCr l.2)) = c.labels := by
      rw [map_eq_self]
      intro l hl
      rw [stripCr_self.mpr (h.labels l hl)]
    rw [normal, stripCr_self.mpr h.id, stripCr_self.mpr h.name, stripCr_self.mpr h.imageKey,
      stripCr_self.mpr h.imageId, hmap h.cmd, hmap h.env, stripCr_self.mpr h.workdir,
      stripCr_self.mpr h.network, stripCr_self.mpr h.healthCmd, stripCr_self.mpr h.healthStatus,
      stripCr_self.mpr h.restartPolicy, stripCr_self.mpr h.hostname, hlabels]

/-- A container with an identity and consistent health numbers is read back as it was exactly
if its texts have no separator and no line of its record ends in a carriage return. -/
theorem container_round_trip (c : Container) (hid : c.id ≠ []) (hh : HealthSet c) :
    decode c.encode = some c ↔ Kept c := by
  constructor
  · intro h
    have hfree := decode_free h
    rw [decode_encode hh hfree] at h
    split at h
    · exact absurd h (by simp)
    · exact ⟨hfree, normal_eq_iff.mp (Option.some.inj h)⟩
  · intro h
    rw [decode_encode hh h.free, normal_eq_iff.mpr h.ends, stripCr_self.mpr h.ends.id, if_neg hid]

/-- A container that runs as user 1000. -/
def demo (env : List Text) : Container :=
  { initial with id := "c1".toList, name := "web".toList, uid := 1000, gid := 1000, env := env }

theorem container_round_trip_demo :
    (demo ["A=1".toList]).id ≠ [] ∧ (decode (demo ["A=1".toList]).encode = some (demo ["A=1".toList]) ↔
      Kept (demo ["A=1".toList])) := by
  refine ⟨by decide, container_round_trip (demo ["A=1".toList]) (by decide) ?_⟩
  exact ⟨fun _ => ⟨rfl, rfl, rfl⟩, fun _ => rfl⟩

/-- An environment string with a newline makes the container run as root, with every capability. -/
theorem env_changes_user :
    let c := demo ["A=1\nuser\t0\t0\ncap_add\t18446744073709551615".toList]
    c.id ≠ [] ∧ HealthSet c ∧ c.uid = 1000 ∧ c.capAdd = 0 ∧
      ∃ d, decode c.encode = some d ∧ d.uid = 0 ∧ d.gid = 0 ∧ d.capAdd = 18446744073709551615 := by
  refine ⟨by decide, ⟨fun _ => ⟨rfl, rfl, rfl⟩, fun _ => rfl⟩, rfl, rfl, ?_⟩
  have hread : (decode (demo ["A=1\nuser\t0\t0\ncap_add\t18446744073709551615".toList]).encode).map
      (fun d => (d.uid, d.gid, d.capAdd)) = some (0, 0, 18446744073709551615) := by
    decide +kernel
  obtain ⟨d, hd, hfields⟩ := Option.map_eq_some_iff.mp hread
  simp only [Prod.mk.injEq] at hfields
  exact ⟨d, hd, hfields⟩

end Fastros.Fastman.Container
