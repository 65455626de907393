import Fastros.Proc.Futex

/-!
# A wake-up finds its waiters while the page stays where it was

A waiter is on the queue of the bucket it entered, and a wake bumps that bucket
and empties the queue, whatever happened in between. Both name the bucket by the
frame of the page, which copy-on-write and swapping replace while a thread
sleeps: a wake reaches the waiter exactly when the word is still in the frame it
was in when the wait began.
-/

namespace Fastros.Futex

open Mm Lib.Stateful Lib.Run List Futex.System

variable {φ : Type} {A : FrameAllocator φ} {m m' : System φ} {t u key n : Nat}
  {b : Bucket} {x : Task} {w : Wait} {d : Option Nat}
variable {es : List Event}

namespace System

@[simp] theorem setKernel_tasks (k : Kernel φ) : (m.setKernel k).tasks = m.tasks := rfl

@[simp] theorem setTask_self (t : Nat) (x : Task) : (m.setTask t x).tasks t = x :=
  Function.update_self ..

theorem setTask_ne (x : Task) (h : u ≠ t) : (m.setTask t x).tasks u = m.tasks u :=
  Function.update_of_ne h ..

@[simp] theorem setBucket_self (key : Nat) (b : Bucket) : (m.setBucket key b).buckets key = some b :=
  Function.update_self ..

theorem setBucket_ne {other : Nat} (b : Bucket) (h : other ≠ key) :
    (m.setBucket key b).buckets other = m.buckets other :=
  Function.update_of_ne h ..

@[simp] theorem setBucket_tasks (key : Nat) (b : Bucket) : (m.setBucket key b).tasks = m.tasks := rfl

theorem bucket_eq (h : m.buckets key = some b) : m.bucket key = b := by
  rw [bucket, h, Option.getD_some]

end System

theorem wakeKey_none (h : m.buckets key = none) : m.wakeKey key = m := by
  unfold wakeKey
  rw [h]

theorem wakeKey_tasks (h : m.buckets key = some b) (t : Nat) :
    (m.wakeKey key).tasks t = if t ∈ b.waiters then (m.tasks t).wake else m.tasks t := by
  unfold wakeKey
  rw [h]
  rfl

theorem wakeKey_self (h : m.buckets key = some b) :
    (m.wakeKey key).buckets key = some ⟨b.generation + 1, []⟩ := by
  unfold wakeKey
  rw [h]
  exact setBucket_self ..

variable {j later now other s timeout uaddr va : Nat}

theorem wakeKey_ne (h : other ≠ key) : (m.wakeKey key).buckets other = m.buckets other := by
  unfold wakeKey
  split
  · rfl
  · exact setBucket_ne _ h

theorem wake_stage (x : Task) : x.wake.stage = match x.stage with
    | .asleep w d => .roused w d
    | s => s := by
  unfold Task.wake
  split <;> simp_all

theorem wake_returned (x : Task) : x.wake.returned = x.returned := by
  unfold Task.wake
  split <;> rfl

theorem wakeKey_task (key t : Nat) :
    (m.wakeKey key).tasks t = m.tasks t ∨ (m.wakeKey key).tasks t = (m.tasks t).wake := by
  cases hb : m.buckets key with
  | none => exact .inl (by rw [wakeKey_none hb])
  | some b =>
    rw [wakeKey_tasks hb]
    split
    · exact .inr rfl
    · exact .inl rfl

theorem wakeKey_returned (key t : Nat) :
    ((m.wakeKey key).tasks t).returned = (m.tasks t).returned := by
  rcases wakeKey_task key t with h | h
  · rw [h]
  · rw [h, wake_returned]

/-- The thread waits, asleep or not, in the bucket `key`. -/
def Stage.queued (key : Nat) : Stage → Prop
  | .asleep w _ | .roused w _ => w.key = key
  | _ => False

/-- What one step does to the threads and the buckets; the number counts the
generations it bumps. -/
inductive Move (m : System φ) : Nat → System φ → Prop
  | memory (p : Procs φ) : Move m 0 { m with procs := p }
  | reply {t : Nat} (k : Kernel φ) (r : Reply) (ht : ∀ key, ¬ (m.tasks t).stage.queued key) :
      Move m 0 ((m.setKernel k).reply t r)
  | load {t : Nat} {w : Wait} (k : Kernel φ) (ht : (m.tasks t).stage = .outside)
      (hg : (m.bucket w.key).generation = w.generation) :
      Move m 0 (((m.setKernel k).setBucket w.key (m.bucket w.key)).enter t (.loaded w))
  | compare {t : Nat} {w : Wait} (k : Kernel φ) (ht : (m.tasks t).stage = .loaded w) :
      Move m 0 ((m.setKernel k).enter t (.matched w))
  | wake (k : Kernel φ) (key : Nat) : Move m 1 ((m.setKernel k).wakeKey key)
  | wakeReply {t : Nat} (k : Kernel φ) (key : Nat) (r : Reply)
      (ht : (m.tasks t).stage = .outside) : Move m 1 (((m.setKernel k).wakeKey key).reply t r)
  | turn {t : Nat} {w : Wait} (k : Kernel φ) (d : Option Nat) (now : Nat) (signal : Bool)
      (ht : (m.tasks t).stage = .matched w) : Move m 0 ((m.setKernel k).waitTurn t w d now signal)
  | again {t : Nat} {w : Wait} {d : Option Nat} (now : Nat) (signal : Bool)
      (ht : (m.tasks t).stage = .roused w d) :
      Move m 0 ((m.retain t w.key).waitTurn t w d now signal)
  | rouse (t : Nat) : Move m 0 (m.setTask t (m.tasks t).wake)
  | start {t : Nat} (s : Nat) (ht : (m.tasks t).stage = .outside) :
      Move m 0 (m.setTask t { m.tasks t with space := s })

def Command.wakes : Command → Nat
  | .wake _ => 1
  | _ => 0

/-- How many generations an event can bump. -/
def Event.wakes : Event → Nat
  | .futex _ _ op _ _ => (command op).wakes
  | .wakeAddr .. => 1
  | _ => 0

theorem access_cases {α : Type} {x : KM φ α} {next : α → System φ → System φ}
    (h : m.access t x next = some m') :
    (∃ a k, m' = next a (m.setKernel k)) ∨ ∃ k r, m' = (m.setKernel k).reply t r := by
  unfold access at h
  split at h
  · cases h
    exact .inl ⟨_, _, rfl⟩
  · cases h
    exact .inr ⟨_, _, rfl⟩
  · cases h

theorem stay_move (m : System φ) : Move m 0 m := Move.memory m.procs

theorem free_outside (h : m.free t = true) : (m.tasks t).stage = .outside := by
  simp only [free, decide_eq_true_eq] at h
  exact h.1

theorem futex_move {op val : UInt32} (hf : m.free t = true)
    (h : m.futex A t uaddr op val timeout = some m') : ∃ n ≤ (command op).wakes, Move m n m' := by
  have ho := free_outside hf
  have hq : ∀ key, ¬ (m.tasks t).stage.queued key := fun key => by
    rw [ho]
    exact not_false
  unfold futex at h
  cases hc : command op with
  | wait absolute =>
    rw [hc] at h
    rcases access_cases h with ⟨key, k, rfl⟩ | ⟨k, r, rfl⟩
    · exact ⟨0, le_rfl, Move.load k ho rfl⟩
    · exact ⟨0, le_rfl, Move.reply k r hq⟩
  | wake counts =>
    rw [hc] at h
    rcases access_cases h with ⟨key, k, rfl⟩ | ⟨k, r, rfl⟩
    · exact ⟨1, le_rfl, Move.wakeReply k key _ ho⟩
    · exact ⟨0, Nat.zero_le _, Move.reply k r hq⟩
  | none =>
    rw [hc] at h
    cases h
    exact ⟨0, le_rfl, Move.reply m.procs.kernel _ hq⟩

theorem futexWakeAddr_move (h : m.futexWakeAddr A t uaddr = some m') : ∃ n ≤ 1, Move m n m' := by
  unfold futexWakeAddr at h
  split at h
  · cases h
    exact ⟨1, le_rfl, Move.wake _ _⟩
  · cases h
    exact ⟨0, Nat.zero_le _, Move.memory _⟩
  · cases h

theorem proceed_move {signal : Bool}
    (h : m.proceed A t now later signal = some m') : Move m 0 m' := by
  unfold proceed at h
  split at h
  · rename_i w hs
    have hq : ∀ key, ¬ (m.tasks t).stage.queued key := fun key => by
      rw [hs]
      exact not_false
    rcases access_cases h with ⟨bytes, k, rfl⟩ | ⟨k, r, rfl⟩
    · split
      · exact Move.reply k _ hq
      · exact Move.compare k hs
    · exact Move.reply k r hq
  · rename_i w hs
    have hq : ∀ key, ¬ (m.tasks t).stage.queued key := fun key => by
      rw [hs]
      exact not_false
    rcases access_cases h with ⟨d, k, rfl⟩ | ⟨k, r, rfl⟩
    · exact Move.turn k d later signal hs
    · exact Move.reply k r hq
  · rename_i w d hs
    cases h
    exact Move.again later signal hs
  · cases h
    exact stay_move m
  · cases h
    exact stay_move m

theorem step_move {e : Event} (h : step A e m = some m') : ∃ n ≤ e.wakes, Move m n m' := by
  cases e with
  | futex t uaddr op val timeout =>
    simp only [step] at h
    split at h
    · exact futex_move ‹_› h
    · cases h
      exact ⟨0, Nat.zero_le _, stay_move m⟩
  | wakeAddr t uaddr =>
    simp only [step] at h
    split at h
    · exact futexWakeAddr_move h
    · cases h
      exact ⟨0, Nat.zero_le _, stay_move m⟩
  | proceed t now later signal => exact ⟨0, le_rfl, proceed_move h⟩
  | rouse t =>
    cases h
    exact ⟨0, le_rfl, Move.rouse t⟩
  | start t s =>
    cases h
    refine ⟨0, le_rfl, ?_⟩
    split
    · exact Move.start s ‹_›
    · exact stay_move m
  | memory a =>
    obtain ⟨p, -, rfl⟩ := Option.map_eq_some_iff.mp h
    exact ⟨0, le_rfl, Move.memory p⟩

/-- A thread inside `FUTEX_WAIT` has a bucket; one that sleeps is on its queue,
and nobody has bumped it since. -/
def Anchored (buckets : Nat → Option Bucket) (t : Nat) : Stage → Prop
  | .outside => True
  | .loaded w | .matched w | .roused w _ => ∃ b, buckets w.key = some b
  | .asleep w _ => ∃ b, buckets w.key = some b ∧ b.generation = w.generation ∧ t ∈ b.waiters

structure Sound (m : System φ) : Prop where
  anchored : ∀ t, Anchored m.buckets t (m.tasks t).stage
  queued : ∀ key b t, m.buckets key = some b → t ∈ b.waiters → (m.tasks t).stage.queued key

/-- No thread is inside `futex`, and no queue holds anybody. -/
structure System.Quiet (m : System φ) : Prop where
  outside : ∀ t, (m.tasks t).stage = .outside
  empty : ∀ key b, m.buckets key = some b → b.waiters = []

theorem quiet_sound (h : m.Quiet) : Sound m := by
  refine ⟨fun t => ?_, fun key b t hb ht => ?_⟩
  · rw [h.outside t]
    trivial
  · rw [h.empty key b hb] at ht
    cases ht

/-- A thread moves to a stage that fits the queues it is on. -/
theorem sound_setTask (h : Sound m) (hx : Anchored m.buckets t x.stage)
    (hq : ∀ key b, m.buckets key = some b → t ∈ b.waiters → x.stage.queued key) :
    Sound (m.setTask t x) := by
  refine ⟨fun u => ?_, fun key b u hb hu => ?_⟩
  · by_cases hut : u = t
    · subst hut
      rw [setTask_self]
      exact hx
    · rw [setTask_ne x hut]
      exact h.anchored u
  · by_cases hut : u = t
    · subst hut
      rw [setTask_self]
      exact hq key b hb hu
    · rw [setTask_ne x hut]
      exact h.queued key b u hb hu

/-- A bucket may change as long as the thread, if it sleeps there, stays on it. -/
theorem anchored_setBucket {stage : Stage} (h : Anchored m.buckets t stage)
    (hkeep : ∀ w d, stage = .asleep w d → w.key = key → b.generation = w.generation ∧ t ∈ b.waiters) :
    Anchored (m.setBucket key b).buckets t stage := by
  have hsome : ∀ other, (∃ b', m.buckets other = some b') →
      ∃ b', (m.setBucket key b).buckets other = some b' := by
    intro other ho
    by_cases hk : other = key
    · exact ⟨b, by rw [hk, setBucket_self]⟩
    · rw [setBucket_ne b hk]
      exact ho
  cases stage with
  | outside => trivial
  | loaded w | matched w | roused w d => exact hsome _ h
  | asleep w d =>
    by_cases hk : w.key = key
    · exact ⟨b, by rw [hk, setBucket_self], hkeep w d rfl hk⟩
    · obtain ⟨b', hb', hg⟩ := h
      exact ⟨b', (setBucket_ne b hk).trans hb', hg⟩

theorem sound_setBucket (h : Sound m)
    (hkeep : ∀ t w d, (m.tasks t).stage = .asleep w d → w.key = key →
      b.generation = w.generation ∧ t ∈ b.waiters)
    (hq : ∀ t ∈ b.waiters, (m.tasks t).stage.queued key) : Sound (m.setBucket key b) := by
  refine ⟨fun t => anchored_setBucket (h.anchored t) (hkeep t), fun other b' t hb ht => ?_⟩
  by_cases hk : other = key
  · rw [hk, setBucket_self] at hb
    cases hb
    rw [hk]
    exact hq t ht
  · rw [setBucket_ne b hk] at hb
    exact h.queued other b' t hb ht

/-- The bucket a sleeping thread is on. -/
theorem Sound.asleep (h : Sound m) (ht : (m.tasks t).stage = .asleep w d) :
    ∃ b, m.buckets w.key = some b ∧ b.generation = w.generation ∧ t ∈ b.waiters := by
  have ha := h.anchored t
  rw [ht] at ha
  exact ha

theorem sound_setKernel (h : Sound m) (k : Kernel φ) : Sound (m.setKernel k) := ⟨h.anchored, h.queued⟩

/-- Making a bucket that is there already, or an empty one, changes nothing. -/
theorem sound_bucket (h : Sound m) (key : Nat) : Sound (m.setBucket key (m.bucket key)) := by
  apply sound_setBucket h
  · intro t w d hs hk
    obtain ⟨b, hb, hg⟩ := h.asleep hs
    rw [← hk, bucket_eq hb]
    exact hg
  intro t ht
  cases hb : m.buckets key with
  | none =>
    simp only [bucket, hb, Option.getD_none] at ht
    cases ht
  | some b =>
    rw [bucket_eq hb] at ht
    exact h.queued key b t hb ht

theorem wake_queued (key : Nat) : x.wake.stage.queued key ↔ x.stage.queued key := by
  rw [wake_stage]
  cases x.stage <;> exact Iff.rfl

theorem anchored_wake {buckets : Nat → Option Bucket}
    (h : Anchored buckets t x.stage) : Anchored buckets t x.wake.stage := by
  rw [wake_stage]
  cases hs : x.stage with
  | outside => trivial
  | loaded w | matched w | roused w d =>
    rw [hs] at h
    exact h
  | asleep w d =>
    rw [hs] at h
    exact h.imp fun _ hb => hb.1

theorem wake_not_asleep : x.wake.stage ≠ .asleep w d := by
  rw [wake_stage]
  cases x.stage <;> simp

theorem wakeKey_queued (key t other : Nat) :
    ((m.wakeKey key).tasks t).stage.queued other ↔ (m.tasks t).stage.queued other := by
  rcases wakeKey_task key t with h | h
  · rw [h]
  · rw [h, wake_queued]

theorem sound_wakeKey (h : Sound m) (key : Nat) : Sound (m.wakeKey key) := by
  refine ⟨fun t => ?_, fun other b' t hb' ht => ?_⟩
  · cases hb : m.buckets key with
    | none =>
      rw [wakeKey_none hb]
      exact h.anchored t
    | some b =>
      have hbs : (m.wakeKey key).buckets = (m.setBucket key ⟨b.generation + 1, []⟩).buckets := by
        unfold wakeKey
        rw [hb]
        rfl
      rw [wakeKey_tasks hb, hbs]
      -- a sleeper of this bucket is on the list, so it does not sleep any more
      by_cases hin : t ∈ b.waiters
      · rw [if_pos hin]
        exact anchored_setBucket (anchored_wake (h.anchored t)) fun w d hs => absurd hs wake_not_asleep
      rw [if_neg hin]
      apply anchored_setBucket (h.anchored t)
      intro w d hs hk
      obtain ⟨b', hb', -, hm⟩ := h.asleep hs
      rw [hk, hb] at hb'
      cases hb'
      exact absurd hm hin
  · rw [wakeKey_queued]
    by_cases hk : other = key
    · cases hb : m.buckets key with
      | none =>
        rw [wakeKey_none hb] at hb'
        exact h.queued other b' t hb' ht
      | some b =>
        rw [hk, wakeKey_self hb] at hb'
        cases hb'
        cases ht
    · rw [wakeKey_ne hk] at hb'
      exact h.queued other b' t hb' ht

/-- The queues `t` is not on do not hold it back. -/
theorem sound_reply {r : Reply} (h : Sound m)
    (hq : ∀ key b, m.buckets key = some b → t ∉ b.waiters) : Sound (m.reply t r) :=
  sound_setTask h trivial fun key b hb ht => absurd ht (hq key b hb)

theorem not_waiting (h : Sound m) (hq : ∀ key, ¬ (m.tasks t).stage.queued key) :
    ∀ key b, m.buckets key = some b → t ∉ b.waiters :=
  fun key b hb ht => hq key (h.queued key b t hb ht)

/-- Going to sleep: on the queue and blocked in one piece. -/
theorem sound_push (h : Sound m) (d : Option Nat)
    (hb : m.buckets w.key = some b) (hg : b.generation = w.generation)
    (hq : ∀ key b, m.buckets key = some b → t ∉ b.waiters) :
    Sound ((m.setBucket w.key { b with waiters := b.waiters ++ [t] }).enter t (.asleep w d)) := by
  refine ⟨fun u => ?_, fun key b' u hb' hu => ?_⟩
  · by_cases hut : u = t
    · subst hut
      rw [enter, setTask_self]
      exact ⟨_, setBucket_self .., hg, by simp⟩
    rw [enter, setTask_ne _ hut]
    apply anchored_setBucket (h.anchored u)
    intro x d' hs hk
    obtain ⟨b', hb', hg', hm⟩ := h.asleep hs
    rw [hk, hb] at hb'
    cases hb'
    exact ⟨hg', mem_append_left _ hm⟩
  have hb'' : (m.setBucket w.key { b with waiters := b.waiters ++ [t] }).buckets key = some b' := hb'
  by_cases hut : u = t
  · subst hut
    rw [enter, setTask_self]
    by_cases hk : key = w.key
    · exact hk.symm
    · rw [setBucket_ne _ hk] at hb''
      exact absurd hu (hq key b' hb'')
  rw [enter, setTask_ne _ hut]
  by_cases hk : key = w.key
  · rw [hk, setBucket_self] at hb''
    cases hb''
    rw [hk]
    apply h.queued w.key b u hb
    simpa [hut] using hu
  · rw [setBucket_ne _ hk] at hb''
    exact h.queued key b' u hb'' hu

/-- A turn of the wait ends the call, or puts the thread to sleep in a bucket
that was not bumped. -/
theorem waitTurn_cases (t : Nat) (w : Wait) (d : Option Nat) (now : Nat) (signal : Bool) :
    (∃ r, m.waitTurn t w d now signal = m.reply t r) ∨
    ((m.bucket w.key).generation = w.generation ∧ m.waitTurn t w d now signal =
      (m.setBucket w.key { m.bucket w.key with waiters := (m.bucket w.key).waiters ++ [t] }).enter t
        (.asleep w d)) := by
  unfold waitTurn
  dsimp only
  split
  · exact .inl ⟨_, rfl⟩
  rename_i hg
  split
  · exact .inl ⟨_, rfl⟩
  · split
    · exact .inl ⟨_, rfl⟩
    · exact .inr ⟨not_not.mp hg, rfl⟩

theorem sound_waitTurn (h : Sound m) (d : Option Nat) (now : Nat)
    (signal : Bool) (hb : m.buckets w.key = some b)
    (hq : ∀ key b, m.buckets key = some b → t ∉ b.waiters) :
    Sound (m.waitTurn t w d now signal) := by
  rcases waitTurn_cases t w d now signal with ⟨r, he⟩ | ⟨hg, he⟩
  · rw [he]
    exact sound_reply h hq
  · rw [bucket_eq hb] at hg he
    rw [he]
    exact sound_push h d hb hg hq

/-- A thread that runs again is on no queue any more. -/
theorem sound_retain (h : Sound m) (ht : (m.tasks t).stage = .roused w d) :
    Sound (m.retain t w.key) ∧
      ∀ key b, (m.retain t w.key).buckets key = some b → t ∉ b.waiters := by
  obtain ⟨b, hb⟩ : ∃ b, m.buckets w.key = some b := by
    have ha := h.anchored t
    rw [ht] at ha
    exact ha
  unfold retain
  rw [bucket_eq hb]
  refine ⟨sound_setBucket h ?_ ?_, ?_⟩
  · intro u x d' hs hk
    obtain ⟨b', hb', hg, hm⟩ := h.asleep hs
    rw [hk, hb] at hb'
    cases hb'
    have hut : u ≠ t := by
      rintro rfl
      rw [ht] at hs
      cases hs
    exact ⟨hg, mem_filter.mpr ⟨hm, by simpa using hut⟩⟩
  · intro u hu
    exact h.queued w.key b u hb (mem_filter.mp hu).1
  · intro key b' hb' hm
    by_cases hk : key = w.key
    · rw [hk, setBucket_self] at hb'
      cases hb'
      simpa using (mem_filter.mp hm).2
    · rw [setBucket_ne _ hk] at hb'
      have hq := h.queued key b' t hb' hm
      rw [ht] at hq
      exact hk hq.symm

theorem sound_move (h : Sound m) (hm : Move m n m') : Sound m' := by
  cases hm with
  | memory p => exact ⟨h.anchored, h.queued⟩
  | reply k r ht => exact sound_reply (sound_setKernel h k) (not_waiting (sound_setKernel h k) ht)
  | @load t w k ht hg =>
    have hs := sound_bucket (sound_setKernel h k) w.key
    refine sound_setTask hs ⟨_, setBucket_self ..⟩ fun key b hb hm => ?_
    have hq := hs.queued key b _ hb hm
    simp only [setBucket_tasks, setKernel_tasks, ht] at hq
    exact hq.elim
  | @compare t w k ht =>
    have ha := h.anchored t
    rw [ht] at ha
    refine sound_setTask (sound_setKernel h k) ha fun key b hb hm => ?_
    have hq := h.queued key b _ hb hm
    rw [ht] at hq
    exact hq.elim
  | wake k key => exact sound_wakeKey (sound_setKernel h k) key
  | wakeReply k key r ht =>
    have hs := sound_wakeKey (sound_setKernel h k) key
    apply sound_reply hs
    apply not_waiting hs
    intro other hq
    rw [wakeKey_queued, setKernel_tasks, ht] at hq
    exact hq
  | @turn t w k d now signal ht =>
    have ha := h.anchored t
    rw [ht] at ha
    obtain ⟨b, hb⟩ := ha
    refine sound_waitTurn (sound_setKernel h k) d now signal hb
      (not_waiting (sound_setKernel h k) fun key => ?_)
    rw [setKernel_tasks, ht]
    exact not_false
  | again now signal ht =>
    obtain ⟨hs, hq⟩ := sound_retain h ht
    exact sound_waitTurn hs _ now signal (setBucket_self ..) hq
  | rouse t =>
    exact sound_setTask h (anchored_wake (h.anchored t)) fun key b hb hm =>
      (wake_queued key).mpr (h.queued key b t hb hm)
  | start s ht =>
    refine sound_setTask h (h.anchored _) fun key b hb hm => h.queued key b _ hb hm

theorem run_sound {m0 : System φ} (h : m0.Quiet) (hm : runs (step A) es m0 = some m) : Sound m := by
  refine runs_invariant (fun m e m' hs he => ?_) es m0 m (quiet_sound h) hm
  obtain ⟨n, -, hmove⟩ := step_move he
  exact sound_move hs hmove

/-- No bucket is lost, and none is bumped more than `n` times. -/
def Grows (n : Nat) (m m' : System φ) : Prop :=
  ∀ key b, m.buckets key = some b →
    ∃ i ≤ n, ∃ b', m'.buckets key = some b' ∧ b'.generation = b.generation + UInt64.ofNat i

theorem grows_same (h : m'.buckets = m.buckets) : Grows 0 m m' := by
  intro key b hb
  exact ⟨0, le_rfl, b, by rw [h, hb], by simp⟩

theorem grows_setBucket (hg : b.generation = (m.bucket key).generation) :
    Grows 0 m (m.setBucket key b) := by
  intro other b0 hb
  by_cases hk : other = key
  · subst hk
    rw [bucket_eq hb] at hg
    exact ⟨0, le_rfl, b, setBucket_self .., by simp [hg]⟩
  · exact ⟨0, le_rfl, b0, (setBucket_ne b hk).trans hb, by simp⟩

theorem grows_wakeKey (key : Nat) : Grows 1 m (m.wakeKey key) := by
  intro other b hb
  by_cases hk : other = key
  · subst hk
    exact ⟨1, le_rfl, _, wakeKey_self hb, rfl⟩
  · exact ⟨0, Nat.zero_le _, b, (wakeKey_ne hk).trans hb, by simp⟩

theorem grows_waitTurn (t : Nat) (w : Wait) (d : Option Nat) (now : Nat) (signal : Bool) :
    Grows 0 m (m.waitTurn t w d now signal) := by
  rcases waitTurn_cases t w d now signal with ⟨r, h⟩ | ⟨-, h⟩
  · rw [h]
    exact grows_same rfl
  · rw [h]
    exact grows_setBucket rfl

theorem move_grows (h : Move m n m') : Grows n m m' := by
  cases h with
  | memory | reply | compare | rouse | start => exact grows_same rfl
  | load k ht hg => exact grows_setBucket rfl
  | wake k key => exact grows_wakeKey (m := m.setKernel k) key
  | wakeReply k key r ht => exact grows_wakeKey (m := m.setKernel k) key
  | turn k d now signal ht => exact grows_waitTurn (m := m.setKernel k) _ _ d now signal
  | @again t w d now signal ht =>
    have hret : Grows 0 m (m.retain t w.key) := grows_setBucket rfl
    intro key b hb
    obtain ⟨i, hi, b1, hb1, hg1⟩ := hret key b hb
    obtain ⟨i', hi', b2, hb2, hg2⟩ := grows_waitTurn t w d now signal key b1 hb1
    refine ⟨0, le_rfl, b2, hb2, ?_⟩
    rw [hg2, hg1, Nat.le_zero.mp hi, Nat.le_zero.mp hi']
    simp

/-- The wait a thread is in. -/
def Stage.wait : Stage → Option Wait
  | .outside => none
  | .loaded w | .matched w | .asleep w _ | .roused w _ => some w

theorem wake_wait (x : Task) : x.wake.stage.wait = x.stage.wait := by
  rw [wake_stage]
  cases x.stage <;> rfl

theorem setTask_wait (h : ((m.setTask t x).tasks u).stage.wait = some w) :
    (u = t ∧ x.stage.wait = some w) ∨ (m.tasks u).stage.wait = some w := by
  by_cases hut : u = t
  · subst hut
    rw [setTask_self] at h
    exact .inl ⟨rfl, h⟩
  · rw [setTask_ne x hut] at h
    exact .inr h

theorem reply_wait {r : Reply}
    (h : ((m.reply t r).tasks u).stage.wait = some w) : (m.tasks u).stage.wait = some w := by
  rcases setTask_wait h with ⟨-, h⟩ | h
  · cases h
  · exact h

theorem waitTurn_wait {x : Wait} {signal : Bool} (ht : (m.tasks t).stage.wait = some x)
    (h : ((m.waitTurn t x d now signal).tasks u).stage.wait = some w) :
    (m.tasks u).stage.wait = some w := by
  rcases waitTurn_cases t x d now signal with ⟨r, he⟩ | ⟨-, he⟩
  · rw [he] at h
    exact reply_wait h
  rw [he] at h
  rcases setTask_wait h with ⟨rfl, hw⟩ | hw
  · exact ht.trans hw
  · exact hw

theorem wakeKey_wait (key t : Nat) :
    ((m.wakeKey key).tasks t).stage.wait = (m.tasks t).stage.wait := by
  rcases wakeKey_task key t with h | h
  · rw [h]
  · rw [h, wake_wait]

/-- A wait is an old one, or its bucket is as the thread has just seen it. -/
theorem move_wait (h : Move m n m') (hw : (m'.tasks u).stage.wait = some w) :
    (m.tasks u).stage.wait = some w ∨ ∃ b, m'.buckets w.key = some b ∧ b.generation = w.generation := by
  cases h with
  | memory p => exact .inl hw
  | reply k r ht => exact .inl (reply_wait hw)
  | load k ht hg =>
    rcases setTask_wait hw with ⟨rfl, hx⟩ | hx
    · cases hx
      exact .inr ⟨_, setBucket_self .., hg⟩
    · exact .inl hx
  | compare k ht =>
    rcases setTask_wait hw with ⟨rfl, hx⟩ | hx
    · cases hx
      exact .inl (by rw [ht]; rfl)
    · exact .inl hx
  | wake k key =>
    rw [wakeKey_wait] at hw
    exact .inl hw
  | wakeReply k key r ht =>
    have hw' := reply_wait hw
    rw [wakeKey_wait] at hw'
    exact .inl hw'
  | turn k d now signal ht =>
    exact .inl (waitTurn_wait (m := m.setKernel k) (by rw [setKernel_tasks, ht]; rfl) hw)
  | @again t x d now signal ht =>
    exact .inl (waitTurn_wait (m := m.retain t x.key) (by
      have hs : ((m.retain t x.key).tasks t).stage = .roused x d := ht
      rw [hs]
      rfl) hw)
  | rouse t =>
    rcases setTask_wait hw with ⟨rfl, hx⟩ | hx
    · rw [wake_wait] at hx
      exact .inl hx
    · exact .inl hx
  | start s ht =>
    rcases setTask_wait hw with ⟨rfl, hx⟩ | hx
    · exact .inl hx
    · exact .inl hx

/-- Every wait has a bucket, bumped at most `n` times since the thread looked. -/
def Dated (n : Nat) (m : System φ) : Prop :=
  ∀ t w, (m.tasks t).stage.wait = some w →
    ∃ i ≤ n, ∃ b, m.buckets w.key = some b ∧ b.generation = w.generation + UInt64.ofNat i

theorem dated_move (h : Dated n m) (hm : Move m j m') : Dated (n + j) m' := by
  intro t w hw
  rcases move_wait hm hw with hold | ⟨b, hb, hg⟩
  · obtain ⟨i, hi, b, hb, hg⟩ := h t w hold
    obtain ⟨i', hi', b', hb', hg'⟩ := move_grows hm w.key b hb
    refine ⟨i + i', Nat.add_le_add hi hi', b', hb', ?_⟩
    rw [hg', hg, UInt64.ofNat_add, UInt64.add_assoc]
  · exact ⟨0, Nat.zero_le _, b, hb, by simp [hg]⟩

/-- How many generations a run can bump. -/
def wakesIn (es : List Event) : Nat := (es.map Event.wakes).sum

theorem run_dated :
    ∀ {m : System φ} {n : Nat}, Dated n m → runs (step A) es m = some m' → Dated (n + wakesIn es) m' := by
  induction es with
  | nil =>
    intro m n h hr
    cases hr
    exact h
  | cons e es ih =>
    intro m n h hr
    obtain ⟨m1, hm1, hr'⟩ := Option.bind_eq_some_iff.mp hr
    obtain ⟨j, hj, hmove⟩ := step_move hm1
    intro t w hw
    obtain ⟨i, hi, hb⟩ := ih (dated_move h hmove) hr' t w hw
    have : wakesIn (e :: es) = e.wakes + wakesIn es := rfl
    exact ⟨i, by omega, hb⟩

/-- In the wait `w`, and not blocked. -/
def Stage.AwakeIn (w : Wait) (stage : Stage) : Prop := stage = .matched w ∨ ∃ d, stage = .roused w d

/-- Thread `t` has returned since, or is awake in a bucket that was bumped `n`
times after it looked. -/
structure Reached (t : Nat) (w : Wait) (calls n : Nat) (m : System φ) : Prop where
  later : calls ≤ (m.tasks t).returned.length
  awake : (m.tasks t).returned.length = calls → (m.tasks t).stage.AwakeIn w ∧
    ∃ b, m.buckets w.key = some b ∧ b.generation = w.generation + UInt64.ofNat n

section

variable {calls : Nat}

theorem AwakeIn.unique {stage : Stage} {x : Wait} (h : stage.AwakeIn w) (hx : stage.wait = some x) :
    x = w := by
  rcases h with rfl | ⟨d, rfl⟩
  · cases hx
    rfl
  · cases hx
    rfl

theorem wake_same (h : x.stage.AwakeIn w) : x.wake.stage = x.stage := by
  rw [wake_stage]
  rcases h with h | ⟨d, h⟩
  · rw [h]
  · rw [h]

/-- The thread returns; or it stays, awake where it is if its bucket was bumped. -/
def Onward (m m' : System φ) (t : Nat) : Prop :=
  (∃ r, (m'.tasks t).returned = (m.tasks t).returned ++ [r]) ∨
  (m'.tasks t).returned = (m.tasks t).returned ∧
    ∀ w, (m.tasks t).stage.AwakeIn w → (m.bucket w.key).generation ≠ w.generation →
      (m'.tasks t).stage = (m.tasks t).stage

theorem onward_same (h : m'.tasks t = m.tasks t) : Onward m m' t := by
  refine .inr ⟨by rw [h], fun _ _ _ => by rw [h]⟩

theorem onward_setTask (hr : x.returned = (m.tasks u).returned)
    (hs : ∀ w, (m.tasks u).stage.AwakeIn w → (m.bucket w.key).generation ≠ w.generation →
      x.stage = (m.tasks u).stage) : Onward m (m.setTask u x) t := by
  by_cases htu : t = u
  · subst htu
    refine .inr ⟨?_, ?_⟩
    · rw [setTask_self, hr]
    · rw [setTask_self]
      exact hs
  · exact onward_same (setTask_ne x htu)

theorem onward_reply (u : Nat) (r : Reply) : Onward m (m.reply u r) t := by
  by_cases htu : t = u
  · subst htu
    exact .inl ⟨r, by rw [reply, setTask_self]⟩
  · exact onward_same (setTask_ne _ htu)

theorem onward_waitTurn {x : Wait} (d : Option Nat) (now : Nat) (signal : Bool)
    (hx : (m.tasks u).stage.wait = some x) : Onward m (m.waitTurn u x d now signal) t := by
  rcases waitTurn_cases u x d now signal with ⟨r, h⟩ | ⟨hg, h⟩
  · rw [h]
    exact onward_reply u r
  rw [h]
  refine onward_setTask (m := m) rfl fun w ha hne => ?_
  rw [← AwakeIn.unique ha hx] at hne
  exact absurd hg hne

theorem onward_wakeKey (key : Nat) : Onward m (m.wakeKey key) t := by
  refine .inr ⟨wakeKey_returned key t, fun w ha _ => ?_⟩
  rcases wakeKey_task key t with h | h
  · rw [h]
  · rw [h, wake_same ha]

theorem move_onward (h : Move m n m') (t : Nat) : Onward m m' t := by
  cases h with
  | memory p => exact onward_same rfl
  | reply k r ht => exact onward_reply _ r
  | load k ht hg =>
    refine onward_setTask (m := m) rfl fun w ha _ => ?_
    simp [Stage.AwakeIn, ht] at ha
  | compare k ht =>
    refine onward_setTask rfl fun w ha _ => ?_
    simp [Stage.AwakeIn, ht] at ha
  | wake k key => exact onward_wakeKey key
  | @wakeReply u k key r ht =>
    by_cases htu : t = u
    · subst htu
      refine .inl ⟨r, ?_⟩
      rw [reply, setTask_self, wakeKey_returned, setKernel_tasks]
    · have hw := onward_wakeKey (m := m.setKernel k) (t := t) key
      rw [Onward, ← setTask_ne _ htu] at hw
      exact hw
  | turn k d now signal ht =>
    exact onward_waitTurn d now signal (by rw [setKernel_tasks, ht]; rfl)
  | @again u x d now signal ht =>
    have hg : ∀ key, ((m.retain u x.key).bucket key).generation = (m.bucket key).generation := by
      intro key
      by_cases hk : key = x.key
      · rw [hk, retain, bucket_eq (setBucket_self ..)]
      · rw [bucket, retain, setBucket_ne _ hk]
        rfl
    have hx : ((m.retain u x.key).tasks u).stage = .roused x d := ht
    have ho := onward_waitTurn (t := t) d now signal (by rw [hx]; rfl)
    simp only [Onward, hg] at ho
    exact ho
  | rouse u => exact onward_setTask (wake_returned _) fun w ha _ => wake_same ha
  | start s ht => exact onward_setTask rfl fun _ _ _ => rfl

theorem bumped_ne {g : UInt64} (hn : 0 < n) (hlt : n < 2 ^ 64) : g + UInt64.ofNat n ≠ g := by
  intro h
  have h' := congrArg UInt64.toNat h
  rw [UInt64.toNat_add, UInt64.toNat_ofNat'] at h'
  omega

theorem reached_move {j : Nat} (h : Reached t w calls n m) (hn : 0 < n) (hlt : n < 2 ^ 64)
    (hm : Move m j m') : ∃ n', n ≤ n' ∧ n' ≤ n + j ∧ Reached t w calls n' m' := by
  have hl := h.later
  rcases move_onward hm t with ⟨r, hr⟩ | ⟨hr, hstay⟩
  · refine ⟨n, le_rfl, Nat.le_add_right _ _, ?_, fun he => ?_⟩
    · rw [hr, length_append]
      omega
    · rw [hr, length_append, length_singleton] at he
      omega
  by_cases he : (m.tasks t).returned.length = calls
  · obtain ⟨ha, b, hb, hg⟩ := h.awake he
    have hne : (m.bucket w.key).generation ≠ w.generation := by
      rw [bucket_eq hb, hg]
      exact bumped_ne hn hlt
    obtain ⟨i, hi, b', hb', hg'⟩ := move_grows hm w.key b hb
    refine ⟨n + i, Nat.le_add_right _ _, Nat.add_le_add_left hi _, by rw [hr]; exact hl, fun _ => ?_⟩
    rw [hstay w ha hne]
    refine ⟨ha, b', hb', ?_⟩
    rw [hg', hg, UInt64.ofNat_add, UInt64.add_assoc]
  · refine ⟨n, le_rfl, Nat.le_add_right _ _, by rw [hr]; exact hl, fun he' => ?_⟩
    rw [hr] at he'
    exact absurd he' he

theorem run_reached :
    ∀ {m : System φ} {n : Nat}, Reached t w calls n m → 0 < n → n + wakesIn es < 2 ^ 64 →
      runs (step A) es m = some m' → ∃ n', Reached t w calls n' m' := by
  induction es with
  | nil =>
    intro m n h hn hlt hr
    cases hr
    exact ⟨n, h⟩
  | cons e es ih =>
    intro m n h hn hlt hr
    have : wakesIn (e :: es) = e.wakes + wakesIn es := rfl
    obtain ⟨m1, hm1, hr'⟩ := Option.bind_eq_some_iff.mp hr
    obtain ⟨j, hj, hmove⟩ := step_move hm1
    obtain ⟨n', h1, h2, h'⟩ := reached_move h hn (by omega) hmove
    exact ih h' (by omega) (by omega) hr'

end

/-- The page of `va` is mapped and present. -/
def Resident (k : Kernel φ) (s va : Nat) : Prop :=
  (findRegion (k.spaces s).regions (alignDown va)).isSome = true ∧ (k.pte s (pageIndex va)).present = true

/-- Where a resident address is. -/
def physical (k : Kernel φ) (s va : Nat) : Nat := (k.pte s (pageIndex va)).addr + va % pageSize

/-- Translating a resident address changes nothing. -/
theorem physTranslate_resident {k : Kernel φ} (h : Resident k s va) :
    physTranslate A s va k = .ok (physical k s va) k := by
  obtain ⟨hr, hp⟩ := h
  obtain ⟨r, hr⟩ := Option.isSome_iff_exists.mp hr
  have hleaf : leafEntry s (alignDown va) k = .ok (k.pte s (pageIndex va)) k := by
    rw [← pageIndex_alignDown]
    rfl
  have hensure : ensurePage A s (alignDown va) r false k = .ok () k := by
    simp only [ensurePage, run_bind, hleaf, if_pos hp]
    rfl
  have hfault : faultIn A s (alignDown va) false k = .ok () k := by
    have hreg : regionAt s (alignDown va) k = .ok (some r) k := by
      rw [← hr]
      rfl
    simp only [faultIn, run_bind, hreg]
    exact hensure
  have hphys : physOf s (alignDown va) k = .ok (some (k.pte s (pageIndex va)).addr) k := by
    have hmod : alignDown va % pageSize = 0 := alignDown_mod va
    simp only [physOf, run_bind, hleaf, if_pos hp, hmod, add_zero, run_pure]
  simp only [physTranslate, run_bind, hfault, hphys]
  rfl

/-- The thread has compared the word and is still in its wait. -/
def System.Waits (m : System φ) (t : Nat) (w : Wait) : Prop :=
  (m.tasks t).stage.AwakeIn w ∨ ∃ d, (m.tasks t).stage = .asleep w d

def System.Asleep (m : System φ) (t : Nat) : Prop := ∃ w d, (m.tasks t).stage = .asleep w d

theorem Waits.wait (h : m.Waits t w) : (m.tasks t).stage.wait = some w := by
  rcases h with (h | ⟨d, h⟩) | ⟨d, h⟩ <;> rw [h] <;> rfl

/-- Emptying the bucket of a waiter leaves it awake and its bucket bumped. -/
theorem wakeKey_reached (h : Sound m) (hd : Dated n m) (ht : m.Waits t w) :
    ∃ i, 0 < i ∧ i ≤ n + 1 ∧ Reached t w (m.tasks t).returned.length i (m.wakeKey w.key) := by
  obtain ⟨i, hi, b, hb, hg⟩ := hd t w (Waits.wait ht)
  have hawake : ((m.wakeKey w.key).tasks t).stage.AwakeIn w := by
    rcases ht with ha | ⟨d, hs⟩
    · rcases wakeKey_task w.key t with ht | ht
      · rw [ht]
        exact ha
      · rw [ht, wake_same ha]
        exact ha
    · obtain ⟨b', hb', -, hin⟩ := h.asleep hs
      rw [wakeKey_tasks hb', if_pos hin, wake_stage, hs]
      exact .inr ⟨d, rfl⟩
  refine ⟨i + 1, Nat.succ_pos _, Nat.succ_le_succ hi, ?_, fun _ => ⟨hawake, _, wakeKey_self hb, ?_⟩⟩
  · rw [wakeKey_returned]
  · rw [hg, UInt64.ofNat_add, ← UInt64.add_assoc]
    rfl

/-- A sleeper of another bucket sleeps on. -/
theorem wakeKey_asleep (h : Sound m) (ht : (m.tasks t).stage = .asleep w d) (hk : key ≠ w.key) :
    ((m.wakeKey key).tasks t).stage = .asleep w d := by
  cases hb : m.buckets key with
  | none => rw [wakeKey_none hb, ht]
  | some b =>
    have hout : t ∉ b.waiters := by
      intro hin
      have hq := h.queued key b t hb hin
      rw [ht] at hq
      exact hk hq.symm
    rw [wakeKey_tasks hb, if_neg hout, ht]

/-- From a state with nobody in `futex`, whatever threads, processes and memory
did before: a wake on the word a thread waits for, made while the page is
resident, lets the thread go on for good (in fewer than 2^64 wakes) if the word
is where it was when the wait began, and leaves it asleep if it is not. -/
theorem futex_wake_reaches {m₀ : System φ} {es : List Event} {t : Nat} {w : Wait}
    (u timeout : Nat) (op val : UInt32) (h₀ : m₀.Quiet) (hm : runs (step A) es m₀ = some m) (ht : m.Waits t w)
    (hu : m.free u = true) (hspace : (m.tasks u).space = (m.tasks t).space)
    (hop : (command op).wakes = 1) (hres : Resident m.procs.kernel (m.tasks t).space w.uaddr) :
    ∃ m', step A (.futex u w.uaddr op val timeout) m = some m' ∧
      (physical m.procs.kernel (m.tasks t).space w.uaddr = w.key →
        ∀ later m'', wakesIn es + 1 + wakesIn later < 2 ^ 64 → runs (step A) later m' = some m'' →
          (m''.tasks t).returned = (m.tasks t).returned → ¬ m''.Asleep t) ∧
      (physical m.procs.kernel (m.tasks t).space w.uaddr ≠ w.key → m.Asleep t → m'.Asleep t) := by
  have hs := run_sound h₀ hm
  have hd := run_dated (n := 0) (fun t w hw => by rw [h₀.outside t] at hw; cases hw) hm
  have hne : t ≠ u := by
    rintro rfl
    have hw := Waits.wait ht
    rw [free_outside hu] at hw
    cases hw
  obtain ⟨counts, hc⟩ : ∃ counts, command op = .wake counts := by
    cases hc : command op with
    | wake counts => exact ⟨counts, rfl⟩
    | wait _ | none =>
      rw [hc] at hop
      cases hop
  have hstep : step A (.futex u w.uaddr op val timeout) m =
      some ((m.wakeKey (physical m.procs.kernel (m.tasks t).space w.uaddr)).reply u
        (.ok (if counts then val.toNat else 0))) := by
    simp only [step, if_pos hu, futex, hc, hspace, access, physTranslate_resident hres]
    rfl
  refine ⟨_, hstep, fun hkey later m'' hlater hrun hret => ?_, fun hkey hasleep => ?_⟩
  · rw [hkey] at hrun
    obtain ⟨i, hpos, hi, hr⟩ := wakeKey_reached hs hd ht
    have hr' : Reached t w (m.tasks t).returned.length i ((m.wakeKey w.key).reply u
        (.ok (if counts then val.toNat else 0))) := by
      refine ⟨?_, ?_⟩ <;> rw [reply, setTask_ne _ hne]
      · exact hr.later
      · exact hr.awake
    obtain ⟨n, hfin⟩ := run_reached hr' hpos (by omega) hrun
    rintro ⟨x, d, hx⟩
    rcases (hfin.awake (by rw [hret])).1 with h | ⟨d', h⟩ <;> rw [hx] at h <;> cases h
  · obtain ⟨x, d, hx⟩ := hasleep
    have hxw : x = w := by
      have hw := Waits.wait ht
      rw [hx] at hw
      cases hw
      rfl
    refine ⟨x, d, ?_⟩
    rw [reply, setTask_ne _ hne]
    rw [hxw] at hx ⊢
    exact wakeKey_asleep hs hx hkey

/-- Threads of the process to come in space 1. -/
def newThreads : System (List PhysAddr) where
  procs := { kernel := bootKernel 16, live := [] }
  tasks := fun _ => { space := 1 }
  buckets := fun _ => none

theorem newThreads_quiet : newThreads.Quiet := ⟨fun _ => rfl, fun _ _ h => nomatch h⟩

/-- Thread 0 goes to sleep in `FUTEX_WAIT(0x10008, 0)`. -/
def sleepRun : List Event :=
  [.memory .spawn, .memory (.call 1 (.mapRegion 0x10000 0x11000 ⟨true, true, false⟩ false)),
   .memory (.touch 1 0x10008 true),
   .futex 0 0x10008 futexWait 0 0, .proceed 0 0 0 false, .proceed 0 0 0 false]

def sleepWait : Wait := ⟨0x10008, 0, 0, false, 0x1008, 0⟩

/-- Thread 1 forks, stores 1 to the word and wakes. -/
def forkStoreWake : List Event :=
  [.memory (.fork 1), .memory (.touch 1 0x10008 true), .memory (.store 1 0x10008 1),
   .futex 1 0x10008 futexWake 1 0]

/-- The store after the fork moves the page to another frame: the wake finds no
bucket and thread 0 sleeps on. -/
theorem forkStoreWake_lost : newThreads.Quiet ∧
    (runs (step listAllocator) sleepRun newThreads).map (fun m => (m.tasks 0).stage) =
      some (.asleep sleepWait none) ∧
    (runs (step listAllocator) (sleepRun ++ forkStoreWake) newThreads).map
        (fun m => ((m.tasks 0).stage, (m.tasks 0).returned, (m.tasks 1).returned)) =
      some (.asleep sleepWait none, [], [.ok 1]) :=
  ⟨newThreads_quiet, by decide +kernel, by decide +kernel⟩

/-- Without the fork, the wake lets thread 0 go on. -/
theorem futex_wake_reaches_sleeper : ∃ m m', runs (step listAllocator) sleepRun newThreads = some m ∧
    step listAllocator (.futex 1 0x10008 futexWake 1 0) m = some m' ∧ m.Asleep 0 ∧ ¬ m'.Asleep 0 := by
  have hobs : (runs (step listAllocator) sleepRun newThreads).bind (fun m =>
      (step listAllocator (.futex 1 0x10008 futexWake 1 0) m).map fun m' => decide (
        ((m.tasks 0).stage = .asleep sleepWait none ∧ m.free 1 = true ∧ (m.tasks 1).space = 1 ∧
          (m.tasks 0).space = 1) ∧
        ((findRegion (m.procs.kernel.spaces 1).regions (alignDown 0x10008)).isSome = true ∧
          (m.procs.kernel.pte 1 (pageIndex 0x10008)).present = true ∧
          physical m.procs.kernel 1 0x10008 = 0x1008) ∧
        (m'.tasks 0).returned = (m.tasks 0).returned)) = some true := by decide +kernel
  obtain ⟨m, hm, hobs⟩ := Option.bind_eq_some_iff.mp hobs
  obtain ⟨m', hm', hobs⟩ := Option.map_eq_some_iff.mp hobs
  obtain ⟨⟨hstage, hfree, hs1, hs0⟩, ⟨hreg, hpres, hphys⟩, hret⟩ := of_decide_eq_true hobs
  obtain ⟨m1, hm1, hreach, -⟩ := futex_wake_reaches 1 0 futexWake 1 newThreads_quiet hm
    (.inr ⟨none, hstage⟩) hfree (hs1.trans hs0.symm) (by decide)
    (by rw [hs0]; exact ⟨hreg, hpres⟩)
  have hsame : m1 = m' := Option.mem_unique hm1 hm'
  subst hsame
  exact ⟨m, m1, hm, hm', ⟨_, _, hstage⟩, hreach (by rw [hs0]; exact hphys) [] m1 (by decide) rfl hret⟩

end Fastros.Futex
