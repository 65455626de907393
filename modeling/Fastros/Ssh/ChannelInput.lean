import Fastros.Lib.Run
import Fastros.Ssh.Server

/-!
# Channel input

Where the data of a channel waits until the program reads it: the inbox of a pipe, which
a pump task empties, or the queues of a terminal's line discipline. The server gives
window back for what has arrived, read or not, and compares nothing with the window, so
what bounds a queue is only how fast it is read.
-/

namespace Fastros.Ssh

open List hiding get modify set
open Lib.Run Lib.Stateful

/-- The settings of a terminal that its input depends on. -/
structure Termios where
  iflag : UInt32
  lflag : UInt32
  cc : Nat → UInt8

def istrip : UInt32 := 0x020
def inlcr : UInt32 := 0x040
def igncr : UInt32 := 0x080
def icrnl : UInt32 := 0x100
def isig : UInt32 := 0x001
def icanon : UInt32 := 0x002
def noflsh : UInt32 := 0x080
def iexten : UInt32 := 0x8000

def maxLine : Nat := 4095
def maxQueued : Nat := 64 * 1024

namespace Termios

def canonical (t : Termios) : Bool := t.lflag &&& icanon ≠ 0

def extended (t : Termios) : Bool := t.lflag &&& iexten ≠ 0

/-- A carriage return or newline as it is taken; none if it is ignored. -/
def mapped (t : Termios) (c : UInt8) : Option UInt8 :=
  if c = 13 then
    if t.iflag &&& igncr ≠ 0 then none else if t.iflag &&& icrnl ≠ 0 then some 10 else some c
  else if c = 10 ∧ t.iflag &&& inlcr ≠ 0 then some 13
  else some c

/-- The characters VINTR, VQUIT and VSUSP. -/
def isSignal (t : Termios) (c : UInt8) : Bool :=
  t.lflag &&& isig ≠ 0 ∧ (c = t.cc 0 ∨ c = t.cc 1 ∨ c = t.cc 10)

/-- VLNEXT, VERASE or backspace, VWERASE, VKILL, VREPRINT and VEOF. -/
def isEditing (t : Termios) (c : UInt8) : Bool :=
  t.extended ∧ c = t.cc 15 ∨ c = t.cc 2 ∨ c = 8 ∨ t.extended ∧ c = t.cc 14 ∨ c = t.cc 3 ∨
    t.extended ∧ c = t.cc 12 ∨ c = t.cc 4

/-- A newline, VEOL or VEOL2. -/
def endsLine (t : Termios) (c : UInt8) : Bool := c = 10 ∨ c ≠ 0 ∧ (c = t.cc 11 ∨ c = t.cc 16)

end Termios

/-- The line discipline. An empty line marks the end of the input. -/
structure Ldisc where
  lines : List Bytes := []
  edit : Bytes := []
  raw : Bytes := []
  literalNext : Bool := false

namespace Ldisc

/-- The bytes received and not yet read. -/
def held (ld : Ldisc) : Nat := (ld.lines.map List.length).sum + ld.edit.length + ld.raw.length

/-- The last character, with the continuation bytes it has in UTF-8. -/
def eraseChar (edit : Bytes) : Bytes :=
  (edit.reverse.dropWhile fun c => c &&& 0xC0 = 0x80).tail.reverse

def isSpace (c : UInt8) : Bool := c = 32 ∨ c = 9

def eraseWord (edit : Bytes) : Bytes :=
  ((edit.reverse.dropWhile isSpace).dropWhile fun c => !isSpace c).reverse

def push (c : UInt8) (ld : Ldisc) : Ldisc :=
  if ld.edit.length < maxLine then { ld with edit := ld.edit ++ [c] } else ld

/-- A byte in canonical mode that is not taken literally. -/
def typed (t : Termios) (c : UInt8) (ld : Ldisc) : Ldisc :=
  if t.extended ∧ c = t.cc 15 then { ld with literalNext := true }
  else if c = t.cc 2 ∨ c = 8 then { ld with edit := eraseChar ld.edit }
  else if t.extended ∧ c = t.cc 14 then { ld with edit := eraseWord ld.edit }
  -- erased a character at a time until the line is empty
  else if c = t.cc 3 then { ld with edit := [] }
  else if t.extended ∧ c = t.cc 12 then ld
  else if c = t.cc 4 then { ld with edit := [], lines := ld.lines ++ [ld.edit] }
  else if t.endsLine c then { ld with edit := [], lines := ld.lines ++ [ld.edit ++ [c]] }
  else ld.push c

def stripped (t : Termios) (c : UInt8) : UInt8 := if t.iflag &&& istrip ≠ 0 then c &&& 0x7F else c

def taken (t : Termios) (c : UInt8) (ld : Ldisc) : Option UInt8 :=
  if ld.literalNext then some (stripped t c) else t.mapped (stripped t c)

/-- The queue for a byte; a signal empties all of them. -/
def store (t : Termios) (literal : Bool) (c : UInt8) (ld : Ldisc) : Ldisc :=
  if literal = false ∧ t.isSignal c then
    if t.lflag &&& noflsh = 0 then { ld with edit := [], lines := [], raw := [] } else ld
  else if t.canonical = false then
    if ld.raw.length < maxQueued then { ld with raw := ld.raw ++ [c] } else ld
  else if literal then ld.push c
  else ld.typed t c

/-- `receive_byte`, echo and signals apart. -/
def receiveByte (t : Termios) (c : UInt8) (ld : Ldisc) : Ldisc :=
  match ld.taken t c with
  | none => { ld with literalNext := false }
  | some b => { ld with literalNext := false }.store t ld.literalNext b

/-- `read` of up to `n` bytes. -/
def read (t : Termios) (n : Nat) (ld : Ldisc) : Ldisc :=
  if n = 0 then ld
  else if ld.raw ≠ [] then { ld with raw := ld.raw.drop n }
  else if t.canonical then
    match ld.lines with
    | [] => ld
    | line :: lines => { ld with lines := if n < line.length then line.drop n :: lines else lines }
  else ld

/-- `set_termios`: raw readers get what has been typed so far. -/
def setTermios (was t : Termios) (ld : Ldisc) : Ldisc :=
  if was.canonical ∧ ¬ t.canonical then
    { ld with lines := [], edit := [], raw := ld.raw ++ ld.lines.flatten ++ ld.edit }
  else ld

def flushInput (ld : Ldisc) : Ldisc := { ld with raw := [], lines := [], edit := [] }

/-- The byte goes to a queue that has room for it, or ends a line. -/
def Stores (t : Termios) (literal : Bool) (c : UInt8) (ld : Ldisc) : Prop :=
  (literal = false → t.isSignal c = false) ∧
    if t.canonical = false then ld.raw.length < maxQueued
    else if literal then ld.edit.length < maxLine
    else t.isEditing c = false ∧ (t.endsLine c ∨ ld.edit.length < maxLine)

def Keeps (t : Termios) (c : UInt8) (ld : Ldisc) : Prop :=
  ∃ b, ld.taken t c = some b ∧ ld.Stores t ld.literalNext b

end Ldisc

/-- What a channel's input goes to. -/
inductive Part
  | pipe
  | terminal
  | stream
  | nothing
  deriving DecidableEq

/-- An inbox has its data, the mark of its end, and the chunk that the pump has taken out
and not yet written; there is none once the pump has returned. -/
inductive Input where
  | inbox (data : Bytes) (eof : Bool) (chunk : Option Bytes)
  | terminal (ld : Ldisc)
  /-- A stream is done with a packet when `write_all` returns. -/
  | stream
  | nothing

inductive Feed
  | packet (d : Bytes)
  | eof
  /-- The pump takes the next chunk, or returns at the end of the input. -/
  | take
  /-- The pipe takes the first bytes of the chunk. -/
  | wrote (n : Nat)
  /-- The pipe has no reader: the pump returns. -/
  | broken
  /-- A byte for the terminal, under the settings in force. -/
  | typed (t : Termios) (c : UInt8)
  | read (t : Termios) (n : Nat)
  | setTermios (was t : Termios)
  | flushInput

namespace Input

def opened : Part → Input
  | .pipe => .inbox [] false (some [])
  | .terminal => .terminal {}
  | .stream => .stream
  | .nothing => .nothing

/-- The bytes received and not yet read. -/
def unread : Input → Nat
  | .inbox data _ chunk => data.length + (chunk.getD []).length
  | .terminal ld => ld.held
  | .stream | .nothing => 0

def step : Feed → Input → Input
  | .packet d, .inbox data eof chunk => .inbox (data ++ d) eof chunk
  | .eof, .inbox data _ chunk => .inbox data true chunk
  | .take, .inbox data eof chunk =>
    if chunk = some [] then
      if data = [] then if eof then .inbox data eof none else .inbox data eof chunk
      else .inbox (data.drop 16384) eof (some (data.take 16384))
    else .inbox data eof chunk
  | .wrote n, .inbox data eof chunk => .inbox data eof (chunk.map (·.drop n))
  | .broken, .inbox data eof _ => .inbox data eof none
  | .typed t c, .terminal ld => .terminal (ld.receiveByte t c)
  | .read t n, .terminal ld => .terminal (ld.read t n)
  | .setTermios was t, .terminal ld => .terminal (ld.setTermios was t)
  | .flushInput, .terminal ld => .terminal ld.flushInput
  | _, s => s

/-- What the input of a channel sees of what the server does. -/
def feed (id : UInt32) (part : Part) (t : Termios) : Act → List Feed
  | .input i d =>
    if i ≠ id then [] else if part = .terminal then d.map (.typed t) else [.packet d]
  | .eof i =>
    if i ≠ id then [] else if part = .terminal then [.typed t (t.cc 4)] else [.eof]
  | _ => []

/-- A window and a packet. -/
def bound : Nat := Conn.localWindow.toNat + Conn.localMaxPacket.toNat

/-- What arrives finds room: a packet for all of its bytes, a byte that a terminal keeps
for itself. -/
def Room : Input → Feed → Prop
  | s@(.inbox ..), .packet d => s.unread + d.length ≤ bound
  | .terminal ld, .typed t c => ld.Keeps t c → ld.held < bound
  | _, _ => True

end Input

namespace Ldisc

variable {t : Termios} {c : UInt8} {ld : Ldisc}

theorem eraseChar_length (edit : Bytes) : (eraseChar edit).length ≤ edit.length := by
  have := (dropWhile_sublist (l := edit.reverse) fun c => decide (c &&& 0xC0 = 0x80)).length_le
  simp only [eraseChar, length_reverse, length_tail] at this ⊢
  omega

theorem eraseWord_length (edit : Bytes) : (eraseWord edit).length ≤ edit.length := by
  have h1 := (dropWhile_sublist (l := edit.reverse) isSpace).length_le
  have h2 := (dropWhile_sublist (l := edit.reverse.dropWhile isSpace) fun c => !isSpace c).length_le
  simp only [eraseWord, length_reverse] at h1 ⊢
  omega

theorem held_push (c : UInt8) (ld : Ldisc) :
    (ld.push c).held = ld.held + if ld.edit.length < maxLine then 1 else 0 := by
  unfold push
  split_ifs
  · simp only [held, length_append, length_singleton]
    omega
  · rfl

/-- A byte that edits the line adds nothing. -/
theorem held_typed_editing (h : t.isEditing c = true) : (ld.typed t c).held ≤ ld.held := by
  have h1 := eraseChar_length ld.edit
  have h2 := eraseWord_length ld.edit
  simp only [Termios.isEditing, decide_eq_true_eq] at h
  unfold typed
  split_ifs
  · exact le_rfl
  · simp only [held]
    omega
  · simp only [held]
    omega
  · simp only [held, length_nil]
    omega
  · exact le_rfl
  · simp only [held, map_append, map_singleton, sum_append, sum_singleton,
      length_nil]
    omega
  all_goals tauto

/-- Another byte ends the line or is added to it if there is room. -/
theorem held_typed (h : t.isEditing c = false) :
    (ld.typed t c).held = ld.held + if t.endsLine c ∨ ld.edit.length < maxLine then 1 else 0 := by
  simp only [Termios.isEditing, decide_eq_false_iff_not, not_or] at h
  obtain ⟨h1, h2, h3, h4, h5, h6, h7⟩ := h
  rw [typed, if_neg h1, if_neg (by tauto), if_neg h4, if_neg h5, if_neg h6, if_neg h7]
  by_cases he : t.endsLine c
  · rw [if_pos he, if_pos (.inl he)]
    simp only [held, map_append, map_singleton, sum_append, sum_singleton,
      length_nil, length_append, length_singleton]
    omega
  · rw [if_neg he, held_push]
    simp only [he, Bool.false_eq_true, false_or]

/-- A byte that is stored is one more to be read, and no other byte is. -/
theorem held_store (literal : Bool) :
    (ld.Stores t literal c → (ld.store t literal c).held = ld.held + 1) ∧
      (¬ ld.Stores t literal c → (ld.store t literal c).held ≤ ld.held) := by
  unfold store Stores
  by_cases hsig : literal = false ∧ t.isSignal c = true
  · rw [if_pos hsig]
    refine ⟨fun h => absurd (h.1 hsig.1) (by simp [hsig.2]), fun _ => ?_⟩
    split_ifs
    · simp [held]
    · exact le_rfl
  have hno : literal = false → t.isSignal c = false := fun hl => by simpa [hl] using hsig
  rw [if_neg hsig, and_iff_right hno]
  by_cases hraw : t.canonical = false
  · rw [if_pos hraw, if_pos hraw]
    split_ifs with hroom
    · refine ⟨fun _ => ?_, fun h => absurd hroom h⟩
      simp only [held, length_append, length_singleton]
      omega
    · exact ⟨fun h => absurd h hroom, fun _ => le_rfl⟩
  rw [if_neg hraw, if_neg hraw]
  cases literal with
  | true =>
    simp only [if_true, held_push]
    split_ifs with hroom
    · exact ⟨fun _ => rfl, fun h => absurd hroom h⟩
    · exact ⟨fun h => absurd h hroom, fun _ => le_rfl⟩
  | false =>
    simp only [Bool.false_eq_true, if_false]
    cases hed : t.isEditing c with
    | true => exact ⟨fun h => absurd h.1 (by decide), fun _ => held_typed_editing hed⟩
    | false =>
      rw [held_typed hed]
      split_ifs with hroom
      · exact ⟨fun _ => rfl, fun h => absurd ⟨rfl, hroom⟩ h⟩
      · exact ⟨fun h => absurd h.2 hroom, fun _ => le_rfl⟩

theorem held_receiveByte (t : Termios) (c : UInt8) (ld : Ldisc) :
    (ld.Keeps t c → (ld.receiveByte t c).held = ld.held + 1) ∧
      (¬ ld.Keeps t c → (ld.receiveByte t c).held ≤ ld.held) := by
  unfold receiveByte Keeps
  cases ld.taken t c with
  | none => simp [held]
  | some b =>
    obtain ⟨hstore, hdrop⟩ := @held_store t b { ld with literalNext := false } ld.literalNext
    simp only [Option.some.injEq, exists_eq_left']
    exact ⟨hstore, hdrop⟩

theorem held_read (n : Nat) : (ld.read t n).held ≤ ld.held := by
  unfold read
  split_ifs with h0 hraw hcan
  · exact le_rfl
  · simp only [held, length_drop]
    omega
  · cases hl : ld.lines with
    | nil => exact le_rfl
    | cons line lines =>
      simp only [held, hl]
      split_ifs <;> simp only [map_cons, sum_cons, length_drop] <;> omega
  · exact le_rfl

theorem held_setTermios (was : Termios) : (ld.setTermios was t).held = ld.held := by
  unfold setTermios
  split_ifs
  · simp only [held, map_nil, sum_nil, length_nil, length_append,
      length_flatten]
    omega
  · rfl

end Ldisc

namespace Input

/-- Within the bound, a step stays within it exactly if what arrives finds room. -/
theorem unread_step (s : Input) (e : Feed) (h : s.unread ≤ bound) :
    (step e s).unread ≤ bound ↔ s.Room e := by
  cases s with
  | inbox data eof chunk =>
    cases e with
    | packet d =>
      simp only [step, Room, unread, length_append]
      omega
    | take =>
      refine iff_of_true (le_trans ?_ h) trivial
      simp only [step]
      split_ifs with h1 h2 h3
      · simp [unread]
      · exact le_rfl
      · simp only [unread, h1, Option.getD_some, length_drop, length_take, length_nil]
        omega
      · exact le_rfl
    | wrote n =>
      refine iff_of_true (le_trans ?_ h) trivial
      cases chunk with
      | none => exact le_rfl
      | some chunk =>
        simp only [step, unread, Option.map_some, Option.getD_some, length_drop]
        omega
    | broken => exact iff_of_true (le_trans (by simp [step, unread]) h) trivial
    | _ => exact iff_of_true h trivial
  | terminal ld =>
    cases e with
    | typed t c =>
      obtain ⟨hkeep, hdrop⟩ := ld.held_receiveByte t c
      by_cases hk : ld.Keeps t c
      · simp only [step, Room, unread, hkeep hk, hk, forall_true_left]
        exact Nat.succ_le_iff
      · exact iff_of_true ((hdrop hk).trans h) fun hk' => absurd hk' hk
    | read t n => exact iff_of_true ((Ldisc.held_read n).trans h) trivial
    | setTermios was t => exact iff_of_true ((Ldisc.held_setTermios was).trans_le h) trivial
    | flushInput => exact iff_of_true (Nat.zero_le _) trivial
    | _ => exact iff_of_true h trivial
  | stream | nothing => cases e <;> exact iff_of_true h trivial

end Input

open Input

/-- The server passes every packet on, whatever the window it counts. -/
theorem channelInput_feed (env : Env) (ch : Channel) (data : Bytes) (c : Conn) (id : UInt32)
    (part : Part) (t : Termios) :
    (stateOf (Conn.channelInput env ch data c)).log.flatMap (feed id part t) =
      c.log.flatMap (feed id part t) ++ feed id part t (.input ch.localId data) := by
  unfold Conn.channelInput Conn.send Conn.setChannel Conn.act Conn.fail
  simp only [run_bind, run_modify]
  split_ifs with hused
  · -- the window is opened again, or the message that does so fails
    simp only [run_bind, run_modify, run_get]
    split_ifs <;> simp [stateOf, run_modify, run_throw, feed]
  · simp [stateOf, run_modify, feed]

/-- Packets that the pump does not get to all stay in the inbox. -/
theorem unread_flood (d : Bytes) : ∀ (n : Nat) (data : Bytes) (eof : Bool) (chunk : Option Bytes),
    (run step (List.replicate n (.packet d)) (.inbox data eof chunk)).unread =
      (Input.inbox data eof chunk).unread + n * d.length
  | 0, _, _, _ => by simp [run]
  | n + 1, data, eof, chunk => by
    refine (unread_flood d n (data ++ d) eof chunk).trans ?_
    simp only [unread, length_append, Nat.succ_mul]
    omega

/-- A terminal in canonical mode. -/
def cooked : Termios := ⟨0, icanon, fun _ => 0⟩

/-- Empty lines that nobody reads stay in the terminal's queue. -/
theorem held_lines : ∀ (n : Nat) (lines : List Bytes),
    (run step (List.replicate n (.typed cooked 10)) (.terminal { lines })).unread =
      (lines.map List.length).sum + n
  | 0, _ => rfl
  | n + 1, lines => by
    have hnext : Ldisc.receiveByte cooked 10 { lines } = { lines := lines ++ [[10]] } := rfl
    refine (congrArg _ (congrArg _ (congrArg _ hnext))).trans ((held_lines n (lines ++ [[10]])).trans ?_)
    simp only [map_append, sum_append, map_singleton, sum_singleton,
      length_singleton]
    omega

end Fastros.Ssh
