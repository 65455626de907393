import Fastros.Lib.Bytes

/-!
# Classic BPF programs over a system call

`run_prog` of the seccomp module and the `seccomp_data` image it reads. The scratch
words `mem` are only ever read, since no store instruction is accepted.
-/

namespace Fastros.Seccomp

open Lib.Bytes (toLeBytes fromLeBytes)

/-- `struct sock_filter`. -/
structure SockFilter where
  code : UInt16
  jt : UInt8
  jf : UInt8
  k : UInt32
  deriving DecidableEq, Repr

/-- A system call as `decide` is given it. -/
structure Call where
  nr : UInt64
  ip : UInt64
  args : Fin 6 → UInt64

def auditArchX8664 : UInt32 := 0xC000003E

/-- `Data::new`: nr at 0, arch at 4, ip at 8, the arguments from 16 on. -/
def Call.data (c : Call) : List UInt8 :=
  toLeBytes 4 c.nr.toNat ++ toLeBytes 4 auditArchX8664.toNat ++ toLeBytes 8 c.ip.toNat ++
    (List.ofFn c.args).flatMap fun a => toLeBytes 8 a.toNat

/-- `Data::word`. -/
def word (buf : List UInt8) (k : UInt32) : Option UInt32 :=
  if k.toNat + 4 > buf.length then none
  else some (UInt32.ofNat (fromLeBytes ((buf.drop k.toNat).take 4)))

def bpfLd : UInt16 := 0x00
def bpfLdx : UInt16 := 0x01
def bpfAlu : UInt16 := 0x04
def bpfJmp : UInt16 := 0x05
def bpfRet : UInt16 := 0x06
def bpfMisc : UInt16 := 0x07
def bpfAbs : UInt16 := 0x20
def bpfImm : UInt16 := 0x00
def bpfMem : UInt16 := 0x60
def bpfLen : UInt16 := 0x80
def bpfJa : UInt16 := 0x00
def bpfJeq : UInt16 := 0x10
def bpfJgt : UInt16 := 0x20
def bpfJge : UInt16 := 0x30
def bpfJset : UInt16 := 0x40
def bpfAdd : UInt16 := 0x00
def bpfSub : UInt16 := 0x10
def bpfAnd : UInt16 := 0x50
def bpfOr : UInt16 := 0x40
def bpfLsh : UInt16 := 0x60
def bpfRsh : UInt16 := 0x70
def bpfX : UInt16 := 0x08
def bpfA : UInt16 := 0x10
def bpfClass : UInt16 := 0x07

def retKillProcess : UInt32 := 0x80000000
def retKillThread : UInt32 := 0x00000000
def retTrap : UInt32 := 0x00030000
def retErrno : UInt32 := 0x00050000
def retTrace : UInt32 := 0x7ff00000
def retLog : UInt32 := 0x7ffc0000
def retAllow : UInt32 := 0x7fff0000

/-- `*mem.get(k).unwrap_or(&0)`, with `mem` sixteen zeroes. -/
def memWord (k : UInt32) : UInt32 := (List.replicate 16 (0 : UInt32)).getD k.toNat 0

/-- What a load into `A` (`BPF_LD`) yields. -/
def loadA (ins : SockFilter) (data : List UInt8) : Option UInt32 :=
  let modes := ins.code &&& 0xe0
  if modes = bpfAbs then word data ins.k
  else if modes = bpfImm then some ins.k
  else if modes = bpfMem then some (memWord ins.k)
  else if modes = bpfLen then some 64
  else none

/-- What a load into `X` (`BPF_LDX`) yields. -/
def loadX (ins : SockFilter) : Option UInt32 :=
  let modes := ins.code &&& 0xe0
  if modes = bpfImm then some ins.k
  else if modes = bpfMem then some (memWord ins.k)
  else if modes = bpfLen then some 64
  else none

/-- The shifts take their count modulo 32, as `wrapping_shl` does. -/
def alu (op : UInt16) (a val : UInt32) : UInt32 :=
  if op = bpfAdd then a + val
  else if op = bpfSub then a - val
  else if op = bpfAnd then a &&& val
  else if op = bpfOr then a ||| val
  else if op = bpfLsh then a <<< val
  else if op = bpfRsh then a >>> val
  else a

def jumpCond (op : UInt16) (a val : UInt32) : Bool :=
  if op = bpfJeq then a == val
  else if op = bpfJgt then decide (a > val)
  else if op = bpfJge then decide (a ≥ val)
  else if op = bpfJset then a &&& val != 0
  else false

/-- One instruction either returns an action value or moves on. -/
inductive Outcome where
  | next (a x : UInt32) (pc : Nat)
  | ret (r : UInt32)

def SockFilter.exec (ins : SockFilter) (data : List UInt8) (a x : UInt32) (pc : Nat) : Outcome :=
  let class_ := ins.code &&& bpfClass
  let op := ins.code &&& 0xf0
  let val := if ins.code &&& 0x08 = bpfX then x else ins.k
  if class_ = bpfLd then
    match loadA ins data with
    | some w => .next w x (pc + 1)
    | none => .ret retKillProcess
  else if class_ = bpfLdx then
    match loadX ins with
    | some w => .next a w (pc + 1)
    | none => .ret retKillProcess
  else if class_ = bpfAlu then .next (alu op a val) x (pc + 1)
  else if class_ = bpfJmp then
    if op = bpfJa then .next a x (pc + (1 + ins.k.toNat))
    else .next a x (pc + (1 + (if jumpCond op a val then ins.jt else ins.jf).toNat))
  else if class_ = bpfRet then .ret (if ins.code &&& 0x18 = bpfA then a else ins.k)
  else if class_ = bpfMisc then .next a x (pc + 1)
  else .ret retKillProcess

/-- The loop of `run_prog` with `fuel` of its 4096 steps left. -/
def runFrom (prog : List SockFilter) (data : List UInt8) : Nat → UInt32 → UInt32 → Nat → UInt32
  | 0, _, _, _ => retKillProcess
  | fuel + 1, a, x, pc =>
    match prog[pc]? with
    | none => retKillProcess
    | some ins =>
      match ins.exec data a x pc with
      | .ret r => r
      | .next a x pc => runFrom prog data fuel a x pc

def runProg (prog : List SockFilter) (data : List UInt8) : UInt32 := runFrom prog data 4096 0 0 0

/-- Every jump goes forward. -/
theorem exec_pc {ins : SockFilter} {data : List UInt8} {a x a' x' : UInt32} {pc pc' : Nat}
    (h : ins.exec data a x pc = .next a' x' pc') : pc < pc' := by
  unfold SockFilter.exec at h
  grind

/-- A loop that has as many steps left as instructions ahead is not stopped by
the step limit, so more steps would change nothing. -/
theorem runFrom_add (prog : List SockFilter) (data : List UInt8) (n fuel : Nat) :
    ∀ a x pc, prog.length ≤ pc + fuel →
      runFrom prog data (fuel + n) a x pc = runFrom prog data fuel a x pc := by
  induction fuel with
  | zero =>
    intro a x pc hlen
    have hend : prog[pc]? = none := List.getElem?_eq_none (by omega)
    cases n with
    | zero => rfl
    | succ n => simp only [runFrom, hend]
  | succ fuel ih =>
    intro a x pc hlen
    cases hins : prog[pc]? with
    | none => simp only [Nat.succ_add, runFrom, hins]
    | some ins =>
      cases hex : ins.exec data a x pc with
      | ret r => simp only [Nat.succ_add, runFrom, hins, hex]
      | next a' x' pc' =>
        have := exec_pc hex
        simp only [Nat.succ_add, runFrom, hins, hex]
        exact ih a' x' pc' (by omega)

/-- The step limit never decides a program of at most 4096 instructions. -/
theorem runProg_unlimited (prog : List SockFilter) (data : List UInt8) (n : Nat)
    (h : prog.length ≤ 4096) : runFrom prog data (4096 + n) 0 0 0 = runProg prog data :=
  runFrom_add prog data n 4096 0 0 0 (by omega)

/-- A jump over a return to another one. -/
theorem runProg_unlimited_jump : runFrom [⟨5, 0, 0, 1⟩, ⟨6, 0, 0, 0⟩, ⟨6, 0, 0, 7⟩] [] 5000 0 0 0 = 7 :=
  (runProg_unlimited _ [] 904 (by decide)).trans (by decide +kernel)

end Fastros.Seccomp
