import Dynarec.Host.Instr
import Dynarec.Proofs.Machine.Flags
import Dynarec.Proofs.Machine.Memory

/-! # The host machine

How the instructions of emitted code change registers, flags and memory. A unit is run from a
table of instructions by index; calls to routines of the host are a parameter, and the jump that
ends a unit is where a run stops. -/

namespace Dynarec.Host

/-- The program counter is an index into code. Register 31 is the stack pointer. -/
structure State where
  pc : Nat
  x : Gpr → DWord
  v : Vreg → BitVec 128
  flags : Nzcv
  mem : Mem

abbrev Width.bits : Width → Nat
  | .w => 32
  | .x => 64

namespace State

/-- A register as an operand, where number 31 reads as zero. -/
def reg (s : State) (r : Gpr) : DWord := if r = .zr then 0 else s.x r

/-- The low part of a register that an operation of the given width uses. -/
def low (s : State) (width : Width) (r : Gpr) : BitVec width.bits := (s.reg r).setWidth width.bits

def setBase (s : State) (r : Gpr) (value : DWord) : State :=
  { s with x := fun q => if q = r then value else s.x q }

/-- A register as a destination; what is written to number 31 is lost. -/
def set (s : State) (r : Gpr) (value : DWord) : State :=
  if r = .zr then s else s.setBase r value

/-- The result of an operation of the given width; the rest of the register becomes zero. -/
def setLow (s : State) {n : Nat} (r : Gpr) (value : BitVec n) : State := s.set r (value.setWidth 64)

def setV (s : State) (r : Vreg) (value : BitVec 128) : State :=
  { s with v := fun q => if q = r then value else s.v q }

def setFlags (s : State) (f : Nzcv) : State := { s with flags := f }

def store (s : State) (a : DWord) (n : Nat) (value : BitVec (8 * n)) : State :=
  { s with mem := s.mem.write a n value }

def skip (s : State) (n : Nat) : State := { s with pc := s.pc + n }

/-- The state after a branch by a displacement. -/
def jump (s : State) (disp : Int) : Option State :=
  if 0 ≤ s.pc + disp then some { s with pc := (s.pc + disp).toNat } else none

end State

/-- The result of an operation on two operands, and the flags if it sets them. -/
def DataOp.eval {n : Nat} (op : DataOp) (f : Nzcv) (a b : BitVec n) : BitVec n × Nzcv :=
  match op with
  | .add => ((addWithCarry a b false).1, f)
  | .adds => addWithCarry a b false
  | .sub => ((addWithCarry a (~~~b) true).1, f)
  | .subs => addWithCarry a (~~~b) true
  | .adc => ((addWithCarry a b f.c).1, f)
  | .adcs => addWithCarry a b f.c
  | .sbc => ((addWithCarry a (~~~b) f.c).1, f)
  | .sbcs => addWithCarry a (~~~b) f.c
  | .and => (a &&& b, f)
  | .ands => (a &&& b, .ofResult (a &&& b) false false)
  | .orr => (a ||| b, f)
  | .orn => (a ||| ~~~b, f)
  | .eor => (a ^^^ b, f)
  | .bic => (a &&& ~~~b, f)

/-- The value with `width` bits from bit `lsb` on replaced by the lowest bits of another. -/
def insertField {n : Nat} (old new : BitVec n) (lsb width : Nat) : BitVec n :=
  let mask := (BitVec.allOnes width).setWidth n <<< lsb
  (old &&& ~~~mask) ||| (new <<< lsb &&& mask)

open State in
/-- One instruction, if it is neither a call nor the end of a run. -/
def Instr.exec (i : Instr) (s : State) : Option State :=
  match i with
  | b disp => s.jump disp
  | bCond cond disp => if cond.holds s.flags then s.jump disp else some (s.skip 1)
  | cbz rt disp => if s.low .w rt = 0 then s.jump disp else some (s.skip 1)
  | cbnz rt disp => if s.low .w rt = 0 then some (s.skip 1) else s.jump disp
  | nop => some (s.skip 1)
  | movz sf rd imm part => some <|
    (s.setLow rd (imm.setWidth sf.bits <<< (16 * part.toNat))).skip 1
  | movk sf rd imm part => some <|
    (s.setLow rd (insertField (s.low sf rd) (imm.setWidth sf.bits) (16 * part.toNat) 16)).skip 1
  | addImm sf rd rn imm => some <|
    (s.setBase rd (((s.x rn).setWidth sf.bits + imm.setWidth sf.bits).setWidth 64)).skip 1
  | subImm sf rd rn imm => some <|
    (s.setBase rd (((s.x rn).setWidth sf.bits - imm.setWidth sf.bits).setWidth 64)).skip 1
  | data op sf rd rn rm =>
    let r := op.eval s.flags (s.low sf rn) (s.low sf rm)
    some (((s.setLow rd r.1).setFlags r.2).skip 1)
  | csel rd rn rm cond => some <|
    (s.setLow rd (if cond.holds s.flags then s.low .w rn else s.low .w rm)).skip 1
  | lsrW rd rn shift => some ((s.setLow rd (s.low .w rn >>> shift)).skip 1)
  | lsrX rd rn shift => some ((s.setLow rd (s.low .x rn >>> shift)).skip 1)
  | bfi rd rn lsb width => some <|
    (s.setLow rd (insertField (s.low .w rd) (s.low .w rn) lsb width)).skip 1
  | mrsFlags rt => some ((s.setLow rt s.flags.toWord).skip 1)
  | msrFlags rt => some ((s.setFlags (.ofWord (s.low .w rt))).skip 1)
  | ldr sf rt rn offset => some <|
    (s.setLow rt (s.mem.read (s.x rn + BitVec.ofNat 64 offset) sf.bytes)).skip 1
  | str sf rt rn offset => some <|
    (s.store (s.x rn + BitVec.ofNat 64 offset) sf.bytes ((s.reg rt).setWidth (8 * sf.bytes))).skip 1
  | ldrV vw rt rn offset => some <|
    (s.setV rt ((s.mem.read (s.x rn + BitVec.ofNat 64 offset) vw.bytes).setWidth 128)).skip 1
  | strV vw rt rn offset => some <|
    (s.store (s.x rn + BitVec.ofNat 64 offset) vw.bytes ((s.v rt).setWidth (8 * vw.bytes))).skip 1
  | stp rt rt2 rn offset =>
    let a := s.x rn + BitVec.ofInt 64 offset
    some (((s.store a 8 (s.reg rt)).store (a + 8) 8 (s.reg rt2)).skip 1)
  | ldp rt rt2 rn offset =>
    let a := s.x rn + BitVec.ofInt 64 offset
    some (((s.set rt (s.mem.read a 8)).set rt2 (s.mem.read (a + 8) 8)).skip 1)
  | stpPre rt rt2 rn offset =>
    let a := s.x rn + BitVec.ofInt 64 offset
    some ((((s.store a 8 (s.reg rt)).store (a + 8) 8 (s.reg rt2)).setBase rn a).skip 1)
  | ldpPost rt rt2 rn offset =>
    let a := s.x rn
    some ((((s.setBase rn (a + BitVec.ofInt 64 offset)).set rt (s.mem.read a 8)).set rt2
      (s.mem.read (a + 8) 8)).skip 1)
  | strPre rt rn offset =>
    let a := s.x rn + BitVec.ofInt 64 offset
    some (((s.store a 8 (s.reg rt)).setBase rn a).skip 1)
  | ldrPost rt rn offset =>
    let a := s.x rn
    some (((s.setBase rn (a + BitVec.ofInt 64 offset)).set rt (s.mem.read a 8)).skip 1)
  | strVPre rt rn offset =>
    let a := s.x rn + BitVec.ofInt 64 offset
    some (((s.store a 8 ((s.v rt).setWidth (8 * 8))).setBase rn a).skip 1)
  | ldrVPost rt rn offset =>
    let a := s.x rn
    some (((s.setBase rn (a + BitVec.ofInt 64 offset)).setV rt
      ((s.mem.read a 8).setWidth 128)).skip 1)
  | fmov rd rn => some ((s.setV rd (((s.v rn).setWidth 64).setWidth 128)).skip 1)
  | bl _ | br _ | blr _ | ret | brk _ => none

/-- One step of code given by index. A call of a routine of the host is one step, which comes back
behind the call; `call` says what states it may leave. -/
inductive Step (fetch : Nat → Option Instr) (call : State → State → Prop) : State → State → Prop
  | exec {i : Instr} {s s' : State} (hi : fetch s.pc = some i) (hs : i.exec s = some s') :
    Step fetch call s s'
  | call {r : Gpr} {s s' : State} (hi : fetch s.pc = some (.blr r)) (hs : call s s')
    (hpc : s'.pc = s.pc + 1) : Step fetch call s s'

/-- A run of `n` steps. -/
inductive Run (fetch : Nat → Option Instr) (call : State → State → Prop) :
    Nat → State → State → Prop
  | refl (s : State) : Run fetch call 0 s s
  | step {n : Nat} {s s' t : State} (h : Step fetch call s s') (hrun : Run fetch call n s' t) :
    Run fetch call (n + 1) s t

end Dynarec.Host
