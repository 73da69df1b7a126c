import Dynarec.Guest.Instr
import Dynarec.Proofs.Machine.Flags

/-! # The guest machine

What guest instructions do when they run one by one: data instructions, and transfers that need
no helper. A transfer writes the program counter as it is given, without regard to its low bits. -/

namespace Dynarec.Guest

/-- Whether an instruction is run without a call of any kind. -/
def Kind.isPlain : Kind → Bool
  | alu .. | move .. | compare .. | vmove .. | nop | branch _ | branchExchange _ => true
  | _ => false

/-- Whether an instruction does nothing but compute: all it does is to write registers and flags. -/
def Kind.computes : Kind → Bool
  | alu .. | move .. | compare .. | vmove .. => true
  | _ => false

/-- The general register numbered 15 is not used: the program counter stands apart. -/
structure State where
  r : Gpr → Word
  d : Dreg → DWord
  flags : Nzcv
  pc : Word

namespace State

def setFlags (s : State) (f : Nzcv) : State := { s with flags := f }

def setD (s : State) (d : Dreg) (value : DWord) : State :=
  { s with d := fun e => if e = d then value else s.d e }

def setGpr (s : State) (r : Gpr) (value : Word) : State :=
  { s with r := fun q => if q = r then value else s.r q }

def goto (s : State) (pc : Word) : State := { s with pc }

theorem setGpr_self (s : State) (r : Gpr) : s.setGpr r (s.r r) = s := by
  have hr : (fun q => if q = r then s.r r else s.r q) = s.r := by
    funext q
    split
    · rename_i hq
      rw [hq]
    · rfl
  unfold setGpr
  rw [hr]

/-- Writes the result of an instruction that is followed by one at `next`. -/
def put (s : State) (rd : Gpr) (value next : Word) : State :=
  if rd.isPc then s.goto value else (s.setGpr rd value).goto next

theorem put_setFlags (s : State) (f : Nzcv) (rd : Gpr) (value next : Word) :
    (s.setFlags f).put rd value next = (s.put rd value next).setFlags f := by
  unfold put
  split <;> rfl

theorem flags_put (s : State) (rd : Gpr) (value next : Word) :
    (s.put rd value next).flags = s.flags := by
  unfold put
  split <;> rfl

end State

/-- The result of an operation and the flags that go with it. Logical operations take the carry
from the second operand and leave the overflow. -/
def AluOp.eval (op : AluOp) (f : Nzcv) (shifter : Bool) (a b : Word) : Word × Nzcv :=
  match op with
  | and => (a &&& b, .ofResult (a &&& b) shifter f.v)
  | eor => (a ^^^ b, .ofResult (a ^^^ b) shifter f.v)
  | orr => (a ||| b, .ofResult (a ||| b) shifter f.v)
  | bic => (a &&& ~~~b, .ofResult (a &&& ~~~b) shifter f.v)
  | sub => addWithCarry a (~~~b) true
  | rsb => addWithCarry (~~~a) b true
  | add => addWithCarry a b false
  | adc => addWithCarry a b f.c
  | sbc => addWithCarry a (~~~b) f.c

def CmpOp.eval (op : CmpOp) (f : Nzcv) (shifter : Bool) (a b : Word) : Nzcv :=
  match op with
  | tst => .ofResult (a &&& b) shifter f.v
  | teq => .ofResult (a ^^^ b) shifter f.v
  | cmp => (addWithCarry a (~~~b) true).2
  | cmn => (addWithCarry a b false).2

namespace Instr

/-- A register as an operand; the program counter reads eight bytes ahead. -/
def readGpr (i : Instr) (s : State) (r : Gpr) : Word := if r.isPc then i.address + 8 else s.r r

def readOperand (i : Instr) (s : State) : Operand → Word
  | .reg r => i.readGpr s r
  | .imm value => value

/-- The carry out of the second operand. -/
def shifter (i : Instr) (s : State) : Operand → Bool
  | .imm value => if i.flags.rotatedImm then value.getLsbD 31 else s.flags.c
  | .reg _ => s.flags.c

/-- What a plain instruction does if it takes effect. -/
def effect (i : Instr) (s : State) : Option State :=
  let next := i.address + 4
  match i.kind with
  | .alu op rd rn operand =>
    let result := op.eval s.flags (i.shifter s operand) (i.readGpr s rn) (i.readOperand s operand)
    some ((s.setFlags (if i.setsFlags then result.2 else s.flags)).put rd result.1 next)
  | .move rd operand negate =>
    let value := i.readOperand s operand
    let result := if negate then ~~~value else value
    let flags := Nzcv.ofResult result (i.shifter s operand) s.flags.v
    some ((s.setFlags (if i.setsFlags then flags else s.flags)).put rd result next)
  | .compare op rn operand =>
    let flags := op.eval s.flags (i.shifter s operand) (i.readGpr s rn) (i.readOperand s operand)
    some ((s.setFlags flags).goto next)
  | .vmove dd dm => some ((s.setD dd (s.d dm)).goto next)
  | .branch t => some (s.goto t)
  | .branchExchange rm => some (s.goto (i.readGpr s rm))
  | .nop => some (s.goto next)
  | _ => none

def step (i : Instr) (s : State) : Option State :=
  if i.cond.holds s.flags then i.effect s else some (s.goto (i.address + 4))

end Instr

/-! ### What data instructions write -/

/-- What an instruction writes: a general register or the program counter, a double register, the
flags. -/
structure Written where
  gpr : Option (Gpr × Word) := none
  dreg : Option (Dreg × DWord) := none
  flags : Option Nzcv := none

/-- Whether the program counter is written. -/
def Written.writesPc (w : Written) : Bool := w.gpr.any (·.1.isPc)

/-- Writes a result, if there is one; the next instruction stands at `next`. -/
def State.put? (s : State) (next : Word) : Option (Gpr × Word) → State
  | none => s.goto next
  | some (rd, value) => s.put rd value next

def State.setD? (s : State) : Option (Dreg × DWord) → State
  | none => s
  | some (dd, value) => s.setD dd value

theorem State.flags_put? (s : State) (next : Word) (g : Option (Gpr × Word)) :
    (s.put? next g).flags = s.flags := by
  cases g with
  | none => rfl
  | some p => exact flags_put ..

/-- The state when all is written by an instruction that is followed by one at `next`. -/
def Written.apply (w : Written) (s : State) (next : Word) : State :=
  ((s.put? next w.gpr).setD? w.dreg).setFlags (w.flags.getD s.flags)

theorem Written.pc_apply {w : Written} (h : w.writesPc = false) (s : State) (next : Word) :
    (w.apply s next).pc = next := by
  obtain ⟨g, d, f⟩ := w
  have hput : (s.put? next g).pc = next := by
    cases g with
    | none => rfl
    | some p => exact congrArg State.pc (if_neg (ne_true_of_eq_false h))
  cases d <;> exact hput

theorem Written.apply_pc {rd : Gpr} (h : rd.isPc = true) (f : Option Nzcv) (s : State)
    (value next : Word) : Written.apply { gpr := some (rd, value), flags := f } s next =
      (s.goto value).setFlags (f.getD s.flags) :=
  congrArg (State.setFlags · (f.getD s.flags)) (if_pos h)

/-- Every register that would be written gets the value that it has. -/
def Written.restored (w : Written) (s : State) : Written where
  gpr := w.gpr.map fun p => (p.1, s.r p.1)
  dreg := w.dreg.map fun p => (p.1, s.d p.1)

theorem Written.writesPc_restored (w : Written) (s : State) :
    (w.restored s).writesPc = w.writesPc := by
  obtain ⟨g, d, f⟩ := w
  cases g <;> rfl

namespace Instr

/-- A register as an operand of an instruction of either length. -/
def gprValue (i : Instr) (s : State) (r : Gpr) : Word := if r.isPc then i.pcReadValue else s.r r

def operandValue (i : Instr) (s : State) : Operand → Word
  | .reg r => i.gprValue s r
  | .imm value => value

/-- What a data instruction writes if it takes effect. Comparisons set the flags in any case. -/
def written? (i : Instr) (s : State) : Option Written :=
  match i.kind with
  | .alu op rd rn operand =>
    let result := op.eval s.flags (i.shifter s operand) (i.gprValue s rn) (i.operandValue s operand)
    some { gpr := some (rd, result.1), flags := if i.setsFlags then some result.2 else none }
  | .move rd operand negate =>
    let value := i.operandValue s operand
    let result := if negate then ~~~value else value
    let flags := Nzcv.ofResult result (i.shifter s operand) s.flags.v
    some { gpr := some (rd, result), flags := if i.setsFlags then some flags else none }
  | .compare op rn operand =>
    some { flags := some (op.eval s.flags (i.shifter s operand) (i.gprValue s rn)
      (i.operandValue s operand)) }
  | .vmove dd dm => some { dreg := some (dd, s.d dm) }
  | _ => none

theorem exists_written {i : Instr} (h : i.kind.computes = true) (s : State) :
    ∃ w, i.written? s = some w := by
  unfold written?
  cases hk : i.kind with
  | alu | move | compare | vmove => exact ⟨_, rfl⟩
  | _ =>
    rw [hk] at h
    cases h

/-- What a data instruction writes under a condition. -/
def writtenUnder? (i : Instr) (c : Cond) (s : State) : Option Written :=
  (i.written? s).map fun w => if c.holds s.flags then w else w.restored s

theorem writtenUnder_of_holds (i : Instr) {c : Cond} {s : State} (h : c.holds s.flags = true) :
    i.writtenUnder? c s = i.written? s := by
  simp only [writtenUnder?, h, if_true, Option.map_id']

end Instr

/-- The instruction at the program counter is run. -/
def step (is : List Instr) (s : State) : Option State :=
  (is.find? (·.address == s.pc)).bind (·.step s)

/-- Instructions are run one by one. -/
def steps (is : List Instr) : Nat → State → Option State
  | 0, s => some s
  | n + 1, s => (step is s).bind (steps is n)

end Dynarec.Guest
