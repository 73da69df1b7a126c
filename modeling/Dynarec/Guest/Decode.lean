import Dynarec.Guest.Instr

/-! # Decoding guest words

Every word decodes. Words outside the supported subset, and all words whose condition field is
`1111`, become an undefined instruction, which a helper handles at run time. -/

namespace Dynarec.Guest

namespace Decode

/-- What a word means apart from its place and condition. -/
structure Body where
  name : String
  kind : Kind
  flags : Flags := {}

/-- The field of `n` bits whose lowest is bit `lsb`. -/
def field (w : Word) (lsb n : Nat) : BitVec n := w.extractLsb' lsb n

def gpr (w : Word) (lsb : Nat) : Gpr := ⟨field w lsb 4⟩

/-- A body that a helper runs without the full guest state being reloaded around it. -/
def helped (name : String) (kind : Kind) : Body := ⟨name, kind, { hostCallSkipContext := true }⟩

def undefined : Body := helped "udf" .undefined

/-! ### Data processing -/

/-- The second operand and whether an immediate was rotated. Shifted registers are not covered. -/
def operand? (w : Word) : Option (Operand × Bool) :=
  if w.bit 25 then
    let rotation := 2 * (field w 8 4).toNat
    let value := ((field w 0 8).setWidth 32).rotateRight rotation
    some (.imm value, rotation != 0)
  else if field w 4 8 == 0 then some (.reg (gpr w 0), false)
  else none

def aluOp? : Nat → Option AluOp
  | 0x0 => some .and
  | 0x1 => some .eor
  | 0x2 => some .sub
  | 0x3 => some .rsb
  | 0x4 => some .add
  | 0x5 => some .adc
  | 0x6 => some .sbc
  | 0xC => some .orr
  | 0xE => some .bic
  | _ => none

def cmpOp? : Nat → Option CmpOp
  | 0x8 => some .tst
  | 0x9 => some .teq
  | 0xA => some .cmp
  | 0xB => some .cmn
  | _ => none

/-- Name and kind of the operation with the given opcode. -/
def operation? (opcode : Nat) (rd rn : Gpr) (operand : Operand) : Option (String × Kind) :=
  match cmpOp? opcode, aluOp? opcode, opcode with
  | some op, _, _ => some (op.name, .compare op rn operand)
  | _, some op, _ => some (op.name, .alu op rd rn operand)
  | _, _, 0xD => some ("mov", .move rd operand false)
  | _, _, 0xF => some ("mvn", .move rd operand true)
  | _, _, _ => none

/-- Compares must set flags; any other operation that sets flags must not write the program counter
(`decode_data_processing`). -/
def dataProcessing? (w : Word) : Option Body := do
  let (operand, rotated) ← operand? w
  let s := w.bit 20
  let rd := gpr w 12
  let opcode := (field w 21 4).toNat
  let isCompare := (cmpOp? opcode).isSome
  if (isCompare && !s) || (s && rd.isPc && !isCompare) then none
  let (name, kind) ← operation? opcode rd (gpr w 16) operand
  some ⟨name, kind, { setsFlags := s, rotatedImm := rotated, branch := kind.writesPc }⟩

/-- The space of compares without the flag bit: register branches and breakpoints
(`decode_misc`). -/
def miscellaneous? (w : Word) : Option Body :=
  if field w 4 24 == 0x12FFF1 then
    some ⟨"bx", .branchExchange (gpr w 0), { branch := true }⟩
  else if field w 4 24 == 0x12FFF3 then
    some ⟨"blx", .branchLinkExchange (gpr w 0), { branch := true, call := true, hostCall := true }⟩
  else if field w 20 8 == 0x12 && field w 4 4 == 0x7 then
    some (helped "bkpt" (.breakpoint (field w 8 12 ++ field w 0 4)))
  else none

/-- The space of data operations (`decode_dp_space`). -/
def dataSpace? (w : Word) : Option Body :=
  if field w 23 3 == 0b010 && field w 20 1 == 0 then miscellaneous? w
  else if field w 0 28 == 0x320F000 then some { name := "nop", kind := .nop }
  else dataProcessing? w

/-! ### Branches, timer, supervisor call, double moves -/

/-- The displacement counts words from eight bytes past the branch (`decode_branch`). -/
def branch (w address : Word) : Body :=
  let target := address + 8 + ((field w 0 24).signExtend 32 <<< 2)
  if w.bit 24 then
    ⟨"bl", .branchLink target, { branch := true, call := true, hostCall := true }⟩
  else ⟨"b", .branch target, { branch := true }⟩

/-- A counter is read into two distinct registers, neither the program counter
(`decode_coproc_transfer`). Bit 4 tells the physical counter from the virtual one and is not looked
at. -/
def timer? (w : Word) : Option Body :=
  let rt := gpr w 12
  let rt2 := gpr w 16
  if field w 20 8 == 0xC5 && field w 5 7 == 0x78 && field w 0 4 == 0xE &&
      !rt.isPc && !rt2.isPc && rt != rt2 then
    some (helped "mrrc" (.readTimer rt rt2))
  else none

/-- The space of supervisor calls and coprocessors (`decode_svc_or_vfp`). -/
def callSpace? (w : Word) : Option Body :=
  if w.bit 24 then some (helped "svc" (.supervisorCall ((field w 0 24).setWidth 32)))
  else if field w 23 5 == 0b11101 && field w 16 6 == 0x30 && field w 6 6 == 0x2D &&
      field w 4 1 == 0 then
    some { name := "vmov.f64",
           kind := .vmove ⟨field w 22 1 ++ field w 12 4⟩ ⟨field w 5 1 ++ field w 0 4⟩ }
  else none

/-- The body of a word at an address, by the three bits that name its space. -/
def body? (w address : Word) : Option Body :=
  match (field w 25 3).toNat with
  | 0 | 1 => dataSpace? w
  | 5 => some (branch w address)
  | 6 => timer? w
  | 7 => callSpace? w
  | _ => none

end Decode

/-- The instruction that the word `w` is at `address`. -/
def decode (w address : Word) : Instr :=
  let cond? := Cond.ofCode? (Decode.field w 28 4)
  let body := (cond?.bind fun _ => Decode.body? w address).getD Decode.undefined
  { address, encoding := w, name := body.name, kind := body.kind, flags := body.flags,
    cond := cond?.getD .al }

end Dynarec.Guest
