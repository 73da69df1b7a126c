import Dynarec.Cond
import Dynarec.Host.Register

/-! # Host instructions

The instructions that emitted code is made of, and the word each one is. Displacements are in
words and are cut to their field; whether they reach is a question of `Host.Branch`. Offsets of
loads and stores are in bytes. -/

namespace Dynarec.Host

/-- Operand width of a general-register instruction. -/
inductive Width where
  | w | x
  deriving DecidableEq, Repr

def Width.bit : Width → BitVec 1
  | w => 0
  | x => 1

def Width.bytes : Width → Nat
  | w => 4
  | x => 8

/-- Width of a vector-register access. -/
inductive VWidth where
  | d | q
  deriving DecidableEq, Repr

def VWidth.bytes : VWidth → Nat
  | d => 8
  | q => 16

/-- Operations on three registers. -/
inductive DataOp where
  | add | adds | sub | subs | adc | adcs | sbc | sbcs | and | ands | orr | orn | eor | bic
  deriving DecidableEq, Repr

/-- The ten bits below the width bit. -/
def DataOp.bits : DataOp → BitVec 10
  | add => 0x058 | adds => 0x158 | sub => 0x258 | subs => 0x358
  | adc => 0x0D0 | adcs => 0x1D0 | sbc => 0x2D0 | sbcs => 0x3D0
  | and => 0x050 | ands => 0x350 | orr => 0x150 | orn => 0x151 | eor => 0x250 | bic => 0x051

inductive Instr where
  | b (disp : Int)
  | bl (disp : Int)
  | bCond (cond : Cond) (disp : Int)
  | cbz (rt : Gpr) (disp : Int)
  | cbnz (rt : Gpr) (disp : Int)
  | br (rn : Gpr)
  | blr (rn : Gpr)
  | ret
  | nop
  | brk (imm : BitVec 16)
  | movz (width : Width) (rd : Gpr) (imm : BitVec 16) (part : BitVec 2)
  | movk (width : Width) (rd : Gpr) (imm : BitVec 16) (part : BitVec 2)
  | addImm (width : Width) (rd rn : Gpr) (imm : BitVec 12)
  | subImm (width : Width) (rd rn : Gpr) (imm : BitVec 12)
  | data (op : DataOp) (width : Width) (rd rn rm : Gpr)
  | csel (rd rn rm : Gpr) (cond : Cond)
  | lsrW (rd rn : Gpr) (shift : BitVec 5)
  | lsrX (rd rn : Gpr) (shift : BitVec 6)
  | bfi (rd rn : Gpr) (lsb width : Nat)
  | mrsFlags (rt : Gpr)
  | msrFlags (rt : Gpr)
  | ldr (width : Width) (rt rn : Gpr) (offset : Nat)
  | str (width : Width) (rt rn : Gpr) (offset : Nat)
  | ldrV (width : VWidth) (rt : Vreg) (rn : Gpr) (offset : Nat)
  | strV (width : VWidth) (rt : Vreg) (rn : Gpr) (offset : Nat)
  | stp (rt rt2 rn : Gpr) (offset : Int)
  | ldp (rt rt2 rn : Gpr) (offset : Int)
  | stpPre (rt rt2 rn : Gpr) (offset : Int)
  | ldpPost (rt rt2 rn : Gpr) (offset : Int)
  | strPre (rt rn : Gpr) (offset : Int)
  | ldrPost (rt rn : Gpr) (offset : Int)
  | strVPre (rt : Vreg) (rn : Gpr) (offset : Int)
  | ldrVPost (rt : Vreg) (rn : Gpr) (offset : Int)
  | fmov (rd rn : Vreg)
  deriving DecidableEq, Repr

namespace Instr

/-- A register move: the zero register or'ed with the source. -/
def mov (width : Width) (rd rm : Gpr) : Instr := .data .orr width rd .zr rm

/-- The complement of a register. -/
def mvn (rd rm : Gpr) : Instr := .data .orn .w rd .zr rm

/-! ### Fields -/

/-- The displacement field of an unconditional branch. -/
def imm26 (disp : Int) : BitVec 26 := BitVec.ofInt 26 disp

/-- The displacement field of a conditional or compare branch. -/
def imm19 (disp : Int) : BitVec 19 := BitVec.ofInt 19 disp

/-- The part of a wide move; a 32-bit register has only two. -/
def partField : Width → BitVec 2 → BitVec 2
  | .w, p => 0#1 ++ p.extractLsb' 0 1
  | .x, p => p

/-- The offset field of a load or store of `bytes` bytes. -/
def scaledField (bytes offset : Nat) : BitVec 12 := BitVec.ofNat 12 (offset / bytes)

/-- The offset field of a pair: eight-byte units, counted toward zero. -/
def pairField (offset : Int) : BitVec 7 := BitVec.ofInt 7 (offset.tdiv 8)

/-- The offset field of an access that moves its base. -/
def indexField (offset : Int) : BitVec 9 := BitVec.ofInt 9 offset

/-! ### Words -/

/-- A load or store with a scaled offset. -/
def accessWord (op : BitVec 10) (bytes offset : Nat) (rn rt : BitVec 5) : Word :=
  op ++ scaledField bytes offset ++ rn ++ rt

/-- A load or store of a pair. -/
def pairWord (op : BitVec 10) (offset : Int) (rt rt2 rn : Gpr) : Word :=
  op ++ pairField offset ++ rt2.code ++ rn.code ++ rt.code

/-- The word of an instruction. -/
def encode : Instr → Word
  | b disp => 0b000101#6 ++ imm26 disp
  | bl disp => 0b100101#6 ++ imm26 disp
  | bCond cond disp => 0x54#8 ++ imm19 disp ++ 0#1 ++ cond.code
  | cbz rt disp => 0x34#8 ++ imm19 disp ++ rt.code
  | cbnz rt disp => 0x35#8 ++ imm19 disp ++ rt.code
  | br rn => 0x3587C0#22 ++ rn.code ++ 0#5
  | blr rn => 0x358FC0#22 ++ rn.code ++ 0#5
  | ret => 0xD65F03C0
  | nop => 0xD503201F
  | brk imm => 0x6A1#11 ++ imm ++ 0#5
  | movz sf rd imm p => sf.bit ++ 0b10100101#8 ++ partField sf p ++ imm ++ rd.code
  | movk sf rd imm p => sf.bit ++ 0b11100101#8 ++ partField sf p ++ imm ++ rd.code
  | addImm sf rd rn imm => sf.bit ++ 0b001000100#9 ++ imm ++ rn.code ++ rd.code
  | subImm sf rd rn imm => sf.bit ++ 0b101000100#9 ++ imm ++ rn.code ++ rd.code
  | data op sf rd rn rm => sf.bit ++ op.bits ++ rm.code ++ 0#6 ++ rn.code ++ rd.code
  | csel rd rn rm cond => 0x0D4#11 ++ rm.code ++ cond.code ++ 0#2 ++ rn.code ++ rd.code
  | lsrW rd rn shift => 0x14C#10 ++ (0#1 ++ shift) ++ 31#6 ++ rn.code ++ rd.code
  | lsrX rd rn shift => 0x34D#10 ++ shift ++ 63#6 ++ rn.code ++ rd.code
  | bfi rd rn lsb width =>
    (0x0CC#10 ++ BitVec.ofNat 6 ((32 - lsb) % 32) ++ 0#6 ++ rn.code ++ rd.code) |||
      (BitVec.ofNat 32 (width - 1) <<< 10)
  | mrsFlags rt => 0x6A9DA10#27 ++ rt.code
  | msrFlags rt => 0x6A8DA10#27 ++ rt.code
  | ldr .w rt rn off => accessWord 0x2E5 4 off rn.code rt.code
  | str .w rt rn off => accessWord 0x2E4 4 off rn.code rt.code
  | ldr .x rt rn off => accessWord 0x3E5 8 off rn.code rt.code
  | str .x rt rn off => accessWord 0x3E4 8 off rn.code rt.code
  | ldrV .d rt rn off => accessWord 0x3F5 8 off rn.code rt.code
  | strV .d rt rn off => accessWord 0x3F4 8 off rn.code rt.code
  | ldrV .q rt rn off => accessWord 0x0F7 16 off rn.code rt.code
  | strV .q rt rn off => accessWord 0x0F6 16 off rn.code rt.code
  | stp rt rt2 rn off => pairWord 0x2A4 off rt rt2 rn
  | ldp rt rt2 rn off => pairWord 0x2A5 off rt rt2 rn
  | stpPre rt rt2 rn off => pairWord 0x2A6 off rt rt2 rn
  | ldpPost rt rt2 rn off => pairWord 0x2A3 off rt rt2 rn
  | strPre rt rn off => 0x7C0#11 ++ indexField off ++ 0b11#2 ++ rn.code ++ rt.code
  | ldrPost rt rn off => 0x7C2#11 ++ indexField off ++ 0b01#2 ++ rn.code ++ rt.code
  | strVPre rt rn off => 0x7E0#11 ++ indexField off ++ 0b11#2 ++ rn.code ++ rt.code
  | ldrVPost rt rn off => 0x7E2#11 ++ indexField off ++ 0b01#2 ++ rn.code ++ rt.code
  | fmov rd rn => 0x079810#22 ++ rn.code ++ rd.code

/-- Whether a byte offset is a multiple of the access size and its quotient fits the field. -/
def offsetFits (bytes offset : Nat) : Bool := offset % bytes == 0 && decide (offset / bytes < 4096)

/-- Whether the operands can be written at all. Offsets of scaled accesses must fit; a bit-field
insert needs a place inside the word and at least one bit. Everything else is cut to its field. -/
def isEncodable : Instr → Bool
  | ldr size _ _ off | str size _ _ off => offsetFits size.bytes off
  | ldrV size _ _ off | strV size _ _ off => offsetFits size.bytes off
  | bfi _ _ lsb width => decide (lsb ≤ 32) && decide (0 < width)
  | _ => true

/-- The word of an instruction whose operands can be written. -/
def encode? (i : Instr) : Option Word := if i.isEncodable then some i.encode else none

end Instr

end Dynarec.Host
