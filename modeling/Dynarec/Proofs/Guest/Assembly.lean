import Dynarec.Proofs.Guest.Decode
import Dynarec.Proofs.Host.Branch

/-! # Assembling guest words

The encodings of the supported subset, field by field as an assembler writes them, and the
instruction that each of them stands for. Decoding is the converse: it reads every assembled word
back and takes every other word to be undefined. -/

namespace Dynarec.Guest

/-! ### The subset as it is written -/

def AluOp.opcode : AluOp → BitVec 4
  | and => 0x0 | eor => 0x1 | sub => 0x2 | rsb => 0x3 | add => 0x4 | adc => 0x5 | sbc => 0x6
  | orr => 0xC | bic => 0xE

def CmpOp.opcode : CmpOp → BitVec 4
  | tst => 0x8 | teq => 0x9 | cmp => 0xA | cmn => 0xB

/-- A second operand: a byte with half of its rotation to the right, or a register that is not
shifted. -/
inductive Shifter where
  | imm (rotation : BitVec 4) (value : BitVec 8)
  | reg (r : Gpr)
  deriving DecidableEq, Repr

namespace Shifter

/-- The bit that tells an immediate from a register. -/
def bit : Shifter → BitVec 1
  | imm .. => 1
  | reg _ => 0

def field : Shifter → BitVec 12
  | imm rotation value => rotation ++ value
  | reg r => 0#8 ++ r.code

def operand : Shifter → Operand
  | imm rotation value => .imm ((value.setWidth 32).rotateRight (2 * rotation.toNat))
  | reg r => .reg r

def isRotated : Shifter → Bool
  | imm rotation _ => rotation != 0
  | reg _ => false

end Shifter

/-- An instruction of the subset before its condition is added. Fields without a meaning are
operands too: the first operand of a move, the destination of a compare and the bit that tells
the two counters apart. -/
inductive Assembly where
  | alu (op : AluOp) (s : Bool) (rd rn : Gpr) (operand : Shifter)
  | move (negate s : Bool) (rd : Gpr) (operand : Shifter) (ignored : BitVec 4)
  | compare (op : CmpOp) (rn : Gpr) (operand : Shifter) (ignored : BitVec 4)
  | nop
  | branch (link : Bool) (disp : BitVec 24)
  | branchExchange (link : Bool) (rm : Gpr)
  | breakpoint (imm : BitVec 16)
  | supervisorCall (imm : BitVec 24)
  | readTimer (rt rt2 : Gpr) (ignored : BitVec 1)
  | vmove (dd dm : Dreg)
  deriving DecidableEq, Repr

/-! ### Formats -/

namespace Format

variable (cond : BitVec 4)

def data (imm : BitVec 1) (opcode : BitVec 4) (s : BitVec 1) (rn rd : BitVec 4)
    (operand : BitVec 12) : Word :=
  cond ++ 0b00#2 ++ imm ++ opcode ++ s ++ rn ++ rd ++ operand

/-- Four bits of opcode and an immediate: direct branches and supervisor calls. -/
def immediate (opcode : BitVec 4) (imm : BitVec 24) : Word := cond ++ opcode ++ imm

/-- Twenty-four fixed bits and a register. -/
def register (opcode : BitVec 24) (rm : BitVec 4) : Word := cond ++ opcode ++ rm

/-- The immediate of a breakpoint lies around four fixed bits. -/
def breakpoint (high : BitVec 12) (low : BitVec 4) : Word :=
  cond ++ 0x12#8 ++ high ++ 0x7#4 ++ low

def timer (rt2 rt : BitVec 4) (counter : BitVec 1) : Word :=
  cond ++ 0xC5#8 ++ rt2 ++ rt ++ 0b1111000#7 ++ counter ++ 0xE#4

/-- The top bit of each register of a double move stands apart from the others. -/
def double (d : BitVec 1) (vd : BitVec 4) (m : BitVec 1) (vm : BitVec 4) : Word :=
  cond ++ 0b11101#5 ++ d ++ 0b110000#6 ++ vd ++ 0b101101#6 ++ m ++ 0b0#1 ++ vm

end Format

namespace Assembly

/-- The word of an instruction under a condition. -/
def word (c : Cond) : Assembly → Word
  | alu op s rd rn o => Format.data c.code o.bit op.opcode (.ofBool s) rn.code rd.code o.field
  | move negate s rd o ignored =>
    Format.data c.code o.bit (if negate then 0xF else 0xD) (.ofBool s) ignored rd.code o.field
  | compare op rn o ignored =>
    Format.data c.code o.bit op.opcode (.ofBool true) rn.code ignored o.field
  | nop => c.code ++ 0x320F000#28
  | branch link disp => Format.immediate c.code (if link then 0xB else 0xA) disp
  | branchExchange link rm =>
    Format.register c.code (if link then 0x12FFF3 else 0x12FFF1) rm.code
  | breakpoint imm => Format.breakpoint c.code (imm.extractLsb' 4 12) (imm.extractLsb' 0 4)
  | supervisorCall imm => Format.immediate c.code 0xF imm
  | readTimer rt rt2 ignored => Format.timer c.code rt2.code rt.code ignored
  | vmove dd dm =>
    Format.double c.code (dd.code.extractLsb' 4 1) (dd.code.extractLsb' 0 4)
      (dm.code.extractLsb' 4 1) (dm.code.extractLsb' 0 4)

/-- Flags are not taken of a result that goes to the program counter, and a counter is read into
two distinct registers other than that. -/
def supported : Assembly → Bool
  | alu _ s rd _ _ | move _ s rd _ _ => !(s && rd.isPc)
  | readTimer rt rt2 _ => !rt.isPc && !rt2.isPc && rt != rt2
  | _ => true

/-! ### Meaning -/

def name : Assembly → String
  | alu op _ _ _ _ => op.name
  | move negate _ _ _ _ => if negate then "mvn" else "mov"
  | compare op _ _ _ => op.name
  | nop => "nop"
  | branch link _ => if link then "bl" else "b"
  | branchExchange link _ => if link then "blx" else "bx"
  | breakpoint _ => "bkpt"
  | supervisorCall _ => "svc"
  | readTimer .. => "mrrc"
  | vmove .. => "vmov.f64"

/-- What is done. A branch counts words from eight bytes past its own address, modulo the address
space. -/
def kind (address : Word) : Assembly → Kind
  | alu op _ rd rn o => .alu op rd rn o.operand
  | move negate _ rd o _ => .move rd o.operand negate
  | compare op rn o _ => .compare op rn o.operand
  | nop => .nop
  | branch link disp =>
    let target := BitVec.ofInt 32 (address.toNat + 8 + 4 * disp.toInt)
    if link then .branchLink target else .branch target
  | branchExchange link rm => if link then .branchLinkExchange rm else .branchExchange rm
  | breakpoint imm => .breakpoint imm
  | supervisorCall imm => .supervisorCall (imm.setWidth 32)
  | readTimer rt rt2 _ => .readTimer rt rt2
  | vmove dd dm => .vmove dd dm

def flags : Assembly → Flags
  | alu _ s rd _ o | move _ s rd o _ =>
    { setsFlags := s, rotatedImm := o.isRotated, branch := rd.isPc }
  | compare _ _ o _ => { setsFlags := true, rotatedImm := o.isRotated }
  | branch link _ | branchExchange link _ => { branch := true, call := link, hostCall := link }
  | breakpoint _ | supervisorCall _ | readTimer .. => { hostCallSkipContext := true }
  | nop | vmove .. => {}

/-- What the word means apart from its place and condition. -/
def body (address : Word) (a : Assembly) : Decode.Body := ⟨a.name, a.kind address, a.flags⟩

/-- The instruction at an address under a condition. -/
def instr (c : Cond) (address : Word) (a : Assembly) : Instr :=
  { address, encoding := a.word c, name := a.name, kind := a.kind address, flags := a.flags,
    cond := c }

end Assembly

/-! ### Fields of words -/

section Fields

open Decode

theorem Decode.toNat_field (w : Word) (lsb n : Nat) :
    (field w lsb n).toNat = w.toNat >>> lsb % 1 <<< n := by
  rw [field, BitVec.extractLsb'_toNat, Nat.one_shiftLeft]

theorem Decode.field_one (w : Word) (n : Nat) : field w n 1 = BitVec.ofBool (w.bit n) := by
  apply BitVec.eq_of_getLsbD_eq
  intro i hi
  obtain rfl : i = 0 := by omega
  simp [field, Word.bit]

theorem Decode.bit_of_field {w : Word} {n : Nat} {b : Bool} (h : field w n 1 = BitVec.ofBool b) :
    w.bit n = b := by
  rw [field_one] at h
  revert h
  cases w.bit n <;> cases b <;> decide

namespace Format

variable (cond : BitVec 4)

/-- The fields that are read of a word of the data format. -/
theorem fields_data (imm s : BitVec 1) (opcode rn rd : BitVec 4) (operand : BitVec 12) :
    let w := data cond imm opcode s rn rd operand
    field w 28 4 = cond ∧ (field w 25 3).toNat = imm.toNat ∧ field w 25 1 = imm ∧
      (field w 23 3).toNat = imm.toNat * 4 + opcode.toNat / 4 ∧ field w 21 4 = opcode ∧
      field w 20 1 = s ∧ field w 16 4 = rn ∧ field w 12 4 = rd ∧ field w 0 12 = operand := by
  have hcond := cond.isLt
  have himm := imm.isLt
  have hs := s.isLt
  have hopcode := opcode.isLt
  have hrn := rn.isLt
  have hrd := rd.isLt
  have hoperand := operand.isLt
  simp only [data, ← BitVec.toNat_inj, toNat_field, Host.toNat_append_eq, BitVec.toNat_ofNat,
    Nat.shiftRight_eq_div_pow, Nat.shiftLeft_eq]
  omega

theorem fields_immediate (opcode : BitVec 4) (imm : BitVec 24) :
    let w := immediate cond opcode imm
    field w 28 4 = cond ∧ (field w 25 3).toNat = opcode.toNat / 2 ∧
      (field w 24 1).toNat = opcode.toNat % 2 ∧ field w 0 24 = imm := by
  have hcond := cond.isLt
  have hopcode := opcode.isLt
  have himm := imm.isLt
  simp only [immediate, ← BitVec.toNat_inj, toNat_field, Host.toNat_append_eq,
    Nat.shiftRight_eq_div_pow, Nat.shiftLeft_eq]
  omega

theorem fields_register (opcode : BitVec 24) (rm : BitVec 4) :
    let w := register cond opcode rm
    field w 28 4 = cond ∧ field w 4 24 = opcode ∧ field w 0 4 = rm := by
  have hcond := cond.isLt
  have hopcode := opcode.isLt
  have hrm := rm.isLt
  simp only [register, ← BitVec.toNat_inj, toNat_field, Host.toNat_append_eq,
    Nat.shiftRight_eq_div_pow, Nat.shiftLeft_eq]
  omega

theorem fields_breakpoint (high : BitVec 12) (low : BitVec 4) :
    let w := breakpoint cond high low
    field w 28 4 = cond ∧ field w 20 8 = 0x12#8 ∧ field w 4 4 = 0x7#4 ∧ field w 8 12 = high ∧
      field w 0 4 = low := by
  have hcond := cond.isLt
  have hhigh := high.isLt
  have hlow := low.isLt
  simp only [breakpoint, ← BitVec.toNat_inj, toNat_field, Host.toNat_append_eq, BitVec.toNat_ofNat,
    Nat.shiftRight_eq_div_pow, Nat.shiftLeft_eq]
  omega

theorem fields_timer (rt2 rt : BitVec 4) (counter : BitVec 1) :
    let w := timer cond rt2 rt counter
    field w 28 4 = cond ∧ field w 20 8 = 0xC5#8 ∧ field w 16 4 = rt2 ∧ field w 12 4 = rt ∧
      field w 5 7 = 0x78#7 ∧ field w 0 4 = 0xE#4 := by
  have hcond := cond.isLt
  have hrt2 := rt2.isLt
  have hrt := rt.isLt
  have hcounter := counter.isLt
  simp only [timer, ← BitVec.toNat_inj, toNat_field, Host.toNat_append_eq, BitVec.toNat_ofNat,
    Nat.shiftRight_eq_div_pow, Nat.shiftLeft_eq]
  omega

theorem fields_double (d m : BitVec 1) (vd vm : BitVec 4) :
    let w := double cond d vd m vm
    field w 28 4 = cond ∧ field w 23 5 = 0b11101#5 ∧ field w 22 1 = d ∧ field w 16 6 = 0x30#6 ∧
      field w 12 4 = vd ∧ field w 6 6 = 0x2D#6 ∧ field w 5 1 = m ∧ field w 4 1 = 0#1 ∧
      field w 0 4 = vm := by
  have hcond := cond.isLt
  have hd := d.isLt
  have hm := m.isLt
  have hvd := vd.isLt
  have hvm := vm.isLt
  simp only [double, ← BitVec.toNat_inj, toNat_field, Host.toNat_append_eq, BitVec.toNat_ofNat,
    Nat.shiftRight_eq_div_pow, Nat.shiftLeft_eq]
  omega

variable {w : Word}

/-! A word is what its fields make of it. -/

theorem eq_data (h : field w 26 2 = 0#2) :
    data (field w 28 4) (field w 25 1) (field w 21 4) (field w 20 1) (field w 16 4) (field w 12 4)
      (field w 0 12) = w := by
  have hw := w.isLt
  simp only [data, ← BitVec.toNat_inj, toNat_field, Host.toNat_append_eq, BitVec.toNat_ofNat,
    Nat.shiftRight_eq_div_pow, Nat.shiftLeft_eq] at h ⊢
  omega

theorem eq_immediate : immediate (field w 28 4) (field w 24 4) (field w 0 24) = w := by
  have hw := w.isLt
  simp only [immediate, ← BitVec.toNat_inj, toNat_field, Host.toNat_append_eq,
    Nat.shiftRight_eq_div_pow, Nat.shiftLeft_eq]
  omega

theorem eq_register : register (field w 28 4) (field w 4 24) (field w 0 4) = w := by
  have hw := w.isLt
  simp only [register, ← BitVec.toNat_inj, toNat_field, Host.toNat_append_eq,
    Nat.shiftRight_eq_div_pow, Nat.shiftLeft_eq]
  omega

theorem eq_breakpoint (h : field w 20 8 = 0x12#8) (h4 : field w 4 4 = 0x7#4) :
    breakpoint (field w 28 4) (field w 8 12) (field w 0 4) = w := by
  have hw := w.isLt
  simp only [breakpoint, ← BitVec.toNat_inj, toNat_field, Host.toNat_append_eq, BitVec.toNat_ofNat,
    Nat.shiftRight_eq_div_pow, Nat.shiftLeft_eq] at h h4 ⊢
  omega

theorem eq_timer (h : field w 20 8 = 0xC5#8) (h5 : field w 5 7 = 0x78#7)
    (h0 : field w 0 4 = 0xE#4) :
    timer (field w 28 4) (field w 16 4) (field w 12 4) (field w 4 1) = w := by
  have hw := w.isLt
  simp only [timer, ← BitVec.toNat_inj, toNat_field, Host.toNat_append_eq, BitVec.toNat_ofNat,
    Nat.shiftRight_eq_div_pow, Nat.shiftLeft_eq] at h h5 h0 ⊢
  omega

theorem eq_double (h : field w 23 5 = 0b11101#5) (h16 : field w 16 6 = 0x30#6)
    (h6 : field w 6 6 = 0x2D#6) (h4 : field w 4 1 = 0#1) :
    double (field w 28 4) (field w 22 1) (field w 12 4) (field w 5 1) (field w 0 4) = w := by
  have hw := w.isLt
  simp only [double, ← BitVec.toNat_inj, toNat_field, Host.toNat_append_eq, BitVec.toNat_ofNat,
    Nat.shiftRight_eq_div_pow, Nat.shiftLeft_eq] at h h16 h6 h4 ⊢
  omega

end Format

end Fields

/-! ### Operands and operations -/

namespace Decode

/-- A field that lies in another one. -/
theorem field_within {w : Word} {lsb n : Nat} {x : BitVec n} (h : field w lsb n = x)
    (first len : Nat) (hle : first + len ≤ n) :
    field w (lsb + first) len = x.extractLsb' first len := by
  subst h
  apply BitVec.eq_of_getLsbD_eq
  intro i hi
  have hin : first + i < n := by omega
  simp only [field, BitVec.getLsbD_extractLsb', hi, hin, decide_true, Bool.true_and, Nat.add_assoc]

/-- A field that lies in the lowest bits. -/
theorem low_field {w : Word} {n : Nat} {x : BitVec n} (h : field w 0 n = x) (first len : Nat)
    (hle : first + len ≤ n) : field w first len = x.extractLsb' first len := by
  have hfield := field_within h first len hle
  rwa [Nat.zero_add] at hfield

theorem field_append (w : Word) (lsb m n : Nat) :
    field w (lsb + n) m ++ field w lsb n = field w lsb (m + n) :=
  BitVec.extractLsb'_append_extractLsb'_eq_extractLsb' rfl

/-- The second operand that is read is the one that is written. -/
theorem operand?_eq_some_iff {w : Word} {operand : Operand} {rotated : Bool} :
    operand? w = some (operand, rotated) ↔
      ∃ o : Shifter, field w 25 1 = o.bit ∧ field w 0 12 = o.field ∧ o.operand = operand ∧
        o.isRotated = rotated := by
  have hrotated (r : BitVec 4) : (2 * r.toNat != 0) = (r != 0) := by
    revert r
    decide
  unfold operand?
  constructor
  · intro h
    split at h
    · rename_i hbit
      cases h
      refine ⟨.imm (field w 8 4) (field w 0 8), ?_, ?_, rfl, (hrotated _).symm⟩
      · rw [field_one, hbit]
        rfl
      · exact (field_append w 0 4 8).symm
    · rename_i hbit
      split at h
      · rename_i hshift
        cases h
        refine ⟨.reg (gpr w 0), ?_, ?_, rfl, rfl⟩
        · rw [field_one, Bool.eq_false_iff.mpr hbit]
          rfl
        · have hzero : field w 4 8 = 0#8 := beq_iff_eq.mp hshift
          rw [Shifter.field, ← hzero]
          exact (field_append w 0 8 4).symm
      · cases h
  · rintro ⟨o, hbit, hfield, rfl, rfl⟩
    cases o with
    | imm rotation value =>
      have hrotation : field w 8 4 = rotation :=
        (low_field hfield 8 4 (by decide)).trans BitVec.extractLsb'_append_eq_left
      have hvalue : field w 0 8 = value :=
        (low_field hfield 0 8 (by decide)).trans BitVec.extractLsb'_append_eq_right
      rw [if_pos (bit_of_field (b := true) hbit), hrotation, hvalue]
      dsimp only
      rw [hrotated]
      rfl
    | reg r =>
      have hshift : field w 4 8 = 0 :=
        (low_field hfield 4 8 (by decide)).trans BitVec.extractLsb'_append_eq_left
      have hr : field w 0 4 = r.code :=
        (low_field hfield 0 4 (by decide)).trans BitVec.extractLsb'_append_eq_right
      have hbit : ¬ w.bit 25 = true := Bool.eq_false_iff.mp (bit_of_field (b := false) hbit)
      rw [if_neg hbit, if_pos (beq_iff_eq.mpr hshift), gpr, hr]
      rfl

theorem aluOp?_eq_some {n : Nat} {op : AluOp} (h : aluOp? n = some op) : n = op.opcode.toNat := by
  unfold aluOp? at h
  split at h <;> cases h <;> rfl

theorem cmpOp?_eq_some {n : Nat} {op : CmpOp} (h : cmpOp? n = some op) : n = op.opcode.toNat := by
  unfold cmpOp? at h
  split at h <;> cases h <;> rfl

/-- Compares have a quarter of the opcodes for themselves. -/
theorem isSome_cmpOp? (opcode : BitVec 4) :
    (cmpOp? opcode.toNat).isSome = decide (opcode.toNat / 4 = 2) := by
  revert opcode
  decide

/-- Every opcode but one, the reverse subtraction with carry, is an operation. -/
theorem opcode_cases (opcode : BitVec 4) :
    (∃ op : AluOp, opcode = op.opcode) ∨ (∃ op : CmpOp, opcode = op.opcode) ∨
      (∃ negate : Bool, opcode = if negate then 0xF else 0xD) ∨ opcode = 0x7 := by
  have hcover : ∀ b : BitVec 4, (aluOp? b.toNat).isSome ∨ (cmpOp? b.toNat).isSome ∨ b = 0xD ∨
      b = 0xF ∨ b = 0x7 := by decide
  rcases hcover opcode with h | h | h | h | h
  · obtain ⟨op, hop⟩ := Option.isSome_iff_exists.mp h
    exact .inl ⟨op, BitVec.eq_of_toNat_eq (aluOp?_eq_some hop)⟩
  · obtain ⟨op, hop⟩ := Option.isSome_iff_exists.mp h
    exact .inr (.inl ⟨op, BitVec.eq_of_toNat_eq (cmpOp?_eq_some hop)⟩)
  · exact .inr (.inr (.inl ⟨false, h⟩))
  · exact .inr (.inr (.inl ⟨true, h⟩))
  · exact .inr (.inr (.inr h))

section Operation

variable (rd rn : Gpr) (operand : Operand)

theorem operation?_alu (op : AluOp) :
    operation? op.opcode.toNat rd rn operand = some (op.name, .alu op rd rn operand) := by
  cases op <;> rfl

theorem operation?_compare (op : CmpOp) :
    operation? op.opcode.toNat rd rn operand = some (op.name, .compare op rn operand) := by
  cases op <;> rfl

theorem operation?_move (negate : Bool) :
    operation? (if negate then 0xF#4 else 0xD#4).toNat rd rn operand =
      some (if negate then "mvn" else "mov", .move rd operand negate) := by
  cases negate <;> rfl

end Operation

/-- Data processing by its parts: a second operand, the conditions on the flag bit, and an
operation. -/
theorem dataProcessing?_eq_some_iff {w : Word} {b : Body} :
    dataProcessing? w = some b ↔
      ∃ o : Shifter, field w 25 1 = o.bit ∧ field w 0 12 = o.field ∧
        ((field w 21 4).toNat / 4 = 2 → w.bit 20 = true) ∧
        (w.bit 20 = true → (field w 21 4).toNat / 4 ≠ 2 → (gpr w 12).isPc = false) ∧
        ∃ name kind,
          operation? (field w 21 4).toNat (gpr w 12) (gpr w 16) o.operand = some (name, kind) ∧
          b = ⟨name, kind,
            { setsFlags := w.bit 20, rotatedImm := o.isRotated, branch := kind.writesPc }⟩ := by
  have hguard (p : Prop) [Decidable p] (s pc : Bool) :
      ¬ ((decide p && !s || s && pc && !decide p) = true) ↔
        (p → s = true) ∧ (s = true → ¬ p → pc = false) := by
    by_cases hp : p <;> cases s <;> cases pc <;> simp [hp]
  unfold dataProcessing?
  simp only [Option.bind_eq_bind, Option.bind_eq_some_iff, Prod.exists, operand?_eq_some_iff,
    isSome_cmpOp?]
  constructor
  · rintro ⟨operand, rotated, ⟨o, hbit, hfield, rfl, rfl⟩, h⟩
    split at h
    · cases h
    · rename_i hs
      simp only [Option.bind_eq_some_iff, Prod.exists, Option.some.injEq] at h
      obtain ⟨name, kind, hop, rfl⟩ := h
      obtain ⟨hset, hpc⟩ := (hguard _ _ _).mp hs
      exact ⟨o, hbit, hfield, hset, hpc, name, kind, hop, rfl⟩
  · rintro ⟨o, hbit, hfield, hset, hpc, name, kind, hop, rfl⟩
    refine ⟨o.operand, o.isRotated, ⟨o, hbit, hfield, rfl, rfl⟩, ?_⟩
    rw [if_neg ((hguard _ _ _).mpr ⟨hset, hpc⟩), hop]
    rfl

/-! ### Assembled words are read back -/

section ReadBack

variable (address : Word)

/-- A word of the data format is a data operation unless its opcode is of a compare and its flag
bit is clear. -/
theorem body?_data {c opcode rn rd : BitVec 4} {o : Shifter} {s : Bool} {name : String}
    {kind : Kind}
    (hop : operation? opcode.toNat ⟨rd⟩ ⟨rn⟩ o.operand = some (name, kind))
    (hset : opcode.toNat / 4 = 2 → s = true)
    (hpc : s = true → opcode.toNat / 4 ≠ 2 → Gpr.isPc ⟨rd⟩ = false) :
    body? (Format.data c o.bit opcode (.ofBool s) rn rd o.field) address = some ⟨name, kind,
      { setsFlags := s, rotatedImm := o.isRotated, branch := kind.writesPc }⟩ := by
  obtain ⟨-, hspace, hbit, hquarter, hopcode, hs, hrn, hrd, hfield⟩ :=
    Format.fields_data c o.bit (.ofBool s) opcode rn rd o.field
  generalize Format.data c o.bit opcode (.ofBool s) rn rd o.field = w at *
  have hflag : w.bit 20 = s := bit_of_field hs
  have hdata : dataProcessing? w = some ⟨name, kind,
      { setsFlags := s, rotatedImm := o.isRotated, branch := kind.writesPc }⟩ := by
    rw [dataProcessing?_eq_some_iff, hflag, hopcode, gpr, gpr, hrd, hrn]
    exact ⟨o, hbit, hfield, hset, hpc, name, kind, hop, rfl⟩
  -- A compare without the flag bit would be looked for among branches, and one is the hint.
  have hclear : opcode.toNat / 4 = 2 → field w 20 1 ≠ 0 := by
    intro hq hzero
    rw [hs, hset hq] at hzero
    exact absurd hzero (by decide)
  have hmisc : ¬ (field w 23 3 == 0b010 && field w 20 1 == 0) = true := by
    intro h
    rw [Bool.and_eq_true, beq_iff_eq, beq_iff_eq, ← BitVec.toNat_inj] at h
    have hq : (field w 23 3).toNat = 2 := h.1
    exact hclear (by omega) h.2
  have hnop : ¬ (field w 0 28 == 0x320F000) = true := by
    intro h
    have hlow := beq_iff_eq.mp h
    have hnine : opcode = 0x9 := hopcode.symm.trans (low_field hlow 21 4 (by decide))
    have hzero : field w 20 1 = 0 := low_field hlow 20 1 (by decide)
    exact hclear (by rw [hnine]; decide) hzero
  have hdataSpace : dataSpace? w = dataProcessing? w := by
    rw [dataSpace?, if_neg hmisc, if_neg hnop]
  rw [← hdata, ← hdataSpace, body?]
  cases o <;> rw [hspace] <;> rfl

theorem target_eq (disp : BitVec 24) :
    address + 8 + (disp.signExtend 32 <<< 2) =
      BitVec.ofInt 32 (address.toNat + 8 + 4 * disp.toInt) := by
  have hshift (x : Word) : x <<< 2 = 4 * x := by
    rw [BitVec.shiftLeft_eq_mul_twoPow, BitVec.mul_comm]
    rfl
  have haddress : BitVec.ofInt 32 (address.toNat : Int) = address := by
    rw [BitVec.ofInt_natCast, BitVec.ofNat_toNat, BitVec.setWidth_eq]
  rw [BitVec.ofInt_add, BitVec.ofInt_add, BitVec.ofInt_mul, haddress, hshift]
  rfl

theorem body?_branch (c : Cond) (link : Bool) (disp : BitVec 24) :
    body? ((Assembly.branch link disp).word c) address =
      some ((Assembly.branch link disp).body address) := by
  obtain ⟨-, hspace, hbit, hdisp⟩ :=
    Format.fields_immediate c.code (if link then 0xB else 0xA) disp
  rw [Assembly.word]
  generalize Format.immediate c.code (if link then 0xB else 0xA) disp = w at *
  have hlink : w.bit 24 = link := by
    refine bit_of_field (BitVec.eq_of_toNat_eq (hbit.trans ?_))
    cases link <;> rfl
  have hspace : (field w 25 3).toNat = 5 := by
    rw [hspace]
    cases link <;> rfl
  rw [body?, hspace]
  change some (branch w address) = _
  rw [branch, hlink, hdisp, target_eq]
  cases link <;> rfl

theorem body?_supervisorCall (c : Cond) (imm : BitVec 24) :
    body? ((Assembly.supervisorCall imm).word c) address =
      some ((Assembly.supervisorCall imm).body address) := by
  obtain ⟨-, hspace, hbit, himm⟩ := Format.fields_immediate c.code 0xF imm
  rw [Assembly.word]
  generalize Format.immediate c.code 0xF imm = w at *
  have hcall : w.bit 24 = true := bit_of_field (BitVec.eq_of_toNat_eq hbit)
  rw [body?, hspace]
  change callSpace? w = _
  rw [callSpace?, if_pos hcall, himm]
  rfl

/-- The space of compares without the flag bit. -/
theorem body?_miscellaneous {w : Word} (h : field w 20 8 = 0x12) :
    body? w address = miscellaneous? w := by
  have hspace : field w 25 3 = 0 := field_within h 5 3 (by decide)
  have hquarter : field w 23 3 = 0b010 := field_within h 3 3 (by decide)
  have hs : field w 20 1 = 0 := field_within h 0 1 (by decide)
  rw [body?, hspace]
  change dataSpace? w = _
  rw [dataSpace?, hquarter, hs]
  rfl

theorem body?_branchExchange (c : Cond) (link : Bool) (rm : Gpr) :
    body? ((Assembly.branchExchange link rm).word c) address =
      some ((Assembly.branchExchange link rm).body address) := by
  obtain ⟨-, hop, hrm⟩ :=
    Format.fields_register c.code (if link then 0x12FFF3 else 0x12FFF1) rm.code
  rw [Assembly.word]
  generalize Format.register c.code (if link then 0x12FFF3 else 0x12FFF1) rm.code = w at *
  have hspace : field w 20 8 = 0x12 := by
    cases link <;> exact field_within hop 16 8 (by decide)
  rw [body?_miscellaneous address hspace, miscellaneous?, hop, gpr, hrm]
  cases link <;> rfl

theorem body?_breakpoint (c : Cond) (imm : BitVec 16) :
    body? ((Assembly.breakpoint imm).word c) address =
      some ((Assembly.breakpoint imm).body address) := by
  obtain ⟨-, hop, hseven, hhigh, hlow⟩ :=
    Format.fields_breakpoint c.code (imm.extractLsb' 4 12) (imm.extractLsb' 0 4)
  rw [Assembly.word]
  generalize Format.breakpoint c.code (imm.extractLsb' 4 12) (imm.extractLsb' 0 4) = w at *
  have hother (x : BitVec 24) (hx : x.extractLsb' 0 4 ≠ 0x7) : ¬ (field w 4 24 == x) = true := by
    intro h
    exact hx ((field_within (beq_iff_eq.mp h) 0 4 (by decide)).symm.trans hseven)
  have himm : imm.extractLsb' 4 12 ++ imm.extractLsb' 0 4 = imm :=
    BitVec.extractLsb'_append_extractLsb'
  rw [body?_miscellaneous address hop, miscellaneous?, if_neg (hother _ (by decide)),
    if_neg (hother _ (by decide)), hop, hseven, hhigh, hlow, himm]
  rfl

theorem body?_readTimer (c : Cond) {rt rt2 : Gpr} (counter : BitVec 1)
    (h : (Assembly.readTimer rt rt2 counter).supported = true) :
    body? ((Assembly.readTimer rt rt2 counter).word c) address =
      some ((Assembly.readTimer rt rt2 counter).body address) := by
  obtain ⟨-, hop, hrt2, hrt, hmid, hlow⟩ := Format.fields_timer c.code rt2.code rt.code counter
  rw [Assembly.word]
  generalize Format.timer c.code rt2.code rt.code counter = w at *
  have hspace : field w 25 3 = 6 := field_within hop 5 3 (by decide)
  rw [body?, hspace]
  change timer? w = _
  rw [timer?, hop, hmid, hlow, gpr, gpr, hrt, hrt2]
  exact if_pos h

theorem body?_vmove (c : Cond) (dd dm : Dreg) :
    body? ((Assembly.vmove dd dm).word c) address = some ((Assembly.vmove dd dm).body address) := by
  obtain ⟨-, htop, hd, hmid, hvd, hlow, hm, hbit, hvm⟩ :=
    Format.fields_double c.code (dd.code.extractLsb' 4 1) (dm.code.extractLsb' 4 1)
      (dd.code.extractLsb' 0 4) (dm.code.extractLsb' 0 4)
  rw [Assembly.word]
  generalize Format.double c.code (dd.code.extractLsb' 4 1) (dd.code.extractLsb' 0 4)
    (dm.code.extractLsb' 4 1) (dm.code.extractLsb' 0 4) = w at *
  have hspace : field w 25 3 = 7 := field_within htop 2 3 (by decide)
  have hcall : ¬ w.bit 24 = true :=
    Bool.eq_false_iff.mp (bit_of_field (b := false) (field_within htop 1 1 (by decide)))
  have hdd : dd.code.extractLsb' 4 1 ++ dd.code.extractLsb' 0 4 = dd.code :=
    BitVec.extractLsb'_append_extractLsb'
  have hdm : dm.code.extractLsb' 4 1 ++ dm.code.extractLsb' 0 4 = dm.code :=
    BitVec.extractLsb'_append_extractLsb'
  rw [body?, hspace]
  change callSpace? w = _
  rw [callSpace?, if_neg hcall, htop, hmid, hlow, hbit, hd, hvd, hm, hvm, hdd, hdm]
  rfl

theorem body?_nop (c : Cond) :
    body? (Assembly.nop.word c) address = some (Assembly.nop.body address) := by
  have hlow : field (Assembly.nop.word c) 0 28 = 0x320F000 := BitVec.extractLsb'_append_eq_right
  generalize Assembly.nop.word c = w at *
  have hspace : field w 25 3 = 1 := low_field hlow 25 3 (by decide)
  have hquarter : field w 23 3 = 6 := low_field hlow 23 3 (by decide)
  rw [body?, hspace]
  change dataSpace? w = _
  rw [dataSpace?, hquarter, hlow]
  rfl

/-- Every instruction of the subset is the body of its word. -/
theorem body?_word (c : Cond) {a : Assembly} (h : a.supported = true) :
    body? (a.word c) address = some (a.body address) := by
  cases a with
  | alu op s rd rn o =>
    refine body?_data address (operation?_alu rd rn o.operand op) (fun hq => ?_) fun hs _ => ?_
    · cases op <;> exact absurd hq (by decide)
    · simpa only [Assembly.supported, hs, Bool.true_and, Bool.not_eq_true'] using h
  | move negate s rd o ignored =>
    refine body?_data address (operation?_move rd ⟨ignored⟩ o.operand negate) (fun hq => ?_)
      fun hs _ => ?_
    · cases negate <;> exact absurd hq (by decide)
    · simpa only [Assembly.supported, hs, Bool.true_and, Bool.not_eq_true'] using h
  | compare op rn o ignored =>
    refine body?_data address (operation?_compare ⟨ignored⟩ rn o.operand op) (fun _ => rfl)
      fun _ hq => ?_
    cases op <;> exact absurd rfl hq
  | nop => exact body?_nop address c
  | branch link disp => exact body?_branch address c link disp
  | branchExchange link rm => exact body?_branchExchange address c link rm
  | breakpoint imm => exact body?_breakpoint address c imm
  | supervisorCall imm => exact body?_supervisorCall address c imm
  | readTimer rt rt2 counter => exact body?_readTimer address c counter h
  | vmove dd dm => exact body?_vmove address c dd dm

end ReadBack

/-! ### Words that are read were assembled -/

section Assembled

variable {w address : Word} {c : Cond} {b : Body}

theorem assembled_dataProcessing (hc : field w 28 4 = c.code) (hspace : field w 26 2 = 0#2)
    (h : dataProcessing? w = some b) : ∃ a : Assembly, a.supported = true ∧ a.word c = w := by
  obtain ⟨o, hbit, hfield, hset, hpc, name, kind, hop, -⟩ := dataProcessing?_eq_some_iff.mp h
  have hw := Format.eq_data hspace
  rw [hc, hbit, hfield, field_one w 20] at hw
  rcases opcode_cases (field w 21 4) with
    ⟨op, hopcode⟩ | ⟨op, hopcode⟩ | ⟨negate, hopcode⟩ | hopcode
  · rw [hopcode] at hw hpc
    have hquarter : op.opcode.toNat / 4 ≠ 2 := by cases op <;> decide
    refine ⟨.alu op (w.bit 20) (gpr w 12) (gpr w 16) o, ?_, hw⟩
    rw [Assembly.supported, Bool.not_eq_true', Bool.and_eq_false_imp]
    exact fun hs => hpc hs hquarter
  · rw [hopcode] at hw hset
    have hquarter : op.opcode.toNat / 4 = 2 := by cases op <;> rfl
    rw [hset hquarter] at hw
    exact ⟨.compare op (gpr w 16) o (field w 12 4), rfl, hw⟩
  · rw [hopcode] at hw hpc
    have hquarter : (if negate then 0xF#4 else 0xD#4).toNat / 4 ≠ 2 := by cases negate <;> decide
    refine ⟨.move negate (w.bit 20) (gpr w 12) o (field w 16 4), ?_, hw⟩
    rw [Assembly.supported, Bool.not_eq_true', Bool.and_eq_false_imp]
    exact fun hs => hpc hs hquarter
  · rw [hopcode] at hop
    cases hop

theorem assembled_miscellaneous (hc : field w 28 4 = c.code) (h : miscellaneous? w = some b) :
    ∃ a : Assembly, a.supported = true ∧ a.word c = w := by
  unfold miscellaneous? at h
  split at h
  · rename_i hop
    have hw := Format.eq_register (w := w)
    rw [hc, beq_iff_eq.mp hop] at hw
    exact ⟨.branchExchange false (gpr w 0), rfl, hw⟩
  · split at h
    · rename_i hop
      have hw := Format.eq_register (w := w)
      rw [hc, beq_iff_eq.mp hop] at hw
      exact ⟨.branchExchange true (gpr w 0), rfl, hw⟩
    · split at h
      · rename_i hop
        simp only [Bool.and_eq_true, beq_iff_eq] at hop
        have hw := Format.eq_breakpoint hop.1 hop.2
        rw [hc] at hw
        refine ⟨.breakpoint (field w 8 12 ++ field w 0 4), rfl, ?_⟩
        rw [Assembly.word, BitVec.extractLsb'_append_eq_left, BitVec.extractLsb'_append_eq_right]
        exact hw
      · cases h

theorem assembled_dataSpace (hc : field w 28 4 = c.code) (hspace : field w 26 2 = 0#2)
    (h : dataSpace? w = some b) : ∃ a : Assembly, a.supported = true ∧ a.word c = w := by
  unfold dataSpace? at h
  split at h
  · exact assembled_miscellaneous hc h
  · split at h
    · rename_i hnop
      refine ⟨.nop, rfl, ?_⟩
      rw [Assembly.word, ← hc]
      have hlow : field w 0 28 = 0x320F000#28 := beq_iff_eq.mp hnop
      rw [← hlow]
      exact BitVec.extractLsb'_append_extractLsb'
    · exact assembled_dataProcessing hc hspace h

theorem assembled_timer (hc : field w 28 4 = c.code) (h : timer? w = some b) :
    ∃ a : Assembly, a.supported = true ∧ a.word c = w := by
  unfold timer? at h
  dsimp only at h
  split at h
  · rename_i hop
    simp only [Bool.and_eq_true, beq_iff_eq] at hop
    obtain ⟨⟨⟨⟨⟨htop, hmid⟩, hlow⟩, hrt⟩, hrt2⟩, hne⟩ := hop
    have hw := Format.eq_timer htop hmid hlow
    rw [hc] at hw
    refine ⟨.readTimer (gpr w 12) (gpr w 16) (field w 4 1), ?_, hw⟩
    rw [Assembly.supported, hrt, hrt2, hne]
    rfl
  · cases h

/-- Four bits of opcode: the space and the bit below it. -/
theorem opcode_eq {x : BitVec 3} (h : (field w 25 3).toNat = x.toNat) :
    field w 24 4 = x ++ BitVec.ofBool (w.bit 24) := by
  rw [← BitVec.eq_of_toNat_eq h, ← field_one]
  exact (field_append w 24 3 1).symm

theorem assembled_branch (hc : field w 28 4 = c.code) (hspace : (field w 25 3).toNat = 5) :
    ∃ a : Assembly, a.supported = true ∧ a.word c = w := by
  have hw := Format.eq_immediate (w := w)
  have hop : field w 24 4 = if w.bit 24 then 0xB else 0xA := by
    rw [opcode_eq (x := 5) hspace]
    cases w.bit 24 <;> rfl
  rw [hc, hop] at hw
  exact ⟨.branch (w.bit 24) (field w 0 24), rfl, hw⟩

theorem assembled_callSpace (hc : field w 28 4 = c.code) (hspace : (field w 25 3).toNat = 7)
    (h : callSpace? w = some b) : ∃ a : Assembly, a.supported = true ∧ a.word c = w := by
  unfold callSpace? at h
  split at h
  · rename_i hbit
    have hop : field w 24 4 = 0xF := by
      rw [opcode_eq (x := 7) hspace, hbit]
      rfl
    have hw := Format.eq_immediate (w := w)
    rw [hc, hop] at hw
    exact ⟨.supervisorCall (field w 0 24), rfl, hw⟩
  · split at h
    · rename_i hop
      simp only [Bool.and_eq_true, beq_iff_eq] at hop
      obtain ⟨⟨⟨htop, hmid⟩, hlow⟩, hbit⟩ := hop
      have hw := Format.eq_double htop hmid hlow hbit
      rw [hc] at hw
      refine ⟨.vmove ⟨field w 22 1 ++ field w 12 4⟩ ⟨field w 5 1 ++ field w 0 4⟩, rfl, ?_⟩
      simp only [Assembly.word, BitVec.extractLsb'_append_eq_left,
        BitVec.extractLsb'_append_eq_right]
      exact hw
    · cases h

theorem assembled_body (hc : field w 28 4 = c.code) (h : body? w address = some b) :
    ∃ a : Assembly, a.supported = true ∧ a.word c = w := by
  have hdata {x : BitVec 3} (hx : (field w 25 3).toNat = x.toNat)
      (hzero : x.extractLsb' 1 2 = 0#2) : field w 26 2 = 0#2 :=
    (field_within (BitVec.eq_of_toNat_eq hx) 1 2 (by decide)).trans hzero
  unfold body? at h
  split at h
  · rename_i hspace
    exact assembled_dataSpace hc (hdata (x := 0) hspace rfl) h
  · rename_i hspace
    exact assembled_dataSpace hc (hdata (x := 1) hspace rfl) h
  · rename_i hspace
    exact assembled_branch hc hspace
  · exact assembled_timer hc h
  · rename_i hspace
    exact assembled_callSpace hc hspace h
  · cases h

end Assembled

end Decode

open Decode

theorem eq_code_of_ofCode? {b : BitVec 4} {c : Cond} (h : Cond.ofCode? b = some c) :
    b = c.code := by
  have hround : ∀ b : BitVec 4, (Cond.ofCode? b).all (·.code == b) = true := by decide
  have hb := hround b
  rw [h, Option.all_some, beq_iff_eq] at hb
  exact hb.symm

/-- The condition field of an assembled word. -/
theorem Assembly.field_word (a : Assembly) (c : Cond) : field (a.word c) 28 4 = c.code := by
  cases a with
  | alu | move | compare => exact (Format.fields_data ..).1
  | nop => exact BitVec.extractLsb'_append_eq_left
  | branch | supervisorCall => exact (Format.fields_immediate ..).1
  | branchExchange => exact (Format.fields_register ..).1
  | breakpoint => exact (Format.fields_breakpoint ..).1
  | readTimer => exact (Format.fields_timer ..).1
  | vmove => exact (Format.fields_double ..).1

/-- A word decodes to its body under its condition; a word without one of them is undefined. -/
theorem decode_cases (w address : Word) :
    (∃ c b, field w 28 4 = c.code ∧ body? w address = some b ∧
      decode w address = ⟨address, w, b.name, b.kind, b.flags, c⟩) ∨
      (decode w address).kind = .undefined ∧
        (decode w address).flags = { hostCallSkipContext := true } := by
  cases hc : Cond.ofCode? (field w 28 4) with
  | none =>
    rw [decode, hc]
    exact .inr ⟨rfl, rfl⟩
  | some c =>
    cases hb : body? w address with
    | none =>
      rw [decode, hc, hb]
      exact .inr ⟨rfl, rfl⟩
    | some b =>
      refine .inl ⟨c, b, eq_code_of_ofCode? hc, rfl, ?_⟩
      rw [decode, hc, hb]
      rfl

/-- An instruction of the subset is read back from its word. -/
theorem decode_word (address : Word) {a : Assembly} (c : Cond) (h : a.supported = true) :
    decode (a.word c) address = a.instr c address := by
  rw [decode, a.field_word c, Cond.ofCode?_code, Option.bind_some, body?_word address c h]
  rfl

/-- Decoding is the converse of assembling, word for word. Every instruction of the subset is read
back from its word, under every condition and at every address. Every word that is not read as
undefined is the word of the instruction that it is read as. Every other word is left to the
helper for undefined instructions, among them all whose condition field is `1111`. -/
theorem decode_recognises_assembled (address : Word) :
    (∀ (a : Assembly) (c : Cond), a.supported = true →
      decode (a.word c) address = a.instr c address) ∧
    ∀ w : Word,
      ((decode w address).kind ≠ .undefined →
        ∃ (a : Assembly) (c : Cond), a.supported = true ∧ a.word c = w ∧
          decode w address = a.instr c address) ∧
      ((∀ (a : Assembly) (c : Cond), a.supported = true → a.word c ≠ w) →
        (decode w address).kind = .undefined ∧
          (decode w address).flags = { hostCallSkipContext := true }) ∧
      (w.extractLsb' 28 4 = 0b1111#4 →
        (decode w address).kind = .undefined ∧
          (decode w address).flags = { hostCallSkipContext := true }) := by
  refine ⟨fun a c h => decode_word address c h, fun w => ?_⟩
  rcases decode_cases w address with ⟨c, b, hc, hb, hdecode⟩ | hundefined
  · obtain ⟨a, ha, rfl⟩ := assembled_body hc hb
    refine ⟨fun _ => ⟨a, c, ha, rfl, decode_word address c ha⟩,
      fun h => absurd rfl (h a c ha), fun h => ?_⟩
    have hcode : c.code = 0b1111#4 := hc.symm.trans h
    cases c <;> exact absurd hcode (by decide)
  · exact ⟨fun h => absurd hundefined.1 h, fun _ => hundefined, fun _ => hundefined⟩

/-- A subtraction with carry of a rotated byte from the program counter, a call back to itself,
and a barrier, whose condition field is all ones. -/
theorem decode_recognises_subtract_call_barrier :
    decode 0x12DF34FF 0x8000 =
      { address := 0x8000, encoding := 0x12DF34FF, name := "sbc",
        kind := .alu .sbc ⟨3⟩ .pc (.imm 0xFF000000),
        flags := { setsFlags := true, rotatedImm := true }, cond := .ne } ∧
    decode 0xEBFFFFFE 0x8000 =
      { address := 0x8000, encoding := 0xEBFFFFFE, name := "bl", kind := .branchLink 0x8000,
        flags := { branch := true, call := true, hostCall := true }, cond := .al } ∧
    (decode 0xF57FF05F 0x8000).kind = .undefined :=
  ⟨(decode_recognises_assembled 0x8000).1 (.alu .sbc true ⟨3⟩ .pc (.imm 4 0xFF)) .ne rfl,
    (decode_recognises_assembled 0x8000).1 (.branch true 0xFFFFFE) .al rfl,
    (((decode_recognises_assembled 0x8000).2 0xF57FF05F).2.2 rfl).1⟩

end Dynarec.Guest
