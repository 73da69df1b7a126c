import Dynarec.Proofs.Host.Branch

/-! # Decoding host words

What a word of emitted code means to the host. Only words of the instructions that emitted code
is made of are decoded; every instruction whose operands fit their fields is read back. -/

namespace Dynarec.Host

namespace Decode

/-- The value of the field of `n` bits whose lowest is bit `lsb`. -/
def field (w : Word) (lsb n : Nat) : Nat := (w.extractLsb' lsb n).toNat

def gpr (w : Word) (lsb : Nat) : Gpr := ⟨w.extractLsb' lsb 5⟩

def vreg (w : Word) (lsb : Nat) : Vreg := ⟨w.extractLsb' lsb 5⟩

/-- The operand width in the top bit. -/
def width (w : Word) : Width := if field w 31 1 = 1 then .x else .w

def dataOp? : Nat → Option DataOp
  | 0x058 => some .add | 0x158 => some .adds | 0x258 => some .sub | 0x358 => some .subs
  | 0x0D0 => some .adc | 0x1D0 => some .adcs | 0x2D0 => some .sbc | 0x3D0 => some .sbcs
  | 0x050 => some .and | 0x350 => some .ands | 0x150 => some .orr | 0x151 => some .orn
  | 0x250 => some .eor | 0x051 => some .bic
  | _ => none

/-- A wide move; a 32-bit register has only two parts. -/
def wideMove (w : Word) (make : Width → Gpr → BitVec 16 → BitVec 2 → Instr) : Option Instr :=
  if field w 23 1 = 1 ∧ (width w = .w → field w 22 1 = 0) then
    some (make (width w) (gpr w 0) (w.extractLsb' 5 16) (w.extractLsb' 21 2))
  else none

/-- An addition or subtraction of an immediate that is not shifted. -/
def immediateSum (w : Word) (make : Width → Gpr → Gpr → BitVec 12 → Instr) : Option Instr :=
  if field w 22 2 = 0 then some (make (width w) (gpr w 0) (gpr w 5) (w.extractLsb' 10 12))
  else none

/-- The byte offset of an access of `bytes` bytes. -/
def scaledOffset (w : Word) (bytes : Nat) : Nat := bytes * field w 10 12

/-- The byte offset of a pair. -/
def pairOffset (w : Word) : Int := 8 * (w.extractLsb' 15 7).toInt

/-- The byte offset of an access that moves its base. -/
def indexOffset (w : Word) : Int := (w.extractLsb' 12 9).toInt

/-- Jumps and calls through registers. -/
def registerBranch (w : Word) : Option Instr :=
  if w = 0xD65F03C0 then some .ret
  else if field w 0 5 ≠ 0 then none
  else if field w 10 22 = 0x3587C0 then some (.br (gpr w 5))
  else if field w 10 22 = 0x358FC0 then some (.blr (gpr w 5))
  else none

def system (w : Word) : Option Instr :=
  if w = 0xD503201F then some .nop
  else if field w 5 27 = 0x6A9DA10 then some (.mrsFlags (gpr w 0))
  else if field w 5 27 = 0x6A8DA10 then some (.msrFlags (gpr w 0))
  else none

/-- A bit-field move that inserts: the field ends below the top bit. -/
def insertion (w : Word) : Option Instr :=
  if field w 22 2 = 0 ∧ field w 10 6 < field w 16 6 ∧ field w 16 6 < 32 then
    some (.bfi (gpr w 0) (gpr w 5) (32 - field w 16 6) (field w 10 6 + 1))
  else none

/-- Operations on three registers, and the select among two. -/
def threeRegister (w : Word) : Option Instr :=
  if field w 21 11 = 0x0D4 ∧ field w 10 2 = 0 then
    (Cond.ofCode? (w.extractLsb' 12 4)).map fun c => .csel (gpr w 0) (gpr w 5) (gpr w 16) c
  else if field w 10 6 = 0 then
    (dataOp? (field w 21 10)).map fun op => .data op (width w) (gpr w 0) (gpr w 5) (gpr w 16)
  else none

/-- Everything but immediate branches, by the top byte. -/
def other (w : Word) : Option Instr :=
  match field w 24 8 with
  | 0xD6 => registerBranch w
  | 0xD5 => system w
  | 0xD4 =>
    if field w 21 11 = 0x6A1 ∧ field w 0 5 = 0 then some (.brk (w.extractLsb' 5 16)) else none
  | 0x52 | 0xD2 => wideMove w .movz
  | 0x72 | 0xF2 => wideMove w .movk
  | 0x11 | 0x91 => immediateSum w .addImm
  | 0x51 | 0xD1 => immediateSum w .subImm
  | 0x53 =>
    if field w 21 3 = 0 ∧ field w 10 6 = 31 then some (.lsrW (gpr w 0) (gpr w 5) (w.extractLsb' 16 5))
    else none
  | 0xD3 =>
    if field w 22 2 = 1 ∧ field w 10 6 = 63 then some (.lsrX (gpr w 0) (gpr w 5) (w.extractLsb' 16 6))
    else none
  | 0x33 => insertion w
  | 0xB9 =>
    match field w 22 2 with
    | 0 => some (.str .w (gpr w 0) (gpr w 5) (scaledOffset w 4))
    | 1 => some (.ldr .w (gpr w 0) (gpr w 5) (scaledOffset w 4))
    | _ => none
  | 0xF9 =>
    match field w 22 2 with
    | 0 => some (.str .x (gpr w 0) (gpr w 5) (scaledOffset w 8))
    | 1 => some (.ldr .x (gpr w 0) (gpr w 5) (scaledOffset w 8))
    | _ => none
  | 0xFD =>
    match field w 22 2 with
    | 0 => some (.strV .d (vreg w 0) (gpr w 5) (scaledOffset w 8))
    | 1 => some (.ldrV .d (vreg w 0) (gpr w 5) (scaledOffset w 8))
    | _ => none
  | 0x3D =>
    match field w 22 2 with
    | 2 => some (.strV .q (vreg w 0) (gpr w 5) (scaledOffset w 16))
    | 3 => some (.ldrV .q (vreg w 0) (gpr w 5) (scaledOffset w 16))
    | _ => none
  | 0xA9 =>
    match field w 22 2 with
    | 0 => some (.stp (gpr w 0) (gpr w 10) (gpr w 5) (pairOffset w))
    | 1 => some (.ldp (gpr w 0) (gpr w 10) (gpr w 5) (pairOffset w))
    | 2 => some (.stpPre (gpr w 0) (gpr w 10) (gpr w 5) (pairOffset w))
    | _ => none
  | 0xA8 =>
    if field w 22 2 = 3 then some (.ldpPost (gpr w 0) (gpr w 10) (gpr w 5) (pairOffset w)) else none
  | 0xF8 =>
    match field w 21 3, field w 10 2 with
    | 0, 3 => some (.strPre (gpr w 0) (gpr w 5) (indexOffset w))
    | 2, 1 => some (.ldrPost (gpr w 0) (gpr w 5) (indexOffset w))
    | _, _ => none
  | 0xFC =>
    match field w 21 3, field w 10 2 with
    | 0, 3 => some (.strVPre (vreg w 0) (gpr w 5) (indexOffset w))
    | 2, 1 => some (.ldrVPost (vreg w 0) (gpr w 5) (indexOffset w))
    | _, _ => none
  | 0x1E => if field w 10 22 = 0x079810 then some (.fmov (vreg w 0) (vreg w 5)) else none
  | _ => threeRegister w

/-- Compare branches of 32-bit registers. -/
def compareBranch (w : Word) : Option Instr :=
  match field w 24 8 with
  | 0x34 => some (.cbz (gpr w 0) (Branch.disp19 w))
  | 0x35 => some (.cbnz (gpr w 0) (Branch.disp19 w))
  | _ => none

end Decode

/-- The instruction that a word is to the host. -/
def decode (w : Word) : Option Instr :=
  if Branch.isB w then some (.b (Branch.disp26 w))
  else if Branch.isBl w then some (.bl (Branch.disp26 w))
  else if Branch.isBCond w then (Branch.cond? w).map fun c => .bCond c (Branch.disp19 w)
  else if Branch.isCompare w then Decode.compareBranch w
  else Decode.other w

namespace Instr

/-- The displacement of an immediate branch. -/
def disp? : Instr → Option Int
  | b d | bl d | bCond _ d | cbz _ d | cbnz _ d => some d
  | _ => none

/-- Whether every operand fits its field, so that nothing is cut. -/
def isCanonical : Instr → Bool
  | b d | bl d => fits26 d
  | bCond _ d | cbz _ d | cbnz _ d => fits19 d
  | movz .w _ _ p | movk .w _ _ p => decide (p.toNat < 2)
  | bfi _ _ lsb width => decide (1 ≤ lsb) && decide (1 ≤ width) && decide (lsb + width ≤ 32)
  | ldr size _ _ off | str size _ _ off => offsetFits size.bytes off
  | ldrV size _ _ off | strV size _ _ off => offsetFits size.bytes off
  | stp _ _ _ off | ldp _ _ _ off | stpPre _ _ _ off | ldpPost _ _ _ off =>
    decide (off % 8 = 0) && decide (-512 ≤ off) && decide (off < 512)
  | strPre _ _ off | ldrPost _ _ off => decide (-256 ≤ off) && decide (off < 256)
  | strVPre _ _ off | ldrVPost _ _ off => decide (-256 ≤ off) && decide (off < 256)
  | _ => true

end Instr

/-! ### Fields of words -/

section Fields

open Decode

theorem field_eq (w : Word) (lsb n : Nat) : field w lsb n = (w.toNat >>> lsb) % (1 <<< n) := by
  rw [field, BitVec.extractLsb'_toNat, Nat.one_shiftLeft]

theorem extract_eq {w : Word} {lsb n : Nat} {x : BitVec n} (h : field w lsb n = x.toNat) :
    w.extractLsb' lsb n = x := BitVec.eq_of_toNat_eq h

theorem extract_ne {w : Word} {lsb n : Nat} {x : BitVec n} (h : field w lsb n ≠ x.toNat) :
    (w.extractLsb' lsb n == x) = false := by
  rw [beq_eq_false_iff_ne]
  exact fun heq => h (congrArg BitVec.toNat heq)

theorem gpr_eq {w : Word} {lsb : Nat} {x : Gpr} (h : field w lsb 5 = x.code.toNat) :
    gpr w lsb = x := congrArg Gpr.mk (extract_eq h)

theorem vreg_eq {w : Word} {lsb : Nat} {x : Vreg} (h : field w lsb 5 = x.code.toNat) :
    vreg w lsb = x := congrArg Vreg.mk (extract_eq h)

theorem width_eq {w : Word} {size : Width} (h : field w 31 1 = size.bit.toNat) :
    width w = size := by
  unfold width
  rw [h]
  cases size <;> rfl

/-- A word whose top byte belongs to no immediate branch is decoded by that byte. -/
theorem decode_eq_other {w : Word} {n : Nat} (h : field w 24 8 = n)
    (hn : n / 4 ≠ 0x05 ∧ n / 4 ≠ 0x25 ∧ n ≠ 0x54 ∧ n / 2 % 64 ≠ 0x1A) : decode w = other w := by
  have hB : Branch.isB w = false := by
    refine extract_ne ?_
    simp only [field_eq, Nat.shiftRight_eq_div_pow, Nat.shiftLeft_eq, BitVec.toNat_ofNat] at h ⊢
    omega
  have hBl : Branch.isBl w = false := by
    refine extract_ne ?_
    simp only [field_eq, Nat.shiftRight_eq_div_pow, Nat.shiftLeft_eq, BitVec.toNat_ofNat] at h ⊢
    omega
  have hC : (w.extractLsb' 24 8 == 0x54#8) = false := by
    refine extract_ne ?_
    rw [h]
    exact hn.2.2.1
  have hcmp : Branch.isCompare w = false := by
    refine extract_ne ?_
    simp only [field_eq, Nat.shiftRight_eq_div_pow, Nat.shiftLeft_eq, BitVec.toNat_ofNat] at h ⊢
    omega
  simp only [decode, hB, hBl, Branch.isBCond, hC, hcmp, Bool.false_and, Bool.false_eq_true,
    if_false]

end Fields

/-! ### The fields of each format -/

section Formats

open Decode

variable (rd rn rm : BitVec 5)

theorem fields_branch26 (op : BitVec 6) (imm : BitVec 26) :
    field (op ++ imm) 26 6 = op.toNat ∧ field (op ++ imm) 0 26 = imm.toNat := by
  have hop := op.isLt
  have himm := imm.isLt
  simp only [field_eq, toNat_append_eq, Nat.shiftRight_eq_div_pow, Nat.shiftLeft_eq]
  omega

theorem fields_branch19 (op : BitVec 8) (imm : BitVec 19) (low : BitVec 5) :
    field (op ++ imm ++ low) 24 8 = op.toNat ∧ field (op ++ imm ++ low) 5 19 = imm.toNat ∧
      field (op ++ imm ++ low) 0 5 = low.toNat := by
  have hop := op.isLt
  have himm := imm.isLt
  have hlow := low.isLt
  simp only [field_eq, toNat_append_eq, Nat.shiftRight_eq_div_pow, Nat.shiftLeft_eq]
  omega

/-- Twenty-two fixed bits and two registers. -/
theorem fields_two (op : BitVec 22) :
    field (op ++ rn ++ rd) 24 8 = op.toNat / 16384 ∧ field (op ++ rn ++ rd) 10 22 = op.toNat ∧
      field (op ++ rn ++ rd) 5 5 = rn.toNat ∧ field (op ++ rn ++ rd) 0 5 = rd.toNat := by
  have hop := op.isLt
  have hrn := rn.isLt
  have hrd := rd.isLt
  simp only [field_eq, toNat_append_eq, Nat.shiftRight_eq_div_pow, Nat.shiftLeft_eq]
  omega

/-- Twenty-seven fixed bits and one register. -/
theorem fields_one (op : BitVec 27) :
    field (op ++ rd) 24 8 = op.toNat / 524288 ∧ field (op ++ rd) 5 27 = op.toNat ∧
      field (op ++ rd) 0 5 = rd.toNat := by
  have hop := op.isLt
  have hrd := rd.isLt
  simp only [field_eq, toNat_append_eq, Nat.shiftRight_eq_div_pow, Nat.shiftLeft_eq]
  omega

theorem fields_brk (op : BitVec 11) (imm : BitVec 16) :
    let w := op ++ imm ++ 0#5
    field w 24 8 = op.toNat / 8 ∧ field w 21 11 = op.toNat ∧ field w 5 16 = imm.toNat ∧
      field w 0 5 = 0 := by
  have hop := op.isLt
  have himm := imm.isLt
  simp only [field_eq, toNat_append_eq, BitVec.toNat_ofNat, Nat.shiftRight_eq_div_pow,
    Nat.shiftLeft_eq]
  omega

theorem fields_wide (size : BitVec 1) (op : BitVec 8) (part : BitVec 2) (imm : BitVec 16) :
    let w := size ++ op ++ part ++ imm ++ rd
    field w 24 8 = size.toNat * 128 + op.toNat / 2 ∧ field w 31 1 = size.toNat ∧
      field w 23 1 = op.toNat % 2 ∧ field w 22 1 = part.toNat / 2 ∧ field w 21 2 = part.toNat ∧
      field w 5 16 = imm.toNat ∧ field w 0 5 = rd.toNat := by
  have hsize := size.isLt
  have hop := op.isLt
  have hpart := part.isLt
  have himm := imm.isLt
  have hrd := rd.isLt
  simp only [field_eq, toNat_append_eq, Nat.shiftRight_eq_div_pow, Nat.shiftLeft_eq]
  omega

theorem fields_sum (size : BitVec 1) (op : BitVec 9) (imm : BitVec 12) :
    let w := size ++ op ++ imm ++ rn ++ rd
    field w 24 8 = size.toNat * 128 + op.toNat / 4 ∧ field w 31 1 = size.toNat ∧
      field w 22 2 = op.toNat % 4 ∧ field w 10 12 = imm.toNat ∧ field w 5 5 = rn.toNat ∧
      field w 0 5 = rd.toNat := by
  have hsize := size.isLt
  have hop := op.isLt
  have himm := imm.isLt
  have hrn := rn.isLt
  have hrd := rd.isLt
  simp only [field_eq, toNat_append_eq, Nat.shiftRight_eq_div_pow, Nat.shiftLeft_eq]
  omega

theorem fields_data (size : BitVec 1) (op : BitVec 10) :
    let w := size ++ op ++ rm ++ 0#6 ++ rn ++ rd
    field w 24 8 = size.toNat * 128 + op.toNat / 8 ∧ field w 31 1 = size.toNat ∧
      field w 21 11 = size.toNat * 1024 + op.toNat ∧ field w 21 10 = op.toNat ∧
      field w 10 6 = 0 ∧ field w 16 5 = rm.toNat ∧ field w 5 5 = rn.toNat ∧
      field w 0 5 = rd.toNat := by
  have hsize := size.isLt
  have hop := op.isLt
  have hrm := rm.isLt
  have hrn := rn.isLt
  have hrd := rd.isLt
  simp only [field_eq, toNat_append_eq, BitVec.toNat_ofNat, Nat.shiftRight_eq_div_pow,
    Nat.shiftLeft_eq]
  omega

theorem fields_select (op : BitVec 11) (c : BitVec 4) :
    let w := op ++ rm ++ c ++ 0#2 ++ rn ++ rd
    field w 24 8 = op.toNat / 8 ∧ field w 21 11 = op.toNat ∧ field w 12 4 = c.toNat ∧
      field w 10 2 = 0 ∧ field w 16 5 = rm.toNat ∧ field w 5 5 = rn.toNat ∧
      field w 0 5 = rd.toNat := by
  have hop := op.isLt
  have hc := c.isLt
  have hrm := rm.isLt
  have hrn := rn.isLt
  have hrd := rd.isLt
  simp only [field_eq, toNat_append_eq, BitVec.toNat_ofNat, Nat.shiftRight_eq_div_pow,
    Nat.shiftLeft_eq]
  omega

/-- Bit-field moves. -/
theorem fields_bits (op : BitVec 10) (immr imms : BitVec 6) :
    let w := op ++ immr ++ imms ++ rn ++ rd
    field w 24 8 = op.toNat / 4 ∧ field w 22 2 = op.toNat % 4 ∧
      field w 21 3 = op.toNat % 4 * 2 + immr.toNat / 32 ∧ field w 16 6 = immr.toNat ∧
      field w 16 5 = immr.toNat % 32 ∧ field w 10 6 = imms.toNat ∧ field w 5 5 = rn.toNat ∧
      field w 0 5 = rd.toNat := by
  have hop := op.isLt
  have himmr := immr.isLt
  have himms := imms.isLt
  have hrn := rn.isLt
  have hrd := rd.isLt
  simp only [field_eq, toNat_append_eq, Nat.shiftRight_eq_div_pow, Nat.shiftLeft_eq]
  omega

theorem fields_access (op : BitVec 10) {bytes offset : Nat} (h : offset / bytes < 4096) :
    let w := Instr.accessWord op bytes offset rn rd
    field w 24 8 = op.toNat / 4 ∧ field w 22 2 = op.toNat % 4 ∧ field w 10 12 = offset / bytes ∧
      field w 5 5 = rn.toNat ∧ field w 0 5 = rd.toNat := by
  have hop := op.isLt
  have hrn := rn.isLt
  have hrd := rd.isLt
  unfold Instr.accessWord Instr.scaledField
  generalize offset / bytes = q at h ⊢
  simp only [field_eq, toNat_append_eq, BitVec.toNat_ofNat,
    Nat.shiftRight_eq_div_pow, Nat.shiftLeft_eq]
  omega

theorem fields_pair (op : BitVec 10) (offset : Int) (rt rt2 rn : Gpr) :
    let w := Instr.pairWord op offset rt rt2 rn
    field w 24 8 = op.toNat / 4 ∧ field w 22 2 = op.toNat % 4 ∧
      field w 15 7 = (Instr.pairField offset).toNat ∧ field w 10 5 = rt2.code.toNat ∧
      field w 5 5 = rn.code.toNat ∧ field w 0 5 = rt.code.toNat := by
  have hop := op.isLt
  have himm := (Instr.pairField offset).isLt
  have hrt := rt.code.isLt
  have hrt2 := rt2.code.isLt
  have hrn := rn.code.isLt
  simp only [field_eq, Instr.pairWord, toNat_append_eq, Nat.shiftRight_eq_div_pow,
    Nat.shiftLeft_eq]
  omega

/-- Accesses that move their base. -/
theorem fields_index (op : BitVec 11) (imm : BitVec 9) (mode : BitVec 2) :
    let w := op ++ imm ++ mode ++ rn ++ rd
    field w 24 8 = op.toNat / 8 ∧ field w 21 3 = op.toNat % 8 ∧ field w 12 9 = imm.toNat ∧
      field w 10 2 = mode.toNat ∧ field w 5 5 = rn.toNat ∧ field w 0 5 = rd.toNat := by
  have hop := op.isLt
  have himm := imm.isLt
  have hmode := mode.isLt
  have hrn := rn.isLt
  have hrd := rd.isLt
  simp only [field_eq, toNat_append_eq, Nat.shiftRight_eq_div_pow, Nat.shiftLeft_eq]
  omega

end Formats

end Dynarec.Host
