import Dynarec.Host.Branch

/-! # Branch words

What the displacement and the fields of a branch word are. Words are appended fields, so a field
is a quotient and a remainder of the word's value. -/

namespace Dynarec.Host

theorem toNat_append_eq {m n : Nat} (x : BitVec m) (y : BitVec n) :
    (x ++ y).toNat = x.toNat <<< n + y.toNat := by
  rw [BitVec.toNat_append, Nat.shiftLeft_add_eq_or_of_lt y.isLt]

/-- A conditional branch gets another displacement and keeps its condition. -/
theorem withDisp_bCond (c : Cond) (d d' : Int) :
    Branch.withDisp (Instr.bCond c d).encode d' = (Instr.bCond c d').encode := by
  have hd := (Instr.imm19 d).isLt
  have hc := c.code.isLt
  have h26 : (Instr.bCond c d).encode.extractLsb' 26 6 = 0b010101#6 := by
    apply BitVec.eq_of_toNat_eq
    simp only [Instr.encode, BitVec.extractLsb'_toNat, toNat_append_eq, BitVec.toNat_ofNat,
      Nat.shiftLeft_eq, Nat.shiftRight_eq_div_pow]
    omega
  have h24 : (Instr.bCond c d).encode.extractLsb' 24 8 = 0x54#8 := by
    apply BitVec.eq_of_toNat_eq
    simp only [Instr.encode, BitVec.extractLsb'_toNat, toNat_append_eq, BitVec.toNat_ofNat,
      Nat.shiftLeft_eq, Nat.shiftRight_eq_div_pow]
    omega
  have h0 : (Instr.bCond c d).encode.extractLsb' 0 5 = 0#1 ++ c.code := by
    apply BitVec.eq_of_toNat_eq
    simp only [Instr.encode, BitVec.extractLsb'_toNat, toNat_append_eq, BitVec.toNat_ofNat,
      Nat.shiftLeft_eq, Nat.shiftRight_eq_div_pow]
    omega
  unfold Branch.withDisp Branch.isB Branch.isBl
  rw [h26, h24, h0, if_neg (by decide)]
  apply BitVec.eq_of_toNat_eq
  simp only [Instr.encode, toNat_append_eq, Nat.shiftLeft_eq]
  omega

theorem fits26_iff {disp : Int} : fits26 disp = true ↔ -0x2000000 ≤ disp ∧ disp < 0x2000000 := by
  rw [fits26, Bool.and_eq_true, decide_eq_true_iff, decide_eq_true_iff]
  rfl

theorem fits19_iff {disp : Int} : fits19 disp = true ↔ -0x40000 ≤ disp ∧ disp < 0x40000 := by
  rw [fits19, Bool.and_eq_true, decide_eq_true_iff, decide_eq_true_iff]
  rfl

theorem fits26_of_fits19 {disp : Int} (h : fits19 disp = true) : fits26 disp = true := by
  have h := fits19_iff.mp h
  exact fits26_iff.mpr (by omega)

end Dynarec.Host
