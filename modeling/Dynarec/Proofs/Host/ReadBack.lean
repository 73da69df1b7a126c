import Dynarec.Proofs.Host.Decode

/-! # Words are read back

An instruction whose operands fit their fields is decoded from its own word, so that emitted code
means to the host what it was written to mean. -/

namespace Dynarec.Host

open Decode

/-! ### Immediate branches -/

theorem toInt_imm26 {d : Int} (h : fits26 d = true) : (Instr.imm26 d).toInt = d := by
  rw [fits26_iff] at h
  rw [Instr.imm26, BitVec.toInt_ofInt, Int.bmod_def]
  split <;> omega

theorem toInt_imm19 {d : Int} (h : fits19 d = true) : (Instr.imm19 d).toInt = d := by
  rw [fits19_iff] at h
  rw [Instr.imm19, BitVec.toInt_ofInt, Int.bmod_def]
  split <;> omega

/-- A long branch has the displacement of its field, whatever it was written with. -/
theorem disp26_b (d : Int) : Branch.isB (Instr.b d).encode = true ∧
    Branch.disp26 (Instr.b d).encode = (Instr.imm26 d).toInt := by
  obtain ⟨hop, himm⟩ := fields_branch26 0b000101#6 (Instr.imm26 d)
  constructor
  · rw [Branch.isB, beq_iff_eq]
    exact extract_eq hop
  · rw [Branch.disp26]
    exact congrArg BitVec.toInt (extract_eq himm)

/-- A long branch is read back with its displacement cut to the field. -/
theorem decode_b_cut (d : Int) :
    decode (Instr.b d).encode = some (.b (Instr.imm26 d).toInt) := by
  obtain ⟨hB, hd⟩ := disp26_b d
  rw [decode, if_pos hB, hd]

theorem decode_b {d : Int} (h : fits26 d = true) : decode (Instr.b d).encode = some (.b d) := by
  rw [decode_b_cut, toInt_imm26 h]

theorem decode_bl {d : Int} (h : fits26 d = true) : decode (Instr.bl d).encode = some (.bl d) := by
  obtain ⟨hop, himm⟩ := fields_branch26 0b100101#6 (Instr.imm26 d)
  have hop : (Instr.bl d).encode.extractLsb' 26 6 = 0b100101#6 := extract_eq hop
  have himm : (Instr.bl d).encode.extractLsb' 0 26 = Instr.imm26 d := extract_eq himm
  simp only [decode, Branch.isB, Branch.isBl, Branch.disp26, hop, himm, toInt_imm26 h]
  rfl

theorem fields_bCond (c : Cond) (d : Int) :
    let w := (Instr.bCond c d).encode
    field w 26 6 = 0x15 ∧ field w 24 8 = 0x54 ∧ field w 5 19 = (Instr.imm19 d).toNat ∧
      field w 4 1 = 0 ∧ field w 0 4 = c.code.toNat := by
  have hd := (Instr.imm19 d).isLt
  have hc := c.code.isLt
  simp only [Instr.encode, field_eq, toNat_append_eq, BitVec.toNat_ofNat, Nat.shiftRight_eq_div_pow,
    Nat.shiftLeft_eq]
  omega

theorem decode_bCond {c : Cond} {d : Int} (h : fits19 d = true) :
    decode (Instr.bCond c d).encode = some (.bCond c d) := by
  obtain ⟨htop, htop8, himm, hbit, hcode⟩ := fields_bCond c d
  generalize (Instr.bCond c d).encode = w at *
  have htop : w.extractLsb' 26 6 = 0b010101#6 := extract_eq htop
  have htop8 : w.extractLsb' 24 8 = 0x54#8 := extract_eq htop8
  have himm : w.extractLsb' 5 19 = Instr.imm19 d := extract_eq himm
  have hcode : w.extractLsb' 0 4 = c.code := extract_eq hcode
  have hbit : w.getLsbD 4 = false := by
    have hone : w.extractLsb' 4 1 = 0#1 := extract_eq hbit
    have hget := congrArg (BitVec.getLsbD · 0) hone
    simpa only [BitVec.getLsbD_extractLsb', Nat.zero_lt_one, decide_true, Bool.true_and,
      Nat.add_zero, BitVec.getLsbD_zero] using hget
  simp only [decode, Branch.isB, Branch.isBl, Branch.isBCond, Branch.cond?, Branch.disp19, htop, htop8,
    himm, hcode, hbit, Cond.ofCode?_code, toInt_imm19 h]
  rfl

theorem decode_compare {op : BitVec 8} {d : Int} (x : Gpr) (h : fits19 d = true)
    (hop : op = 0x34#8 ∨ op = 0x35#8) :
    decode (op ++ Instr.imm19 d ++ x.code) =
      some (if op = 0x34#8 then .cbz x d else .cbnz x d) := by
  obtain ⟨htop, himm, hx⟩ := fields_branch19 op (Instr.imm19 d) x.code
  generalize op ++ Instr.imm19 d ++ x.code = w at *
  have himm : w.extractLsb' 5 19 = Instr.imm19 d := extract_eq himm
  have hnum : op.toNat = 0x34 ∨ op.toNat = 0x35 := by
    rcases hop with rfl | rfl
    · exact .inl rfl
    · exact .inr rfl
  have hfields : field w 26 6 = 0x0D ∧ field w 25 6 = 0x1A := by
    simp only [field_eq, Nat.shiftRight_eq_div_pow, Nat.shiftLeft_eq] at htop ⊢
    omega
  have hB : Branch.isB w = false := extract_ne (by rw [hfields.1]; decide)
  have hBl : Branch.isBl w = false := extract_ne (by rw [hfields.1]; decide)
  have hC : (w.extractLsb' 24 8 == 0x54#8) = false := by
    refine extract_ne ?_
    rw [htop]
    rcases hnum with hnum | hnum <;> rw [hnum] <;> decide
  have hcmp : Branch.isCompare w = true := beq_iff_eq.mpr (extract_eq hfields.2)
  simp only [decode, hB, hBl, Branch.isBCond, hC, hcmp, compareBranch, htop, gpr_eq hx,
    Branch.disp19, himm, toInt_imm19 h, Bool.false_and, Bool.false_eq_true, if_false, if_true]
  rcases hop with rfl | rfl <;> rfl

/-! ### Everything else -/

theorem decode_registerBranch {op : BitVec 22} {i : Gpr → Instr} (x : Gpr)
    (hop : (op = 0x3587C0#22 ∧ i = .br) ∨ (op = 0x358FC0#22 ∧ i = .blr)) :
    decode (op ++ x.code ++ 0#5) = some (i x) := by
  obtain ⟨htop, hop22, hx, hlow⟩ := fields_two 0#5 x.code op
  have hne : op ++ x.code ++ 0#5 ≠ 0xD65F03C0 := by
    intro heq
    have h22 : field 0xD65F03C0 10 22 = op.toNat := heq ▸ hop22
    rcases hop with ⟨rfl, -⟩ | ⟨rfl, -⟩ <;> exact absurd h22 (by decide)
  generalize op ++ x.code ++ 0#5 = w at *
  have htop : field w 24 8 = 0xD6 := by
    rcases hop with ⟨rfl, -⟩ | ⟨rfl, -⟩ <;> exact htop
  rw [decode_eq_other htop (by decide)]
  simp only [other, htop, registerBranch, hne, if_false, hlow, hop22, gpr_eq hx]
  rcases hop with ⟨rfl, rfl⟩ | ⟨rfl, rfl⟩ <;> rfl

theorem decode_system {op : BitVec 27} {i : Gpr → Instr} (x : Gpr)
    (hop : (op = 0x6A9DA10#27 ∧ i = .mrsFlags) ∨ (op = 0x6A8DA10#27 ∧ i = .msrFlags)) :
    decode (op ++ x.code) = some (i x) := by
  obtain ⟨htop, hop27, hx⟩ := fields_one x.code op
  have hne : op ++ x.code ≠ 0xD503201F := by
    intro heq
    have h27 : field 0xD503201F 5 27 = op.toNat := heq ▸ hop27
    rcases hop with ⟨rfl, -⟩ | ⟨rfl, -⟩ <;> exact absurd h27 (by decide)
  generalize op ++ x.code = w at *
  have htop : field w 24 8 = 0xD5 := by
    rcases hop with ⟨rfl, -⟩ | ⟨rfl, -⟩ <;> exact htop
  rw [decode_eq_other htop (by decide)]
  simp only [other, htop, system, hne, if_false, hop27, gpr_eq hx]
  rcases hop with ⟨rfl, rfl⟩ | ⟨rfl, rfl⟩ <;> rfl

theorem decode_brk (imm : BitVec 16) : decode (Instr.brk imm).encode = some (.brk imm) := by
  obtain ⟨htop, hop, himm, hlow⟩ := fields_brk 0x6A1#11 imm
  have htop : field (Instr.brk imm).encode 24 8 = 0xD4 := htop
  have hop : field (Instr.brk imm).encode 21 11 = 0x6A1 := hop
  have hlow : field (Instr.brk imm).encode 0 5 = 0 := hlow
  have himm : (Instr.brk imm).encode.extractLsb' 5 16 = imm := extract_eq himm
  rw [decode_eq_other htop (by decide)]
  simp only [other, htop, hop, hlow, himm, and_self, if_true]

theorem decode_wide {op : BitVec 8} {make : Width → Gpr → BitVec 16 → BitVec 2 → Instr}
    (size : Width) (x : Gpr) (imm : BitVec 16) {part : BitVec 2}
    (hpart : size = .w → part.toNat < 2)
    (hop : (op = 0b10100101#8 ∧ make = .movz) ∨ (op = 0b11100101#8 ∧ make = .movk)) :
    decode (size.bit ++ op ++ Instr.partField size part ++ imm ++ x.code) =
      some (make size x imm part) := by
  have hfield : Instr.partField size part = part := by
    cases size with
    | x => rfl
    | w =>
      have hlt := hpart rfl
      apply BitVec.eq_of_toNat_eq
      simp only [Instr.partField, toNat_append_eq, BitVec.extractLsb'_toNat, BitVec.toNat_ofNat,
        Nat.shiftLeft_eq, Nat.shiftRight_zero]
      omega
  rw [hfield]
  obtain ⟨htop, hsize, hone, hhigh, hp, himm, hx⟩ := fields_wide x.code size.bit op part imm
  generalize size.bit ++ op ++ part ++ imm ++ x.code = w at *
  have hwidth := width_eq hsize
  have hguard : width w = .w → field w 22 1 = 0 := by
    intro hw
    have := hpart (hwidth.symm.trans hw)
    omega
  have himm : w.extractLsb' 5 16 = imm := extract_eq himm
  have hp : w.extractLsb' 21 2 = part := extract_eq hp
  rcases hop with ⟨rfl, rfl⟩ | ⟨rfl, rfl⟩
  · have hone : field w 23 1 = 1 := hone
    have hother : other w = wideMove w .movz := by
      cases size <;> simp only [other, show field w 24 8 = _ from htop] <;> rfl
    rw [decode_eq_other htop (by cases size <;> decide), hother, wideMove,
      if_pos ⟨hone, hguard⟩, hwidth, gpr_eq hx, himm, hp]
  · have hone : field w 23 1 = 1 := hone
    have hother : other w = wideMove w .movk := by
      cases size <;> simp only [other, show field w 24 8 = _ from htop] <;> rfl
    rw [decode_eq_other htop (by cases size <;> decide), hother, wideMove,
      if_pos ⟨hone, hguard⟩, hwidth, gpr_eq hx, himm, hp]

theorem decode_sum {op : BitVec 9} {make : Width → Gpr → Gpr → BitVec 12 → Instr} (size : Width)
    (x y : Gpr) (imm : BitVec 12)
    (hop : (op = 0b001000100#9 ∧ make = .addImm) ∨ (op = 0b101000100#9 ∧ make = .subImm)) :
    decode (size.bit ++ op ++ imm ++ y.code ++ x.code) = some (make size x y imm) := by
  obtain ⟨htop, hsize, hlow, himm, hy, hx⟩ := fields_sum x.code y.code size.bit op imm
  generalize size.bit ++ op ++ imm ++ y.code ++ x.code = w at *
  have hwidth := width_eq hsize
  have himm : w.extractLsb' 10 12 = imm := extract_eq himm
  rcases hop with ⟨rfl, rfl⟩ | ⟨rfl, rfl⟩
  · have hother : other w = immediateSum w .addImm := by
      cases size <;> simp only [other, show field w 24 8 = _ from htop] <;> rfl
    rw [decode_eq_other htop (by cases size <;> decide), hother, immediateSum,
      if_pos (show field w 22 2 = 0 from hlow), hwidth, gpr_eq hx, gpr_eq hy, himm]
  · have hother : other w = immediateSum w .subImm := by
      cases size <;> simp only [other, show field w 24 8 = _ from htop] <;> rfl
    rw [decode_eq_other htop (by cases size <;> decide), hother, immediateSum,
      if_pos (show field w 22 2 = 0 from hlow), hwidth, gpr_eq hx, gpr_eq hy, himm]

theorem dataOp?_bits (op : DataOp) : dataOp? op.bits.toNat = some op := by cases op <;> rfl

theorem decode_data (op : DataOp) (size : Width) (x y z : Gpr) :
    decode (Instr.data op size x y z).encode = some (.data op size x y z) := by
  obtain ⟨htop, hsize, h11, h10, hzero, hz, hy, hx⟩ :=
    fields_data x.code y.code z.code size.bit op.bits
  have hw : (Instr.data op size x y z).encode =
      size.bit ++ op.bits ++ z.code ++ 0#6 ++ y.code ++ x.code := rfl
  rw [hw]
  generalize size.bit ++ op.bits ++ z.code ++ 0#6 ++ y.code ++ x.code = w at *
  have hother : other w = threeRegister w := by
    cases size <;> cases op <;> simp only [other, show field w 24 8 = _ from htop] <;> rfl
  have hsel : ¬(field w 21 11 = 0x0D4 ∧ field w 10 2 = 0) := by
    rw [show field w 21 11 = _ from h11]
    cases size <;> cases op <;> exact fun h => absurd h.1 (by decide)
  rw [decode_eq_other htop (by cases size <;> cases op <;> decide), hother, threeRegister,
    if_neg hsel, if_pos hzero, h10, dataOp?_bits, Option.map_some, width_eq hsize, gpr_eq hx,
    gpr_eq hy, gpr_eq hz]

theorem decode_csel (x y z : Gpr) (c : Cond) :
    decode (Instr.csel x y z c).encode = some (.csel x y z c) := by
  obtain ⟨htop, h11, hc, h2, hz, hy, hx⟩ := fields_select x.code y.code z.code 0x0D4#11 c.code
  have hw : (Instr.csel x y z c).encode =
      0x0D4#11 ++ z.code ++ c.code ++ 0#2 ++ y.code ++ x.code := rfl
  rw [hw]
  generalize 0x0D4#11 ++ z.code ++ c.code ++ 0#2 ++ y.code ++ x.code = w at *
  have hother : other w = threeRegister w := by
    simp only [other, show field w 24 8 = _ from htop]
    rfl
  have hc : w.extractLsb' 12 4 = c.code := extract_eq hc
  rw [decode_eq_other htop (by decide), hother, threeRegister, if_pos ⟨h11, h2⟩, hc,
    Cond.ofCode?_code, Option.map_some, gpr_eq hx, gpr_eq hy, gpr_eq hz]

theorem decode_lsrW (x y : Gpr) (shift : BitVec 5) :
    decode (Instr.lsrW x y shift).encode = some (.lsrW x y shift) := by
  obtain ⟨htop, -, h3, -, hr, hs, hy, hx⟩ := fields_bits x.code y.code 0x14C#10 (0#1 ++ shift) 31#6
  have hw : (Instr.lsrW x y shift).encode =
      0x14C#10 ++ (0#1 ++ shift) ++ 31#6 ++ y.code ++ x.code := rfl
  rw [hw]
  generalize 0x14C#10 ++ (0#1 ++ shift) ++ 31#6 ++ y.code ++ x.code = w at *
  have hlt := shift.isLt
  have himm : (0#1 ++ shift).toNat = shift.toNat := by
    rw [toNat_append_eq, BitVec.toNat_zero, Nat.zero_shiftLeft, Nat.zero_add]
  have hshift : w.extractLsb' 16 5 = shift := extract_eq (by rw [hr, himm]; omega)
  have hguard : field w 21 3 = 0 ∧ field w 10 6 = 31 := by
    refine ⟨?_, hs⟩
    rw [h3, himm, BitVec.toNat_ofNat]
    omega
  rw [decode_eq_other htop (by decide)]
  simp only [other, show field w 24 8 = _ from htop]
  rw [show (0x14C#10).toNat / 4 = 0x53 from rfl]
  simp only [hguard, and_self, if_true, gpr_eq hx, gpr_eq hy, hshift]

theorem decode_lsrX (x y : Gpr) (shift : BitVec 6) :
    decode (Instr.lsrX x y shift).encode = some (.lsrX x y shift) := by
  obtain ⟨htop, h2, -, hr, -, hs, hy, hx⟩ := fields_bits x.code y.code 0x34D#10 shift 63#6
  have hw : (Instr.lsrX x y shift).encode = 0x34D#10 ++ shift ++ 63#6 ++ y.code ++ x.code := rfl
  rw [hw]
  generalize 0x34D#10 ++ shift ++ 63#6 ++ y.code ++ x.code = w at *
  have htop : field w 24 8 = 0xD3 := htop
  have hguard : field w 22 2 = 1 ∧ field w 10 6 = 63 := ⟨h2, hs⟩
  have hshift : w.extractLsb' 16 6 = shift := extract_eq hr
  rw [decode_eq_other htop (by decide)]
  simp only [other, htop, hguard, and_self, if_true, gpr_eq hx, gpr_eq hy, hshift]

/-- The width of an insertion is or'ed into a field that is zero. -/
theorem encode_bfi (x y : Gpr) {lsb width : Nat} (hw : width ≤ 32) :
    (Instr.bfi x y lsb width).encode = 0x0CC#10 ++ BitVec.ofNat 6 ((32 - lsb) % 32) ++
      BitVec.ofNat 6 (width - 1) ++ y.code ++ x.code := by
  have hsmall : (width - 1) % 4294967296 = width - 1 := Nat.mod_eq_of_lt (by omega)
  have hsmall6 : (width - 1) % 64 = width - 1 := Nat.mod_eq_of_lt (by omega)
  have hshift : (width - 1) <<< 10 % 4294967296 = (width - 1) <<< 10 := by
    rw [Nat.shiftLeft_eq]
    exact Nat.mod_eq_of_lt (by omega)
  apply BitVec.eq_of_toNat_eq
  simp only [Instr.encode, BitVec.toNat_or, BitVec.toNat_append, BitVec.toNat_shiftLeft,
    BitVec.toNat_ofNat, Nat.shiftLeft_or_distrib, ← Nat.shiftLeft_add]
  simp only [Nat.reducePow, Nat.reduceAdd, hsmall, hsmall6, hshift, Nat.zero_mod,
    Nat.zero_shiftLeft, Nat.or_zero]
  -- Reordering looks for a neutral element and would compute the fields.
  generalize ((32 - lsb) % 32 % 64) <<< 16 = rotation
  generalize (width - 1) <<< 10 = size
  ac_rfl

theorem decode_bfi (x y : Gpr) {lsb width : Nat} (hl : 1 ≤ lsb) (hw : 1 ≤ width)
    (h : lsb + width ≤ 32) :
    decode (Instr.bfi x y lsb width).encode = some (.bfi x y lsb width) := by
  rw [encode_bfi x y (by omega)]
  obtain ⟨htop, h2, -, hr, -, hs, hy, hx⟩ := fields_bits x.code y.code 0x0CC#10
    (BitVec.ofNat 6 ((32 - lsb) % 32)) (BitVec.ofNat 6 (width - 1))
  generalize 0x0CC#10 ++ BitVec.ofNat 6 ((32 - lsb) % 32) ++ BitVec.ofNat 6 (width - 1) ++ y.code ++
    x.code = w at *
  have htop : field w 24 8 = 0x33 := htop
  have h2 : field w 22 2 = 0 := h2
  rw [BitVec.toNat_ofNat] at hr hs
  have hr : field w 16 6 = 32 - lsb := by omega
  have hs : field w 10 6 = width - 1 := by omega
  have hguard : field w 22 2 = 0 ∧ field w 10 6 < field w 16 6 ∧ field w 16 6 < 32 := by omega
  rw [decode_eq_other htop (by decide)]
  simp only [other, htop]
  rw [insertion, if_pos hguard, gpr_eq hx, gpr_eq hy, hr, hs]
  congr 2 <;> omega

theorem mul_div_of_offsetFits {bytes offset : Nat} (h : Instr.offsetFits bytes offset = true) :
    offset / bytes < 4096 ∧ bytes * (offset / bytes) = offset := by
  simp only [Instr.offsetFits, Bool.and_eq_true, beq_iff_eq, decide_eq_true_eq] at h
  exact ⟨h.2, Nat.mul_div_cancel' (Nat.dvd_of_mod_eq_zero h.1)⟩

/-- A word with a scaled offset is read back if its top byte and the two bits below it are those
of the access. -/
theorem decode_accessWord (op : BitVec 10) {bytes offset : Nat} (rn rt : BitVec 5)
    (make : BitVec 5 → BitVec 5 → Nat → Instr) (h : Instr.offsetFits bytes offset = true)
    (htop : op.toNat / 4 / 4 ≠ 0x05 ∧ op.toNat / 4 / 4 ≠ 0x25 ∧ op.toNat / 4 ≠ 0x54 ∧
      op.toNat / 4 / 2 % 64 ≠ 0x1A)
    (hother : ∀ w, field w 24 8 = op.toNat / 4 → field w 22 2 = op.toNat % 4 →
      other w = some (make (w.extractLsb' 0 5) (w.extractLsb' 5 5) (scaledOffset w bytes))) :
    decode (Instr.accessWord op bytes offset rn rt) = some (make rt rn offset) := by
  obtain ⟨hlt, hoff⟩ := mul_div_of_offsetFits h
  obtain ⟨h24, h22, hq, hrn, hrt⟩ := fields_access rt rn op hlt
  rw [decode_eq_other h24 htop, hother _ h24 h22, extract_eq hrt, extract_eq hrn, scaledOffset, hq,
    hoff]

theorem decode_ldr {size : Width} (x y : Gpr) {offset : Nat}
    (h : Instr.offsetFits size.bytes offset = true) :
    decode (Instr.ldr size x y offset).encode = some (.ldr size x y offset) := by
  cases size with
  | w =>
    refine decode_accessWord 0x2E5 _ _ (fun a b o => .ldr .w ⟨a⟩ ⟨b⟩ o) h (by decide) ?_
    intro w h24 h22
    simp only [other, h24, h22]
    rfl
  | x =>
    refine decode_accessWord 0x3E5 _ _ (fun a b o => .ldr .x ⟨a⟩ ⟨b⟩ o) h (by decide) ?_
    intro w h24 h22
    simp only [other, h24, h22]
    rfl

theorem decode_str {size : Width} (x y : Gpr) {offset : Nat}
    (h : Instr.offsetFits size.bytes offset = true) :
    decode (Instr.str size x y offset).encode = some (.str size x y offset) := by
  cases size with
  | w =>
    refine decode_accessWord 0x2E4 _ _ (fun a b o => .str .w ⟨a⟩ ⟨b⟩ o) h (by decide) ?_
    intro w h24 h22
    simp only [other, h24, h22]
    rfl
  | x =>
    refine decode_accessWord 0x3E4 _ _ (fun a b o => .str .x ⟨a⟩ ⟨b⟩ o) h (by decide) ?_
    intro w h24 h22
    simp only [other, h24, h22]
    rfl

theorem decode_ldrV {size : VWidth} (x : Vreg) (y : Gpr) {offset : Nat}
    (h : Instr.offsetFits size.bytes offset = true) :
    decode (Instr.ldrV size x y offset).encode = some (.ldrV size x y offset) := by
  cases size with
  | d =>
    refine decode_accessWord 0x3F5 _ _ (fun a b o => .ldrV .d ⟨a⟩ ⟨b⟩ o) h (by decide) ?_
    intro w h24 h22
    simp only [other, h24, h22]
    rfl
  | q =>
    refine decode_accessWord 0x0F7 _ _ (fun a b o => .ldrV .q ⟨a⟩ ⟨b⟩ o) h (by decide) ?_
    intro w h24 h22
    simp only [other, h24, h22]
    rfl

theorem decode_strV {size : VWidth} (x : Vreg) (y : Gpr) {offset : Nat}
    (h : Instr.offsetFits size.bytes offset = true) :
    decode (Instr.strV size x y offset).encode = some (.strV size x y offset) := by
  cases size with
  | d =>
    refine decode_accessWord 0x3F4 _ _ (fun a b o => .strV .d ⟨a⟩ ⟨b⟩ o) h (by decide) ?_
    intro w h24 h22
    simp only [other, h24, h22]
    rfl
  | q =>
    refine decode_accessWord 0x0F6 _ _ (fun a b o => .strV .q ⟨a⟩ ⟨b⟩ o) h (by decide) ?_
    intro w h24 h22
    simp only [other, h24, h22]
    rfl

theorem toInt_pairField {d : Int} (h8 : d % 8 = 0) (hlo : -512 ≤ d) (hhi : d < 512) :
    8 * (Instr.pairField d).toInt = d := by
  obtain ⟨q, rfl⟩ : ∃ q, d = 8 * q := ⟨d / 8, by omega⟩
  have hq : (8 * q).tdiv 8 = q := Int.mul_tdiv_cancel_left q (by decide)
  rw [Instr.pairField, hq, BitVec.toInt_ofInt, Int.bmod_def]
  split <;> omega

theorem toInt_indexField {d : Int} (hlo : -256 ≤ d) (hhi : d < 256) :
    (Instr.indexField d).toInt = d := by
  rw [Instr.indexField, BitVec.toInt_ofInt, Int.bmod_def]
  split <;> omega

/-- A pair is read back if its top byte and the two bits below it are those of the access. -/
theorem decode_pairWord (op : BitVec 10) {offset : Int} (rt rt2 rn : Gpr)
    (make : Gpr → Gpr → Gpr → Int → Instr) (h8 : offset % 8 = 0) (hlo : -512 ≤ offset)
    (hhi : offset < 512)
    (htop : op.toNat / 4 / 4 ≠ 0x05 ∧ op.toNat / 4 / 4 ≠ 0x25 ∧ op.toNat / 4 ≠ 0x54 ∧
      op.toNat / 4 / 2 % 64 ≠ 0x1A)
    (hother : ∀ w, field w 24 8 = op.toNat / 4 → field w 22 2 = op.toNat % 4 →
      other w = some (make (gpr w 0) (gpr w 10) (gpr w 5) (pairOffset w))) :
    decode (Instr.pairWord op offset rt rt2 rn) = some (make rt rt2 rn offset) := by
  obtain ⟨h24, h22, hoff, hrt2, hrn, hrt⟩ := fields_pair op offset rt rt2 rn
  rw [decode_eq_other h24 htop, hother _ h24 h22, gpr_eq hrt, gpr_eq hrt2, gpr_eq hrn, pairOffset,
    extract_eq hoff, toInt_pairField h8 hlo hhi]

/-- An access that moves its base is read back if the bits around its offset are right. -/
theorem decode_indexWord (op : BitVec 11) (mode : BitVec 2) {offset : Int} (rn rt : BitVec 5)
    (make : BitVec 5 → BitVec 5 → Int → Instr) (hlo : -256 ≤ offset) (hhi : offset < 256)
    (htop : op.toNat / 8 / 4 ≠ 0x05 ∧ op.toNat / 8 / 4 ≠ 0x25 ∧ op.toNat / 8 ≠ 0x54 ∧
      op.toNat / 8 / 2 % 64 ≠ 0x1A)
    (hother : ∀ w, field w 24 8 = op.toNat / 8 → field w 21 3 = op.toNat % 8 →
      field w 10 2 = mode.toNat →
      other w = some (make (w.extractLsb' 0 5) (w.extractLsb' 5 5) (indexOffset w))) :
    decode (op ++ Instr.indexField offset ++ mode ++ rn ++ rt) = some (make rt rn offset) := by
  obtain ⟨h24, h21, hoff, h10, hrn, hrt⟩ := fields_index rt rn op (Instr.indexField offset) mode
  rw [decode_eq_other h24 htop, hother _ h24 h21 h10, extract_eq hrt, extract_eq hrn, indexOffset,
    extract_eq hoff, toInt_indexField hlo hhi]

theorem decode_fmov (x y : Vreg) : decode (Instr.fmov x y).encode = some (.fmov x y) := by
  obtain ⟨htop, hop, hy, hx⟩ := fields_two x.code y.code 0x079810#22
  have hw : (Instr.fmov x y).encode = 0x079810#22 ++ y.code ++ x.code := rfl
  rw [hw, decode_eq_other htop (by decide)]
  generalize 0x079810#22 ++ y.code ++ x.code = w at *
  have htop : field w 24 8 = 0x1E := htop
  have hop : field w 10 22 = 0x079810 := hop
  simp only [other, htop, hop, if_true, vreg_eq hx, vreg_eq hy]

/-- Every instruction whose operands fit their fields is read back. -/
theorem decode_encode {i : Instr} (h : i.isCanonical = true) : decode i.encode = some i := by
  cases i with
  | b d => exact decode_b h
  | bl d => exact decode_bl h
  | bCond c d => exact decode_bCond h
  | cbz x d => exact decode_compare x h (.inl rfl)
  | cbnz x d => exact decode_compare x h (.inr rfl)
  | br x => exact decode_registerBranch x (.inl ⟨rfl, rfl⟩)
  | blr x => exact decode_registerBranch x (.inr ⟨rfl, rfl⟩)
  | ret => rfl
  | nop => rfl
  | brk imm => exact decode_brk imm
  | movz size x imm part =>
    refine decode_wide size x imm ?_ (.inl ⟨rfl, rfl⟩)
    rintro rfl
    exact of_decide_eq_true h
  | movk size x imm part =>
    refine decode_wide size x imm ?_ (.inr ⟨rfl, rfl⟩)
    rintro rfl
    exact of_decide_eq_true h
  | addImm size x y imm => exact decode_sum size x y imm (.inl ⟨rfl, rfl⟩)
  | subImm size x y imm => exact decode_sum size x y imm (.inr ⟨rfl, rfl⟩)
  | data op size x y z => exact decode_data op size x y z
  | csel x y z c => exact decode_csel x y z c
  | lsrW x y shift => exact decode_lsrW x y shift
  | lsrX x y shift => exact decode_lsrX x y shift
  | bfi x y lsb width =>
    simp only [Instr.isCanonical, Bool.and_eq_true, decide_eq_true_eq] at h
    exact decode_bfi x y h.1.1 h.1.2 h.2
  | mrsFlags x => exact decode_system x (.inl ⟨rfl, rfl⟩)
  | msrFlags x => exact decode_system x (.inr ⟨rfl, rfl⟩)
  | ldr size x y off => exact decode_ldr x y h
  | str size x y off => exact decode_str x y h
  | ldrV size x y off => exact decode_ldrV x y h
  | strV size x y off => exact decode_strV x y h
  | stp x y z off =>
    simp only [Instr.isCanonical, Bool.and_eq_true, decide_eq_true_eq] at h
    refine decode_pairWord 0x2A4 x y z .stp h.1.1 h.1.2 h.2 (by decide) ?_
    intro w h24 h22
    simp only [other, h24, h22]
    rfl
  | ldp x y z off =>
    simp only [Instr.isCanonical, Bool.and_eq_true, decide_eq_true_eq] at h
    refine decode_pairWord 0x2A5 x y z .ldp h.1.1 h.1.2 h.2 (by decide) ?_
    intro w h24 h22
    simp only [other, h24, h22]
    rfl
  | stpPre x y z off =>
    simp only [Instr.isCanonical, Bool.and_eq_true, decide_eq_true_eq] at h
    refine decode_pairWord 0x2A6 x y z .stpPre h.1.1 h.1.2 h.2 (by decide) ?_
    intro w h24 h22
    simp only [other, h24, h22]
    rfl
  | ldpPost x y z off =>
    simp only [Instr.isCanonical, Bool.and_eq_true, decide_eq_true_eq] at h
    refine decode_pairWord 0x2A3 x y z .ldpPost h.1.1 h.1.2 h.2 (by decide) ?_
    intro w h24 h22
    simp only [other, h24, h22]
    rfl
  | strPre x y off =>
    simp only [Instr.isCanonical, Bool.and_eq_true, decide_eq_true_eq] at h
    refine decode_indexWord 0x7C0 0b11 _ _ (fun a b o => .strPre ⟨a⟩ ⟨b⟩ o) h.1 h.2 (by decide) ?_
    intro w h24 h21 h10
    simp only [other, h24, h21, h10]
    rfl
  | ldrPost x y off =>
    simp only [Instr.isCanonical, Bool.and_eq_true, decide_eq_true_eq] at h
    refine decode_indexWord 0x7C2 0b01 _ _ (fun a b o => .ldrPost ⟨a⟩ ⟨b⟩ o) h.1 h.2 (by decide) ?_
    intro w h24 h21 h10
    simp only [other, h24, h21, h10]
    rfl
  | strVPre x y off =>
    simp only [Instr.isCanonical, Bool.and_eq_true, decide_eq_true_eq] at h
    refine decode_indexWord 0x7E0 0b11 _ _ (fun a b o => .strVPre ⟨a⟩ ⟨b⟩ o) h.1 h.2 (by decide) ?_
    intro w h24 h21 h10
    simp only [other, h24, h21, h10]
    rfl
  | ldrVPost x y off =>
    simp only [Instr.isCanonical, Bool.and_eq_true, decide_eq_true_eq] at h
    refine decode_indexWord 0x7E2 0b01 _ _ (fun a b o => .ldrVPost ⟨a⟩ ⟨b⟩ o) h.1 h.2 (by decide) ?_
    intro w h24 h21 h10
    simp only [other, h24, h21, h10]
    rfl
  | fmov x y => exact decode_fmov x y

end Dynarec.Host
