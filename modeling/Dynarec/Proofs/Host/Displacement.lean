import Dynarec.Proofs.Host.ReadBack

/-! # Displacements of branch words

A branch word is its opcode, its displacement and, where the displacement is short, five more bits
for a condition or a register. The opcode tells the classes of branches apart. Writing a
displacement replaces its field and nothing else, and the field gives back the displacements that
fit, and no others. -/

namespace Dynarec.Host

open Decode

/-! ### Classes -/

namespace Branch

/-- The classes of immediate branches. -/
inductive Class where
  | b | bl | bCond | compare
  deriving DecidableEq, Repr

/-- Whether a word is in the class. -/
def Class.has : Class → Word → Bool
  | b => isB
  | bl => isBl
  | bCond => isBCond
  | compare => isCompare

/-- Whether the class has the long displacement. -/
def Class.isLong : Class → Bool
  | b | bl => true
  | bCond | compare => false

/-- The classes that a word is in. -/
def classes (w : Word) : List Class := [Class.b, .bl, .bCond, .compare].filter (·.has w)

variable {w : Word} {c c' : Class}

theorem opcode26_iff (op : BitVec 6) :
    (w.extractLsb' 26 6 == op) = true ↔ field w 24 8 / 4 = op.toNat := by
  rw [beq_iff_eq, ← BitVec.toNat_inj, ← field]
  simp only [field_eq, Nat.shiftRight_eq_div_pow, Nat.shiftLeft_eq]
  omega

theorem isB_iff : isB w = true ↔ field w 24 8 / 4 = 0x05 := opcode26_iff 0b000101#6

theorem isBl_iff : isBl w = true ↔ field w 24 8 / 4 = 0x25 := opcode26_iff 0b100101#6

theorem isCompare_iff : isCompare w = true ↔ field w 24 8 / 2 % 64 = 0x1A := by
  rw [isCompare, beq_iff_eq, ← BitVec.toNat_inj, ← field]
  simp only [field_eq, Nat.shiftRight_eq_div_pow, Nat.shiftLeft_eq, BitVec.toNat_ofNat]
  omega

theorem isBCond_iff : isBCond w = true ↔ field w 24 8 = 0x54 ∧ field w 0 5 / 16 = 0 := by
  rw [isBCond, Bool.and_eq_true, beq_iff_eq, ← BitVec.toNat_inj, ← field, Bool.not_eq_true',
    BitVec.getLsbD, Nat.testBit_eq_decide_div_mod_eq, decide_eq_false_iff_not]
  simp only [field_eq, Nat.shiftRight_eq_div_pow, Nat.shiftLeft_eq, BitVec.toNat_ofNat]
  omega

/-- No word is in two classes. -/
theorem Class.has_unique (h : c.has w = true) (h' : c'.has w = true) : c = c' := by
  cases c <;> cases c' <;>
    simp only [has, isB_iff, isBl_iff, isBCond_iff, isCompare_iff, reduceCtorEq] at h h' ⊢ <;> omega

theorem classes_eq (h : c.has w = true) : classes w = [c] := by
  have hall : ∀ c' : Class, c'.has w = decide (c' = c) := by
    intro c'
    by_cases heq : c' = c
    · rw [decide_eq_true heq, heq, h]
    · rw [decide_eq_false heq, Bool.eq_false_iff]
      exact fun h' => heq (Class.has_unique h' h)
  simp only [classes, hall]
  cases c <;> rfl

theorem exists_class (h : isImmediate w = true) : ∃ c : Class, c.has w = true := by
  simp only [isImmediate, Bool.or_eq_true] at h
  rcases h with ((h | h) | h) | h
  · exact ⟨.b, h⟩
  · exact ⟨.bl, h⟩
  · exact ⟨.bCond, h⟩
  · exact ⟨.compare, h⟩

/-- The class says which displacement field is meant. -/
theorem isLong_eq (h : c.has w = true) : (isB w || isBl w) = c.isLong := by
  cases c with
  | b => rw [show isB w = true from h, Bool.true_or, Class.isLong]
  | bl => rw [show isBl w = true from h, Bool.or_true, Class.isLong]
  | bCond | compare =>
    rw [Class.isLong, Bool.or_eq_false_iff, Bool.eq_false_iff, Bool.eq_false_iff]
    refine ⟨fun h' => ?_, fun h' => ?_⟩
    · cases Class.has_unique h (show Class.b.has w = true from h')
    · cases Class.has_unique h (show Class.bl.has w = true from h')

end Branch

/-! ### Fields -/

theorem toInt_imm26_iff {d : Int} : (Instr.imm26 d).toInt = d ↔ fits26 d = true := by
  refine ⟨fun h => ?_, toInt_imm26⟩
  have hlo := (Instr.imm26 d).le_toInt
  have hhi := (Instr.imm26 d).toInt_lt
  rw [fits26_iff]
  omega

theorem toInt_imm19_iff {d : Int} : (Instr.imm19 d).toInt = d ↔ fits19 d = true := by
  refine ⟨fun h => ?_, toInt_imm19⟩
  have hlo := (Instr.imm19 d).le_toInt
  have hhi := (Instr.imm19 d).toInt_lt
  rw [fits19_iff]
  omega

theorem append_fields26 (w : Word) : w.extractLsb' 26 6 ++ w.extractLsb' 0 26 = w := by
  apply BitVec.eq_of_toNat_eq
  have hw := w.isLt
  simp only [toNat_append_eq, BitVec.extractLsb'_toNat, Nat.shiftLeft_eq, Nat.shiftRight_eq_div_pow]
  omega

theorem append_fields19 (w : Word) :
    w.extractLsb' 24 8 ++ w.extractLsb' 5 19 ++ w.extractLsb' 0 5 = w := by
  apply BitVec.eq_of_toNat_eq
  have hw := w.isLt
  simp only [toNat_append_eq, BitVec.extractLsb'_toNat, Nat.shiftLeft_eq, Nat.shiftRight_eq_div_pow]
  omega

namespace Branch

/-- The condition is in the five bits below a short displacement. -/
theorem cond?_eq_low (w : Word) : cond? w = Cond.ofCode? ((w.extractLsb' 0 5).extractLsb' 0 4) := by
  have hcode : w.extractLsb' 0 4 = (w.extractLsb' 0 5).extractLsb' 0 4 := by
    apply BitVec.eq_of_toNat_eq
    simp only [BitVec.extractLsb'_toNat, Nat.shiftRight_zero]
    omega
  rw [cond?, hcode]

/-! ### Patching -/

/-- What writing displacements does to a branch word. -/
structure Patched (w : Word) : Prop where
  one : ∃ c, classes w = [c]
  kept : ∀ d, classes (withDisp w d) = classes w
  /-- Beside a short displacement stand the opcode and a condition or a register. -/
  fields : (isB w || isBl w) = false → ∀ d, field (withDisp w d) 24 8 = field w 24 8 ∧
    cond? (withDisp w d) = cond? w ∧ gpr (withDisp w d) 0 = gpr w 0
  /-- Exactly what fits is read back. -/
  recovered : ∀ d, disp? (withDisp w d) = some d ↔ dispFits w d = true
  same : ∃ d, disp? w = some d ∧ dispFits w d = true ∧ withDisp w d = w
  last : ∀ d' d, withDisp (withDisp w d') d = withDisp w d

section Long

variable {w : Word} {c : Class} (h : c.has w = true) (hc : c.isLong = true)

include h hc

theorem withDisp_long (d : Int) : withDisp w d = w.extractLsb' 26 6 ++ Instr.imm26 d := by
  rw [withDisp, isLong_eq h, if_pos hc]

theorem disp?_long : disp? w = some (w.extractLsb' 0 26).toInt := by
  rw [disp?, isLong_eq h, if_pos hc, disp26]

theorem dispFits_long (d : Int) : dispFits w d = fits26 d := by
  rw [dispFits, isLong_eq h, if_pos hc]

/-- A long branch keeps its opcode. -/
theorem fields_withDisp_long (d : Int) :
    (withDisp w d).extractLsb' 26 6 = w.extractLsb' 26 6 ∧
      (withDisp w d).extractLsb' 0 26 = Instr.imm26 d := by
  rw [withDisp_long h hc]
  obtain ⟨hop, himm⟩ := fields_branch26 (w.extractLsb' 26 6) (Instr.imm26 d)
  exact ⟨extract_eq hop, extract_eq himm⟩

theorem has_withDisp_long (d : Int) : c.has (withDisp w d) = true := by
  have hop := (fields_withDisp_long h hc d).1
  cases c with
  | b => simpa only [Class.has, isB, hop] using h
  | bl => simpa only [Class.has, isBl, hop] using h
  | bCond | compare => cases hc

theorem patched_long : Patched w := by
  have hhas := has_withDisp_long h hc
  refine ⟨⟨c, classes_eq h⟩, fun d => ?_, fun hshort => ?_, fun d => ?_,
    ⟨(w.extractLsb' 0 26).toInt, disp?_long h hc, ?_, ?_⟩, fun d' d => ?_⟩
  · rw [classes_eq (hhas d), classes_eq h]
  · rw [isLong_eq h, hc] at hshort
    cases hshort
  · rw [disp?_long (hhas d) hc, dispFits_long h hc, (fields_withDisp_long h hc d).2,
      Option.some_inj, toInt_imm26_iff]
  · rw [dispFits_long h hc, ← toInt_imm26_iff, Instr.imm26, BitVec.ofInt_toInt]
  · rw [withDisp_long h hc, Instr.imm26, BitVec.ofInt_toInt, append_fields26]
  · rw [withDisp_long (hhas d') hc, (fields_withDisp_long h hc d').1, withDisp_long h hc]

end Long

section Short

variable {w : Word} {c : Class} (h : c.has w = true) (hc : c.isLong = false)

include h hc

theorem withDisp_short (d : Int) :
    withDisp w d = w.extractLsb' 24 8 ++ Instr.imm19 d ++ w.extractLsb' 0 5 := by
  rw [withDisp, isLong_eq h, hc, if_neg Bool.false_ne_true]

theorem disp?_short : disp? w = some (w.extractLsb' 5 19).toInt := by
  have hshort : (isBCond w || isCompare w) = true := by
    cases c with
    | b | bl => cases hc
    | bCond => rw [show isBCond w = true from h, Bool.true_or]
    | compare => rw [show isCompare w = true from h, Bool.or_true]
  rw [disp?, isLong_eq h, hc, if_neg Bool.false_ne_true, if_pos hshort, disp19]

theorem dispFits_short (d : Int) : dispFits w d = fits19 d := by
  rw [dispFits, isLong_eq h, hc, if_neg Bool.false_ne_true]

/-- A short branch keeps its opcode and its lowest bits. -/
theorem fields_withDisp_short (d : Int) :
    (withDisp w d).extractLsb' 24 8 = w.extractLsb' 24 8 ∧
      (withDisp w d).extractLsb' 5 19 = Instr.imm19 d ∧
      (withDisp w d).extractLsb' 0 5 = w.extractLsb' 0 5 := by
  rw [withDisp_short h hc]
  obtain ⟨hop, himm, hlow⟩ :=
    fields_branch19 (w.extractLsb' 24 8) (Instr.imm19 d) (w.extractLsb' 0 5)
  exact ⟨extract_eq hop, extract_eq himm, extract_eq hlow⟩

theorem has_withDisp_short (d : Int) : c.has (withDisp w d) = true := by
  obtain ⟨hop, -, hlow⟩ := fields_withDisp_short h hc d
  cases c with
  | b | bl => cases hc
  | bCond => simpa only [Class.has, isBCond_iff, field, hop, hlow] using h
  | compare => simpa only [Class.has, isCompare_iff, field, hop] using h

theorem patched_short : Patched w := by
  have hhas := has_withDisp_short h hc
  refine ⟨⟨c, classes_eq h⟩, fun d => ?_, fun _ d => ?_, fun d => ?_,
    ⟨(w.extractLsb' 5 19).toInt, disp?_short h hc, ?_, ?_⟩, fun d' d => ?_⟩
  · rw [classes_eq (hhas d), classes_eq h]
  · obtain ⟨hop, -, hlow⟩ := fields_withDisp_short h hc d
    refine ⟨congrArg BitVec.toNat hop, ?_, congrArg Gpr.mk hlow⟩
    rw [cond?_eq_low, cond?_eq_low, hlow]
  · rw [disp?_short (hhas d) hc, dispFits_short h hc, (fields_withDisp_short h hc d).2.1,
      Option.some_inj, toInt_imm19_iff]
  · rw [dispFits_short h hc, ← toInt_imm19_iff, Instr.imm19, BitVec.ofInt_toInt]
  · rw [withDisp_short h hc, Instr.imm19, BitVec.ofInt_toInt, append_fields19]
  · obtain ⟨hop, -, hlow⟩ := fields_withDisp_short h hc d'
    rw [withDisp_short (hhas d') hc, hop, hlow, withDisp_short h hc]

end Short

/-! ### Writing -/

theorem written_long (op : BitVec 6) (d : Int) :
    (op ++ Instr.imm26 d).extractLsb' 26 6 = op ∧
      disp26 (op ++ Instr.imm26 d) = (Instr.imm26 d).toInt := by
  obtain ⟨hop, himm⟩ := fields_branch26 op (Instr.imm26 d)
  exact ⟨extract_eq hop, congrArg BitVec.toInt (extract_eq himm)⟩

theorem written_bCond (c : Cond) {d : Int} (h : fits19 d = true) :
    classes (Instr.bCond c d).encode = [.bCond] ∧ disp19 (Instr.bCond c d).encode = d ∧
      cond? (Instr.bCond c d).encode = some c := by
  obtain ⟨-, hop, himm, hbit, hcode⟩ := fields_bCond c d
  generalize (Instr.bCond c d).encode = w at *
  have hlow : field w 0 5 / 16 = 0 := by
    simp only [field_eq, Nat.shiftRight_eq_div_pow, Nat.shiftLeft_eq] at hbit ⊢
    omega
  refine ⟨classes_eq (c := .bCond) (isBCond_iff.mpr ⟨hop, hlow⟩), ?_, ?_⟩
  · rw [disp19, extract_eq himm, toInt_imm19 h]
  · rw [cond?, extract_eq hcode, Cond.ofCode?_code]

theorem written_compare (op : BitVec 8) (x : Gpr) {d : Int} (hop : op.toNat / 2 % 64 = 0x1A)
    (h : fits19 d = true) :
    classes (op ++ Instr.imm19 d ++ x.code) = [.compare] ∧
      disp19 (op ++ Instr.imm19 d ++ x.code) = d ∧ gpr (op ++ Instr.imm19 d ++ x.code) 0 = x := by
  obtain ⟨htop, himm, hx⟩ := fields_branch19 op (Instr.imm19 d) x.code
  refine ⟨classes_eq (c := .compare) (isCompare_iff.mpr (htop ▸ hop)), ?_, gpr_eq hx⟩
  rw [disp19, extract_eq himm, toInt_imm19 h]

/-- Branches are read back from their words with displacement, class, and condition or register;
and a word of a branch takes every displacement that fits its field, keeps all else, and can be
written again. -/
theorem branch_words_exact :
    (∀ d, fits26 d = true →
      (classes (Instr.b d).encode = [.b] ∧ disp26 (Instr.b d).encode = d) ∧
      (classes (Instr.bl d).encode = [.bl] ∧ disp26 (Instr.bl d).encode = d)) ∧
    (∀ d, fits19 d = true →
      (∀ c, classes (Instr.bCond c d).encode = [.bCond] ∧ disp19 (Instr.bCond c d).encode = d ∧
        cond? (Instr.bCond c d).encode = some c) ∧
      (∀ x, classes (Instr.cbz x d).encode = [.compare] ∧ disp19 (Instr.cbz x d).encode = d ∧
        gpr (Instr.cbz x d).encode 0 = x) ∧
      (∀ x, classes (Instr.cbnz x d).encode = [.compare] ∧ disp19 (Instr.cbnz x d).encode = d ∧
        gpr (Instr.cbnz x d).encode 0 = x)) ∧
    ∀ w, isImmediate w = true → Patched w := by
  refine ⟨fun d hd => ⟨?_, ?_⟩, fun d hd => ⟨fun c => ?_, fun x => ?_, fun x => ?_⟩, fun w hw => ?_⟩
  · obtain ⟨hop, hdisp⟩ := written_long 0b000101#6 d
    exact ⟨classes_eq (c := .b) (beq_iff_eq.mpr hop), hdisp.trans (toInt_imm26 hd)⟩
  · obtain ⟨hop, hdisp⟩ := written_long 0b100101#6 d
    exact ⟨classes_eq (c := .bl) (beq_iff_eq.mpr hop), hdisp.trans (toInt_imm26 hd)⟩
  · exact written_bCond c hd
  · exact written_compare 0x34#8 x rfl hd
  · exact written_compare 0x35#8 x rfl hd
  · obtain ⟨c, hc⟩ := exists_class hw
    cases hlong : c.isLong with
    | true => exact patched_long hc hlong
    | false => exact patched_short hc hlong

/-- The farthest branches back are read back, and a compare branch can be patched. -/
theorem branch_words_exact_farthest :
    fits26 (-0x2000000) = true ∧ disp26 (Instr.bl (-0x2000000)).encode = -0x2000000 ∧
      fits19 (-0x40000) = true ∧ cond? (Instr.bCond .lt (-0x40000)).encode = some .lt ∧
      isImmediate (Instr.cbnz .scratch 0).encode = true ∧
      Patched (Instr.cbnz .scratch 0).encode :=
  ⟨by decide, (branch_words_exact.1 _ (by decide)).2.2, by decide,
    ((branch_words_exact.2.1 _ (by decide)).1 .lt).2.2, by decide,
    branch_words_exact.2.2 _ (by decide)⟩

end Branch

end Dynarec.Host
