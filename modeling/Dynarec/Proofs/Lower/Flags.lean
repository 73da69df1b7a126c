import Dynarec.Proofs.Body.Items
import Dynarec.Proofs.Guest.Decode
import Dynarec.Proofs.Machine.Guard

/-! # Instructions that leave the flags

What an instruction becomes changes the flags only if it is to set them, or if control leaves the
place for a sequence out of line. -/

namespace Dynarec.Lower

open Dynarec.Emit Dynarec.Host Dynarec.Compile

/-! ### Data instructions -/

/-- Each of some instructions leaves the flags. -/
def KeepFlags (is : List Host.Instr) : Prop := ∀ i ∈ is, i.keepsFlags = true

theorem KeepFlags.append {is js : List Host.Instr} (hi : KeepFlags is) (hj : KeepFlags js) :
    KeepFlags (is ++ js) := List.forall_mem_append.mpr ⟨hi, hj⟩

theorem keepFlags_of_all {is : List Host.Instr} (h : is.all (·.keepsFlags) = true) :
    KeepFlags is := List.all_eq_true.mp h

theorem keepFlags_loadWord (x : Host.Gpr) (value : Word) : KeepFlags (loadWord x value) := by
  refine keepFlags_of_all ?_
  unfold loadWord
  dsimp only
  split
  · rfl
  · split <;> rfl

theorem keepFlags_constant (n : Nat) (value : Word) : KeepFlags (Source.constant n value).load := by
  unfold Source.constant
  split
  · exact keepFlags_of_all rfl
  · exact keepFlags_loadWord _ _

theorem keepFlags_gpr (pcValue : Word) (n : Nat) (r : Guest.Gpr) :
    KeepFlags (Source.gpr pcValue n r).load := by
  unfold Source.gpr
  split
  · exact keepFlags_constant n pcValue
  · exact keepFlags_of_all rfl

theorem keepFlags_operand (pcValue : Word) (n : Nat) (o : Guest.Operand) :
    KeepFlags (Source.operand pcValue n o).load := by
  cases o with
  | reg r => exact keepFlags_gpr pcValue n r
  | imm value => exact keepFlags_constant n value

theorem keepsFlags_aluInstr (op : Guest.AluOp) (d a b : Host.Gpr) :
    (aluInstr op false d a b).keepsFlags = true := by
  cases op <;> rfl

theorem keepFlags_moveOps (c : Current) (n : Nat) (d : Host.Gpr) (o : Guest.Operand)
    (negate : Bool) : KeepFlags (moveOps c n d o negate) := by
  cases o with
  | reg r =>
    refine (keepFlags_gpr c.pcValue n r).append (keepFlags_of_all ?_)
    cases negate <;> rfl
  | imm value => exact keepFlags_loadWord _ _

theorem finishItems_nil (c : Current) (d : Host.Gpr) (carry : Option Bool) :
    finishItems c d false carry false = [] := rfl

section Data

variable {c : Current} {i : Guest.Instr} (hs : i.setsFlags = false) {rd : Guest.Gpr}
  (hrd : rd.isPc = false)

include hs hrd

theorem aluItems_keep (op : Guest.AluOp) (rn : Guest.Gpr) (o : Guest.Operand) :
    ∃ is, KeepFlags is ∧ aluItems c i op rd rn o = ops is := by
  simp only [aluItems, hs, hrd, Bool.false_and, finishItems_nil, List.append_nil]
  exact ⟨_, ((keepFlags_gpr _ 0 rn).append (keepFlags_operand _ _ o)).append
    (List.forall_mem_singleton.mpr (keepsFlags_aluInstr op _ _ _)), rfl⟩

theorem plainMoveItems_keep (o : Guest.Operand) (negate : Bool) :
    ∃ is, KeepFlags is ∧ plainMoveItems c i rd o negate = ops is := by
  refine ⟨_, keepFlags_moveOps c 0 (target 0 rd) o negate, ?_⟩
  simp only [plainMoveItems, hs, hrd, finishItems_nil, Bool.false_eq_true, if_false,
    List.append_nil]

end Data

/-! ### Instructions behind which control stays in line -/

/-- The instruction sets no flags, and control passes on behind it in line. -/
structure Quiet (i : Guest.Instr) : Prop where
  regular : i.Regular
  setsFlags : i.setsFlags = false
  branch : i.flags.branch = false
  isHelped : i.kind.isHelped = false

/-- The code of a quiet instruction is straight and leaves the flags. -/
theorem Quiet.instrItems_eq {i : Guest.Instr} (h : Quiet i) (config : Config) :
    ∃ is, Straight is ∧ KeepFlags is ∧ instrItems config i = ops is := by
  have hbranch := h.regular.branch.symm.trans h.branch
  suffices hkeep : ∃ is, KeepFlags is ∧ instrItems config i = ops is by
    obtain ⟨is, hkeep, his⟩ := hkeep
    obtain ⟨js, hstraight, hjs⟩ := items_eq config (currentOf i) i
    have hhole : hole? (currentOf i) i = none := by
      refine Option.eq_none_iff_forall_ne_some.mpr fun q hq => ?_
      have hmem : Item.hole q.1 q.2 (currentOf i) ∈ ops is := by
        rw [← his, instrItems, hjs, holeItems, hq]
        exact List.mem_append_right _ List.mem_cons_self
      obtain ⟨o, -, ho⟩ := List.mem_map.mp hmem
      cases ho
    have heq : ops js = ops is := by
      rw [← his, instrItems, hjs, holeItems, hhole]
      exact (List.append_nil _).symm
    obtain rfl : js = is := (List.map_inj_right fun _ _ => Item.op.inj).mp heq
    exact ⟨js, hstraight, hkeep, his⟩
  unfold instrItems items
  cases hk : i.kind with
  | alu op rd rn o =>
    rw [hk] at hbranch
    exact aluItems_keep h.setsFlags hbranch op rn o
  | move rd o negate =>
    rw [hk] at hbranch
    have hrd : rd.isPc = false := hbranch
    obtain ⟨is, hkeep, his⟩ := plainMoveItems_keep (c := currentOf i) h.setsFlags hrd o negate
    cases o with
    | imm value => exact ⟨is, hkeep, his⟩
    | reg rm =>
      simp only [moveItems, hrd, Bool.false_and, Bool.false_eq_true, if_false]
      split
      · exact ⟨_, keepFlags_of_all rfl, rfl⟩
      · exact ⟨is, hkeep, his⟩
  | compare op rn o => cases (h.regular.compare op rn o hk).symm.trans h.setsFlags
  | vmove dd dm =>
    refine ⟨_, keepFlags_of_all ?_, rfl⟩
    split <;> rfl
  | ifThen | nop => exact ⟨[], keepFlags_of_all rfl, rfl⟩
  | supervisorCall | breakpoint | undefined | readTimer =>
    have hhelped := h.isHelped
    rw [hk] at hhelped
    cases hhelped
  | branch | branchLink | branchExchange | branchLinkExchange | tableBranch =>
    rw [hk] at hbranch
    cases hbranch

theorem flatMap_instrItems_eq {is : List Guest.Instr} (h : ∀ i ∈ is, Quiet i) (config : Config) :
    ∃ os, Straight os ∧ KeepFlags os ∧ is.flatMap (instrItems config) = ops os := by
  induction is with
  | nil => exact ⟨[], rfl, keepFlags_of_all rfl, rfl⟩
  | cons i is ih =>
    obtain ⟨hi, his⟩ := List.forall_mem_cons.mp h
    obtain ⟨os, hs, hk, hos⟩ := hi.instrItems_eq config
    obtain ⟨qs, hs', hk', hqs⟩ := ih his
    exact ⟨os ++ qs, hs.append hs', hk.append hk', by rw [List.flatMap_cons, hos, hqs, ops_append]⟩

end Dynarec.Lower
