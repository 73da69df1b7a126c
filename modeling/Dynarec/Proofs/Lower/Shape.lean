import Dynarec.Proofs.Lower.Run
import Dynarec.Proofs.Straight

/-! # The shape of one instruction's items

The items of an instruction are finished instructions, behind which at most one placeholder
stands, always last. Its fixup names only registers that the instruction names. -/

namespace Dynarec.Lower

open Dynarec.Emit Dynarec.Host

/-- The placeholder of an instruction. -/
def hole? (c : Current) (i : Guest.Instr) : Option (FixupKind × FixupTarget) :=
  match i.kind with
  | .alu _ rd _ _ => if rd.isPc then some (.indirectBranch, .none) else none
  | .move rd (.reg rm) negate =>
    if rd.isPc && !negate && !i.setsFlags then some (.indirectBranch, .register rm)
    else if rd.isPc then some (.indirectBranch, .none) else none
  | .move rd (.imm _) _ => if rd.isPc then some (.indirectBranch, .none) else none
  | .branch t => some (if c.cond.isAlways then .branch else .condBranch c.cond, .address t)
  | .branchLink t => some (.call, .address t)
  | .branchExchange rm => some (.indirectBranch, .register rm)
  | .branchLinkExchange _ => some (.indirectCall, .none)
  | .tableBranch rn rm halfword => some (.tableBranch halfword, .registers rn rm)
  | .supervisorCall imm => some (.softwareInterrupt imm, .none)
  | .breakpoint imm => some (.exception .breakpoint (imm.setWidth 32), .none)
  | .undefined => some (.exception .undefined i.encoding, .none)
  | .readTimer rt rt2 => some (.timerRead, .registers rt rt2)
  | .compare .. | .vmove .. | .ifThen .. | .nop => none

/-- The placeholder as an item. -/
def holeItems (c : Current) (i : Guest.Instr) : List Item :=
  (hole? c i).toList.map fun p => .hole p.1 p.2 c

theorem finishItems_eq (c : Current) (d : Host.Gpr) (logical : Bool) (carry : Option Bool)
    (computed : Bool) :
    finishItems c d logical carry computed =
      ops ((if logical then flagOps d (flagTemp d) carry else []) ++
        if computed then [.str .w d .context Record.dispatchAddress] else []) ++
      if computed then [.hole .indirectBranch .none c] else [] := by
  unfold finishItems
  cases computed with
  | true =>
    simp only [if_true, computedItems, ops_append, List.append_assoc]
    rfl
  | false => simp only [Bool.false_eq_true, if_false, List.append_nil]

theorem straight_finish (d : Host.Gpr) (logical : Bool) (carry : Option Bool) (computed : Bool) :
    Straight ((if logical then flagOps d (flagTemp d) carry else []) ++
      if computed then [.str .w d .context Record.dispatchAddress] else []) := by
  refine Straight.append ?_ ?_
  · split
    · exact straight_flagOps _ _ _
    · rfl
  · split <;> rfl

theorem plainMoveItems_eq (c : Current) (i : Guest.Instr) (rd : Guest.Gpr)
    (operand : Guest.Operand) (negate : Bool) :
    ∃ is, Straight is ∧ plainMoveItems c i rd operand negate =
      ops is ++ if rd.isPc then [.hole .indirectBranch .none c] else [] := by
  unfold plainMoveItems
  dsimp only
  rw [finishItems_eq, ← List.append_assoc, ← ops_append]
  exact ⟨_, (straight_moveOps _ _ _ _ _).append (straight_finish _ _ _ _), rfl⟩

theorem aluItems_eq (c : Current) (i : Guest.Instr) (op : Guest.AluOp) (rd rn : Guest.Gpr)
    (operand : Guest.Operand) :
    ∃ is, Straight is ∧ aluItems c i op rd rn operand =
      ops is ++ if rd.isPc then [.hole .indirectBranch .none c] else [] := by
  unfold aluItems
  dsimp only
  rw [finishItems_eq, ← List.append_assoc, ← ops_append]
  refine ⟨_, Straight.append ?_ (straight_finish _ _ _ _), rfl⟩
  exact ((straight_gpr _ _ _).append (straight_operand _ _ _)).append
    (straight_cons.mpr ⟨isStraight_aluInstr _ _ _ _ _, straight_nil⟩)

theorem compareItems_eq (c : Current) (i : Guest.Instr) (op : Guest.CmpOp) (rn : Guest.Gpr)
    (operand : Guest.Operand) : ∃ is, Straight is ∧ compareItems c i op rn operand = ops is := by
  refine ⟨_, ((straight_gpr _ _ _).append (straight_operand _ _ _)).append ?_, rfl⟩
  cases op with
  | cmp => rfl
  | cmn => rfl
  | tst => exact straight_cons.mpr ⟨rfl, straight_flagOps _ _ _⟩
  | teq => exact straight_cons.mpr ⟨rfl, straight_flagOps _ _ _⟩

theorem vmoveItems_eq (dd dm : Guest.Dreg) : ∃ is, Straight is ∧ vmoveItems dd dm = ops is := by
  refine ⟨_, ?_, rfl⟩
  have hload : ∀ v : Host.Vreg,
      (Host.Instr.ldrV .d v .context (Record.dreg dm)).isStraight = true :=
    fun v => isStraight_iff.mpr ⟨offsetFits_dreg dm, rfl, rfl⟩
  have hstore : ∀ v : Host.Vreg,
      (Host.Instr.strV .d v .context (Record.dreg dd)).isStraight = true :=
    fun v => isStraight_iff.mpr ⟨offsetFits_dreg dd, rfl, rfl⟩
  split
  · rfl
  · exact straight_cons.mpr ⟨hload _, straight_nil⟩
  · exact straight_cons.mpr ⟨hstore _, straight_nil⟩
  · exact straight_cons.mpr ⟨hload _, straight_cons.mpr ⟨hstore _, straight_nil⟩⟩

/-- The items are instructions that control runs through, and the placeholder. -/
theorem items_eq (config : Config) (c : Current) (i : Guest.Instr) :
    ∃ is, Straight is ∧ items config c i = ops is ++ holeItems c i := by
  have hnil : ∀ xs : List Item, xs ++ [] = xs := List.append_nil
  unfold items holeItems hole?
  cases hk : i.kind with
  | alu op rd rn operand =>
    obtain ⟨is, hs, his⟩ := aluItems_eq c i op rd rn operand
    refine ⟨is, hs, his.trans ?_⟩
    dsimp only
    cases rd.isPc <;> rfl
  | move rd operand negate =>
    obtain ⟨is, hs, his⟩ := plainMoveItems_eq c i rd operand negate
    cases operand with
    | imm v =>
      refine ⟨is, hs, his.trans ?_⟩
      dsimp only
      cases rd.isPc <;> rfl
    | reg rm =>
      dsimp only [moveItems]
      by_cases hb : (rd.isPc && !negate && !i.setsFlags) = true
      · simp only [hb, if_true]
        exact ⟨[], rfl, rfl⟩
      · by_cases ha : (i.absorbsCondition && !c.cond.isAlways) = true
        · have hd : rd.isPc = false := by
            simp only [Guest.Instr.absorbsCondition, hk, Bool.and_eq_true, Bool.not_eq_true'] at ha
            cases negate <;> simp_all
          simp only [ha, hd, Bool.false_and, Bool.false_eq_true, if_false, if_true]
          exact ⟨_, show Straight [.csel _ _ _ _] from rfl, (hnil _).symm⟩
        · simp only [hb, ha, Bool.false_eq_true, if_false]
          refine ⟨is, hs, his.trans ?_⟩
          cases rd.isPc <;> rfl
  | compare op rn operand =>
    obtain ⟨is, hs, his⟩ := compareItems_eq c i op rn operand
    exact ⟨is, hs, his.trans (hnil _).symm⟩
  | vmove dd dm =>
    obtain ⟨is, hs, his⟩ := vmoveItems_eq dd dm
    exact ⟨is, hs, his.trans (hnil _).symm⟩
  | branchLink t => exact ⟨_, straight_linkOps config c, rfl⟩
  | branchLinkExchange rm =>
    refine ⟨_, Straight.append ?_ (straight_linkOps config c), rfl⟩
    split
    · exact straight_addressOps _
    · rfl
  | _ => exact ⟨[], rfl, rfl⟩

theorem straight_of_items {config : Config} {c : Current} {i : Guest.Instr} {is : List Host.Instr}
    (h : items config c i = ops is ++ holeItems c i) : Straight is := by
  obtain ⟨js, hst, hjs⟩ := items_eq config c i
  have hops := List.append_cancel_right (h.symm.trans hjs)
  rw [(List.map_inj_right fun _ _ hop => Item.op.inj hop).mp hops]
  exact hst

/-- The fixup of an instruction names only registers of the instruction. -/
theorem hole?_regs {c : Current} {i : Guest.Instr} {kind : FixupKind} {target : FixupTarget}
    (h : hole? c i = some (kind, target)) : ∀ r ∈ target.regs, r ∈ kindGprs i.kind := by
  have hnone : ∀ {k : Guest.Kind}, ∀ r ∈ FixupTarget.none.regs, r ∈ kindGprs k :=
    fun r hr => absurd hr List.not_mem_nil
  cases hk : i.kind with
  | alu op rd rn operand =>
    simp only [hole?, hk] at h
    split at h <;> cases h
    exact hnone
  | move rd operand negate =>
    cases operand with
    | imm v =>
      simp only [hole?, hk] at h
      split at h <;> cases h
      exact hnone
    | reg rm =>
      simp only [hole?, hk] at h
      split at h
      · cases h
        exact fun r hr => List.mem_cons_of_mem _ hr
      · split at h <;> cases h
        exact hnone
  | branchLink t =>
    simp only [hole?, hk] at h
    cases h
    exact fun r hr => absurd hr List.not_mem_nil
  | branchLinkExchange rm =>
    simp only [hole?, hk] at h
    cases h
    exact hnone
  | _ =>
    simp only [hole?, hk] at h
    cases h <;> exact fun r hr => hr

end Dynarec.Lower
