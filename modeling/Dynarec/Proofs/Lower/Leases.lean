import Mathlib.Data.List.Perm.Subperm
import Dynarec.Proofs.Emission.Lease
import Dynarec.Proofs.Lower.Run

/-! # Leases of one instruction

While an instruction is emitted, temporary registers are leased for the program counter as an
operand, for immediates, for a result that goes to the program counter and for flags, and some of
them are given back half-way. Whatever the pools are at the start, at no point are more than two
registers out when another is asked for. So a lowering fails only for want of one of three, and
what it still holds at its end, also at a failed one, is exactly what it gives back. -/

namespace Dynarec.Emit

open Host (RegSet Gpr Vreg)

/-! ### Pools and what is out of them -/

section Shared

variable {R : Type} {code : R → BitVec 5} {pool free : RegSet} {out : List R}

/-- An empty pool was no larger than what is out of it. -/
theorem Shared.size_le
    (h : Shared code (fun x => pool.contains (code x) = true) free out)
    (hcode : Function.Surjective code) (hfree : free = .empty) : pool.size ≤ out.length := by
  have hsub : pool.toList ⊆ out.map code := by
    intro c hc
    obtain ⟨x, rfl⟩ := hcode c
    rcases (h.whole x).mp ((RegSet.mem_toList pool _).mp hc) with hx | hx
    · exact List.mem_map_of_mem hx
    · rw [hfree, RegSet.contains_empty] at hx
      cases hx
  have hle := (List.subperm_of_subset pool.nodup_toList hsub).length_le
  rwa [List.length_map] at hle

/-- With nothing out the pool is whole. -/
theorem Shared.eq_of_nil
    (h : Shared code (fun x => pool.contains (code x) = true) free [])
    (hcode : Function.Surjective code) : free = pool := by
  refine RegSet.eq_of_contains_eq fun c => ?_
  obtain ⟨x, rfl⟩ := hcode c
  rw [Bool.eq_iff_iff, ← h.whole x |>.trans (or_iff_right List.not_mem_nil)]

theorem Shared.free_le (h : Shared code (fun x => pool.contains (code x) = true) free out)
    (hcode : Function.Surjective code) {c : BitVec 5} (hc : free.contains c = true) :
    pool.contains c = true := by
  obtain ⟨x, rfl⟩ := hcode c
  exact (h.whole x).mpr (.inr hc)

/-- What is out is what the pool has and is not free. -/
theorem Shared.diff (h : Shared code (fun x => pool.contains (code x) = true) free out)
    (hcode : Function.Surjective code) {held : List R} (hnodup : held.Nodup)
    (hheld : ∀ x, x ∈ held ↔ (pool.diff free).contains (code x) = true) :
    Shared code (fun x => pool.contains (code x) = true) free held := by
  simp only [RegSet.contains_diff, Bool.and_eq_true, Bool.not_eq_true'] at hheld
  refine ⟨hnodup, fun x hx => ((hheld x).mp hx).2, fun x => ?_⟩
  rw [hheld]
  cases hx : free.contains (code x) with
  | true => simp only [h.free_le hcode hx, reduceCtorEq, and_false, or_true]
  | false => simp only [and_true, reduceCtorEq, or_false]

end Shared

theorem code_surjective : Function.Surjective Gpr.code := fun c => ⟨⟨c⟩, rfl⟩

theorem vcode_surjective : Function.Surjective Vreg.code := fun c => ⟨⟨c⟩, rfl⟩

/-- In `s` the registers `out` are leased from the pools of `u`. -/
structure Lent (u : RegisterUse) (out : Leases) (s : Emission) : Prop where
  gprs : Shared Gpr.code (fun x => u.freeGprs.contains x.code = true) s.regs.freeGprs out.gprs
  vregs : Shared Vreg.code (fun v => u.freeVregs.contains v.code = true) s.regs.freeVregs out.vregs

theorem lent_self (s : Emission) : Lent s.regs {} s :=
  ⟨.rested fun _ => Iff.rfl, .rested fun _ => Iff.rfl⟩

theorem Lent.of_samePools {u : RegisterUse} {out : Leases} {s t : Emission} (h : Lent u out s)
    (hst : s.regs.SamePools t.regs) : Lent u out t :=
  ⟨hst.1.symm ▸ h.gprs, hst.2.symm ▸ h.vregs⟩

theorem Lent.leasedSince {u : RegisterUse} {out : Leases} {s : Emission} (h : Lent u out s) :
    Lent u (s.regs.leasedSince u) s where
  gprs := h.gprs.diff code_surjective (RegSet.nodup_gprs _) fun _ => RegSet.mem_gprs
  vregs := h.vregs.diff vcode_surjective (RegSet.nodup_vregs _) fun _ => RegSet.mem_vregs

/-- The faults for want of a register, where the pools of `u` are small enough for them. -/
inductive Wanting (u : RegisterUse) : Fault → Prop
  | gpr (h : u.freeGprs.size < 3) : Wanting u (.error (.poolExhausted .gpr))
  | vreg (h : u.freeVregs.size < 1) : Wanting u (.error (.poolExhausted .vreg))

/-- With `out` leased from the pools of `u`, the action ends well with leases that `Q` allows for
its result, or for want of a register with whatever is out at that point. -/
structure Borrows {α : Type} (u : RegisterUse) (out : Leases) (m : Emit α)
    (Q : α → Leases → Prop) : Prop where
  run : ∀ e s, Lent u out s → (∃ a t held, m e s = .ok a t ∧ Q a held ∧ Lent u held t) ∨
    ∃ f t held, m e s = .error f t ∧ Wanting u f ∧ Lent u held t

/-- Exactly the leases of `after` are out. -/
def Leaves {α : Type} (after : α → Leases) (a : α) (held : Leases) : Prop := held = after a

/-- The action ends well or for want of a register, whatever is out at its end. -/
abbrev Concludes (u : RegisterUse) (out : Leases) (m : Emit Unit) : Prop :=
  Borrows u out m fun _ _ => True

/-! ### Sequencing -/

section Sequencing

variable {α β : Type} {u : RegisterUse} {out : Leases}

theorem Borrows.pure {a : α} {after : α → Leases} (h : after a = out) :
    Borrows u out (pure a : Emit α) (Leaves after) :=
  ⟨fun _ s hs => .inl ⟨a, s, out, rfl, h.symm, hs⟩⟩

theorem Borrows.bind {m : Emit α} {f : α → Emit β} {after : α → Leases} {Q : β → Leases → Prop}
    (hm : Borrows u out m (Leaves after)) (hf : ∀ a, Borrows u (after a) (f a) Q) :
    Borrows u out (m >>= f) Q := by
  refine ⟨fun e s hs => ?_⟩
  rcases hm.run e s hs with ⟨a, t, held, hrun, rfl, ht⟩ | ⟨g, t, held, hrun, hg, ht⟩
  · rw [bind_run_ok hrun]
    exact (hf a).run e t ht
  · rw [bind_run_error hrun]
    exact .inr ⟨g, t, held, rfl, hg, ht⟩

theorem Borrows.ite {c : Prop} [Decidable c] {m n : Emit α} {Q : α → Leases → Prop}
    (hm : c → Borrows u out m Q) (hn : ¬c → Borrows u out n Q) :
    Borrows u out (if c then m else n) Q := by
  split
  · exact hm ‹_›
  · exact hn ‹_›

theorem Borrows.concludes {m : Emit Unit} {Q : Unit → Leases → Prop} (h : Borrows u out m Q) :
    Concludes u out m := by
  refine ⟨fun e s hs => ?_⟩
  rcases h.run e s hs with ⟨a, t, held, hrun, -, ht⟩ | hfail
  · exact .inl ⟨a, t, held, hrun, trivial, ht⟩
  · exact .inr hfail

/-- An action that always ends well and leaves the pools alone leases nothing. -/
theorem Borrows.of_samePools {m : Emit α}
    (h : ∀ e s, ∃ a t, m e s = .ok a t ∧ s.regs.SamePools t.regs) :
    Borrows u out m (Leaves fun _ => out) := by
  refine ⟨fun e s hs => ?_⟩
  obtain ⟨a, t, hrun, hpools⟩ := h e s
  exact .inl ⟨a, t, out, hrun, rfl, hs.of_samePools hpools⟩

end Sequencing

/-! ### Actions -/

section Actions

variable {u : RegisterUse} {out : Leases}

/-- A lease can fail only if fewer than three general registers were free. -/
theorem borrows_leaseGpr (hout : out.gprs.length < 3) :
    Borrows u out leaseGpr (Leaves fun x => { out with gprs := out.gprs ++ [x] }) := by
  refine ⟨fun e s hs => ?_⟩
  rcases (leaseGpr_lowest e s).cases with ⟨c, hc, hrun⟩ | ⟨hempty, hrun⟩
  · have hgprs := hs.gprs.lease (x := ⟨c⟩) Host.gprCode_injective hc
    exact .inl ⟨_, _, _, hrun, rfl, hgprs, hs.vregs⟩
  · have hle := hs.gprs.size_le code_surjective hempty
    exact .inr ⟨_, s, out, hrun, .gpr (by omega), hs⟩

theorem borrows_leaseVreg (hout : out.vregs = []) :
    Borrows u out leaseVreg (Leaves fun v => { out with vregs := [v] }) := by
  refine ⟨fun e s hs => ?_⟩
  rcases (leaseVreg_lowest e s).cases with ⟨c, hc, hrun⟩ | ⟨hempty, hrun⟩
  · have hvregs := hs.vregs.lease (x := ⟨c⟩) Host.vregCode_injective hc
    rw [hout] at hvregs
    exact .inl ⟨_, _, _, hrun, rfl, hs.gprs, hvregs⟩
  · have hle := hs.vregs.size_le vcode_surjective hempty
    rw [hout, List.length_nil] at hle
    exact .inr ⟨_, s, out, hrun, .vreg (by omega), hs⟩

theorem borrows_releaseGpr {x : Gpr} (pre post : List Gpr) (hout : out.gprs = pre ++ x :: post) :
    Borrows u out (releaseGpr x) (Leaves fun _ => { out with gprs := pre ++ post }) := by
  refine ⟨fun e s hs => ?_⟩
  have hmem : x ∈ out.gprs := by
    rw [hout]
    exact List.mem_append_right _ List.mem_cons_self
  have hk : out.gprs[pre.length]? = some x := by
    rw [hout, List.getElem?_append_right (Nat.le_refl _), Nat.sub_self]
    rfl
  have hgprs := hs.gprs.release Host.gprCode_injective hk
  rw [hout, List.eraseIdx_append_of_length_le (Nat.le_refl _), Nat.sub_self,
    List.eraseIdx_cons_zero] at hgprs
  exact .inl ⟨(), _, _, releaseGpr_run e s (hs.gprs.apart x hmem), rfl, hgprs, hs.vregs⟩

theorem borrows_asm {is : List Host.Instr} (h : Encodable is) :
    Borrows u out (asm is) (Leaves fun _ => out) :=
  .of_samePools fun e s => ⟨(), _, asm_run h e s, rfl, rfl⟩

theorem borrows_pinGpr {r : Guest.Gpr} (h : r.isPc = false) :
    Borrows u out (pinGpr r) (Leaves fun _ => out) :=
  .of_samePools fun e s => ⟨_, _, pinGpr_run e s h, s.regs.samePools_pin r⟩

theorem borrows_pinVreg? (d : Guest.Dreg) : Borrows u out (pinVreg? d) (Leaves fun _ => out) :=
  .of_samePools fun e s => ⟨_, _, pinVreg?_run e s d, s.regs.samePools_pinD d⟩

theorem borrows_current : Borrows u out current (Leaves fun _ => out) :=
  .of_samePools fun e s => ⟨_, _, current_run e s, rfl, rfl⟩

theorem borrows_read : Borrows u out (read : Emit Setting) (Leaves fun _ => out) :=
  .of_samePools fun e s => ⟨_, _, run_read e s, rfl, rfl⟩

theorem borrows_markFlags : Borrows u out markFlags (Leaves fun _ => out) :=
  .of_samePools fun e s => ⟨_, _, markFlags_run e s, rfl, rfl⟩

theorem samePools_pinAll (v : RegisterUse) (rs : List Guest.Gpr) : v.SamePools (v.pinAll rs) := by
  induction rs generalizing v with
  | nil => exact ⟨rfl, rfl⟩
  | cons r rs ih =>
    obtain ⟨hg, hv⟩ := v.samePools_pin r
    obtain ⟨hgs, hvs⟩ := ih (v.pin r)
    exact ⟨hgs.trans hg, hvs.trans hv⟩

theorem samePools_afterHole (v : RegisterUse) (kind : FixupKind) (target : FixupTarget) :
    v.SamePools (v.afterHole kind target) := by
  unfold RegisterUse.afterHole
  split <;> exact samePools_pinAll v target.regs

theorem borrows_pushFixup (kind : FixupKind) (target : FixupTarget) :
    Borrows u out (pushFixup kind target) (Leaves fun _ => out) :=
  .of_samePools fun _ s => ⟨_, _, pushFixup_run kind target, samePools_afterHole s.regs kind target⟩

theorem borrows_hole (kind : FixupKind) (target : FixupTarget) :
    Borrows u out (pushFixup kind target >>= fun _ => pure ()) (Leaves fun _ => out) :=
  .bind (borrows_pushFixup kind target) fun _ => .pure rfl

end Actions

end Dynarec.Emit

namespace Dynarec.Lower

open Dynarec.Emit Dynarec.Host

/-! ### Operands -/

/-- What is leased for a value. -/
def Value.leases : Value → List Host.Gpr
  | .pinned _ => []
  | .leased x => [x]

theorem Value.length_leases_le (v : Value) : v.leases.length ≤ 1 := by
  cases v with
  | pinned x => exact Nat.zero_le 1
  | leased x => exact Nat.le_refl 1

section Operands

variable {u : RegisterUse} {out : Leases}

theorem borrows_constant (hout : out.gprs.length < 3) (value : Word) :
    Borrows u out (constant value) (Leaves fun v => { out with gprs := out.gprs ++ v.leases }) := by
  unfold constant
  refine .ite (fun _ => .pure ?_) fun _ => ?_
  · simp only [Value.leases, List.append_nil]
  · refine .bind (borrows_leaseGpr hout) fun x => ?_
    exact .bind (borrows_asm (encodable_loadWord x value)) fun _ => .pure rfl

theorem borrows_readGpr (hout : out.gprs.length < 3) (r : Guest.Gpr) :
    Borrows u out (readGpr r) (Leaves fun v => { out with gprs := out.gprs ++ v.leases }) := by
  unfold readGpr
  refine .ite (fun _ => .bind borrows_current fun c => borrows_constant hout c.pcValue) fun hr => ?_
  refine .bind (borrows_pinGpr (Bool.eq_false_iff.mpr hr)) fun x => .pure ?_
  simp only [Value.leases, List.append_nil]

theorem borrows_readOperand (hout : out.gprs.length < 3) (operand : Guest.Operand) :
    Borrows u out (readOperand operand)
      (Leaves fun v => { out with gprs := out.gprs ++ v.leases }) := by
  cases operand with
  | reg r => exact borrows_readGpr hout r
  | imm value => exact borrows_constant hout value

theorem borrows_writeTarget (hout : out.gprs.length < 3) (r : Guest.Gpr) :
    Borrows u out (writeTarget r) (Leaves fun v => { out with gprs := out.gprs ++ v.leases }) := by
  unfold writeTarget
  refine .ite (fun _ => .bind (borrows_leaseGpr hout) fun x => .pure rfl) fun hr => ?_
  refine .bind (borrows_pinGpr (Bool.eq_false_iff.mpr hr)) fun x => .pure ?_
  simp only [Value.leases, List.append_nil]

theorem borrows_release {v : Value} (pre post : List Host.Gpr)
    (hout : out.gprs = pre ++ (v.leases ++ post)) :
    Borrows u out v.release (Leaves fun _ => { out with gprs := pre ++ post }) := by
  cases v with
  | pinned x => exact .pure (by rw [show pre ++ post = out.gprs from hout.symm])
  | leased x => exact borrows_releaseGpr pre post hout

end Operands

/-! ### Instructions -/

section Instructions

variable {u : RegisterUse} {out : Leases}

theorem borrows_setLogicalFlags (hout : out.gprs.length < 3) (result : Host.Gpr)
    (carry : Option Bool) : Borrows u out (setLogicalFlags result carry) (Leaves fun _ => out) := by
  unfold setLogicalFlags
  refine .bind (borrows_leaseGpr hout) fun t => ?_
  refine .bind (borrows_asm (by rfl)) fun _ => ?_
  have hlast : Borrows u { out with gprs := out.gprs ++ [t] }
      (asm [.msrFlags .scratch] >>= fun _ => releaseGpr t) (Leaves fun _ => out) := by
    refine .bind (borrows_asm (by rfl)) fun _ => ?_
    have hback : Borrows u { out with gprs := out.gprs ++ [t] } (releaseGpr t) _ :=
      borrows_releaseGpr out.gprs [] rfl
    rwa [List.append_nil] at hback
  rcases carry with _ | _ | _
  all_goals exact .bind (borrows_asm (by rfl)) fun _ => hlast

theorem borrows_branchToComputed (x : Host.Gpr) :
    Borrows u out (branchToComputed x) (Leaves fun _ => out) :=
  .bind (borrows_asm (by rfl)) fun _ => borrows_hole .indirectBranch .none

theorem borrows_finish (hout : out.gprs.length < 3) (d : Host.Gpr) (logical : Bool)
    (carry : Option Bool) (computed : Bool) :
    Borrows u out (finish d logical carry computed) (Leaves fun _ => out) := by
  have hlast : Borrows u out (if computed then branchToComputed d else pure ())
      (Leaves fun _ => out) :=
    .ite (fun _ => borrows_branchToComputed d) fun _ => .pure rfl
  unfold finish
  exact .ite (fun _ => .bind (borrows_setLogicalFlags hout d carry) fun _ => hlast) fun _ => hlast

/-- Both operands are read with at most one register out, the result finds at most two, and behind
the operation only that of the result is left. -/
theorem concludes_aluCore (i : Guest.Instr) (op : Guest.AluOp) (rd rn : Guest.Gpr)
    (operand : Guest.Operand) : Concludes u {} (aluCore i op rd rn operand) := by
  unfold aluCore
  refine Borrows.bind (borrows_readGpr (by decide) rn) fun lhs => ?_
  have hl := lhs.length_leases_le
  refine Borrows.bind (borrows_readOperand ?_ operand) fun rhs => ?_
  · simp only [List.nil_append]
    omega
  have hr := rhs.length_leases_le
  refine Borrows.bind (borrows_writeTarget ?_ rd) fun dest => ?_
  · simp only [List.nil_append, List.length_append]
    omega
  have hd := dest.length_leases_le
  refine Borrows.bind (borrows_asm ?_) fun _ => ?_
  · exact encodable_cons.mpr ⟨encodable_aluInstr .., encodable_nil⟩
  refine Borrows.bind (borrows_release [] (rhs.leases ++ dest.leases) ?_) fun _ => ?_
  · simp only [List.nil_append, List.append_assoc]
  refine Borrows.bind (borrows_release [] dest.leases rfl) fun _ => ?_
  refine (borrows_finish ?_ dest.reg (i.setsFlags && op.isLogical) i.shifterCarry?
    rd.isPc).concludes
  simp only [List.nil_append]
  omega

theorem concludes_alu (i : Guest.Instr) (op : Guest.AluOp) (rd rn : Guest.Gpr)
    (operand : Guest.Operand) : Concludes u {} (Lower.alu i op rd rn operand) := by
  rw [alu_eq]
  exact .ite (fun _ => Borrows.bind borrows_markFlags fun _ => concludes_aluCore ..)
    fun _ => concludes_aluCore ..

theorem concludes_plainMove (i : Guest.Instr) (rd : Guest.Gpr) (operand : Guest.Operand)
    (negate : Bool) : Concludes u {} (plainMove i rd operand negate) := by
  unfold plainMove
  refine Borrows.bind (borrows_writeTarget (by decide) rd) fun dest => ?_
  have hd := dest.length_leases_le
  simp only [List.nil_append]
  have hout : (⟨dest.leases, []⟩ : Leases).gprs.length < 3 := Nat.lt_of_le_of_lt hd (by decide)
  have hfinish := (borrows_finish (u := u) hout dest.reg i.setsFlags i.shifterCarry?
    rd.isPc).concludes
  cases operand with
  | reg rm =>
    refine Borrows.bind (borrows_readGpr hout rm) fun source => ?_
    refine Borrows.bind (borrows_asm (encodable_moveOp ..)) fun _ => ?_
    refine Borrows.bind (borrows_release dest.leases [] ?_) fun _ => ?_
    · rw [List.append_nil]
    · rwa [List.append_nil]
  | imm value => exact Borrows.bind (borrows_asm (encodable_loadWord ..)) fun _ => hfinish

theorem concludes_selectMove {rd : Guest.Gpr} (hd : rd.isPc = false) (rm : Guest.Gpr)
    (cond : Cond) : Concludes u {} (selectMove rd rm cond) := by
  unfold selectMove
  refine Borrows.bind (borrows_readGpr (by decide) rm) fun source => ?_
  exact Borrows.bind (borrows_pinGpr hd) fun d => (borrows_asm (by rfl)).concludes

theorem concludes_move (i : Guest.Instr) {rd : Guest.Gpr} {operand : Guest.Operand} {negate : Bool}
    (hi : i.kind = .move rd operand negate) : Concludes u {} (Lower.move i rd operand negate) := by
  unfold Lower.move
  refine Borrows.bind borrows_current fun c => ?_
  cases operand with
  | imm value => exact concludes_plainMove i rd (.imm value) negate
  | reg rm =>
    refine .ite (fun _ => (borrows_hole ..).concludes) fun _ => .ite (fun ha => ?_) fun _ => ?_
    · have hd : rd.isPc = false := by
        simp only [Guest.Instr.absorbsCondition, hi, Bool.and_eq_true, Bool.not_eq_true'] at ha
        cases negate <;> simp_all
      exact concludes_selectMove hd rm c.cond
    · exact concludes_plainMove i rd (.reg rm) negate

theorem concludes_compare (i : Guest.Instr) (op : Guest.CmpOp) (rn : Guest.Gpr)
    (operand : Guest.Operand) : Concludes u {} (Lower.compare i op rn operand) := by
  unfold Lower.compare
  refine Borrows.bind (borrows_readGpr (by decide) rn) fun lhs => ?_
  have hl := lhs.length_leases_le
  refine Borrows.bind (borrows_readOperand ?_ operand) fun rhs => ?_
  · simp only [List.nil_append]
    omega
  have hr := rhs.length_leases_le
  simp only [List.nil_append]
  -- A logical compare asks for the third register, and for the flags when the operands are back.
  have hlogical : ∀ dop : Host.DataOp,
      Concludes u ⟨lhs.leases ++ rhs.leases, []⟩ (compare.logical i dop lhs rhs) := by
    intro dop
    unfold compare.logical
    refine Borrows.bind (borrows_leaseGpr ?_) fun t => ?_
    · simp only [List.length_append]
      omega
    refine Borrows.bind (borrows_asm (by rfl)) fun _ => ?_
    refine Borrows.bind (borrows_release [] (rhs.leases ++ [t]) ?_) fun _ => ?_
    · simp only [List.nil_append, List.append_assoc]
    refine Borrows.bind (borrows_release [] [t] rfl) fun _ => ?_
    exact (borrows_setLogicalFlags (Nat.le_of_ble_eq_true rfl) t i.shifterCarry?).concludes
  cases op with
  | cmp => exact (borrows_asm (by rfl)).concludes
  | cmn => exact (borrows_asm (by rfl)).concludes
  | tst => exact hlogical .and
  | teq => exact hlogical .eor

theorem concludes_vmove (dd dm : Guest.Dreg) : Concludes u {} (Lower.vmove dd dm) := by
  unfold Lower.vmove
  refine Borrows.bind (borrows_pinVreg? dm) fun source => ?_
  refine Borrows.bind (borrows_pinVreg? dd) fun dest => ?_
  have hdd : ∀ v, Encodable [.strV .d v .context (Record.dreg dd)] := fun v =>
    encodable_cons.mpr ⟨offsetFits_dreg dd, encodable_nil⟩
  cases dest with
  | some d =>
    cases source with
    | some m => exact (borrows_asm (by rfl)).concludes
    | none =>
      refine (borrows_asm ?_).concludes
      exact encodable_cons.mpr ⟨offsetFits_dreg dm, encodable_nil⟩
  | none =>
    cases source with
    | some m => exact (borrows_asm (hdd m)).concludes
    | none =>
      refine Borrows.bind (borrows_leaseVreg rfl) fun t => (borrows_asm ?_).concludes
      exact encodable_cons.mpr ⟨offsetFits_dreg dm, hdd t⟩

theorem borrows_writeLink : Borrows u out writeLink (Leaves fun _ => out) := by
  unfold writeLink
  refine .bind (borrows_pinGpr rfl) fun lr => ?_
  refine .bind borrows_read fun e => .bind borrows_current fun c => ?_
  exact borrows_asm (encodable_loadWord ..)

theorem concludes_branchLinkExchange (rm : Guest.Gpr) :
    Concludes u {} (Lower.branchLinkExchange rm) := by
  have hlast : Concludes u {} (writeLink >>= fun _ =>
      pushFixup .indirectCall .none >>= fun _ => pure ()) :=
    Borrows.bind borrows_writeLink fun _ => (borrows_hole ..).concludes
  unfold Lower.branchLinkExchange
  refine .ite (fun _ => ?_) fun hm => ?_
  · refine Borrows.bind borrows_current fun c => Borrows.bind (borrows_asm ?_) fun _ => hlast
    exact (encodable_loadWord ..).append rfl
  · refine Borrows.bind (borrows_pinGpr (Bool.eq_false_iff.mpr hm)) fun x => ?_
    exact Borrows.bind (borrows_asm (by rfl)) fun _ => hlast

theorem concludes_kind (i : Guest.Instr) : Concludes u {} (Lower.kind i) := by
  have hidle : Borrows u {} (pure () : Emit Unit) (Leaves fun _ => {}) := .pure rfl
  unfold Lower.kind
  cases hk : i.kind with
  | alu op rd rn operand => exact concludes_alu i op rd rn operand
  | move rd operand negate => exact concludes_move i hk
  | compare op rn operand => exact concludes_compare i op rn operand
  | vmove dd dm => exact concludes_vmove dd dm
  | branch t => exact Borrows.bind borrows_current fun c => (borrows_hole ..).concludes
  | branchLink t => exact Borrows.bind borrows_writeLink fun _ => (borrows_hole ..).concludes
  | branchExchange rm => exact (borrows_hole ..).concludes
  | branchLinkExchange rm => exact concludes_branchLinkExchange rm
  | tableBranch rn rm halfword => exact (borrows_hole ..).concludes
  | supervisorCall imm => exact (borrows_hole ..).concludes
  | breakpoint imm => exact (borrows_hole ..).concludes
  | undefined => exact (borrows_hole ..).concludes
  | readTimer rt rt2 => exact (borrows_hole ..).concludes
  | ifThen firstcond mask => exact hidle.concludes
  | nop => exact hidle.concludes

end Instructions

/-! ### The end of a lowering -/

section Returning

variable (e : Setting)

/-- Registers of one class are given back: `put` is the emission with a given pool of free ones. -/
theorem forM_release_run {R : Type} [DecidableEq R] {code : R → BitVec 5} {release : R → Emit Unit}
    {put : RegSet → Emission} {pool free : RegSet} {out : List R}
    (hinj : Function.Injective code) (hsurj : Function.Surjective code)
    (hrelease : ∀ x free, free.contains (code x) = false →
      release x e (put free) = .ok () (put (free.insert (code x))))
    (h : Shared code (fun x => pool.contains (code x) = true) free out) :
    List.forM out release e (put free) = .ok () (put pool) := by
  induction out generalizing free with
  | nil =>
    rw [h.eq_of_nil hsurj]
    rfl
  | cons x out ih =>
    have hfirst := hrelease x free (h.apart x List.mem_cons_self)
    have hrest := h.release hinj (k := 0) rfl
    exact (bind_run_ok hfirst).trans (ih hrest)

/-- What is out can be given back, and then the pools are whole. -/
theorem giveBack_run {s : Emission} {u : RegisterUse} {out : Leases} (h : Lent u out s) :
    giveBack out e s = .ok () (s.withRegs (s.regs.withPoolsOf u)) := by
  have hgprs := forM_release_run e gprCode_injective code_surjective
    (fun x free hx => releaseGpr_run e (s.withRegs { s.regs with freeGprs := free }) hx) h.gprs
  have hvregs := forM_release_run e vregCode_injective vcode_surjective
    (fun v free hv => releaseVreg_run e
      (s.withRegs { s.regs with freeGprs := u.freeGprs, freeVregs := free }) hv) h.vregs
  exact (bind_run_ok hgprs).trans hvregs

end Returning

section Leasing

variable {α : Type} {m : Emit α} {e : Setting} {s t : Emission} {out : Leases}

theorem giveBack_leasedSince (h : Lent s.regs out t) :
    (get >>= fun t : Emission => giveBack (t.regs.leasedSince s.regs)) e t =
      .ok () (t.withRegs (t.regs.withPoolsOf s.regs)) :=
  giveBack_run e h.leasedSince

/-- Behind an action that has only borrowed from the pools, nothing is out. -/
theorem leasing_ok {a : α} (hrun : m e s = .ok a t) (h : Lent s.regs out t) :
    leasing m e s = .ok a (t.withRegs (t.regs.withPoolsOf s.regs)) :=
  finally_run_ok hrun (giveBack_leasedSince h)

theorem leasing_error {f : Fault} (hrun : m e s = .error f t) (h : Lent s.regs out t) :
    leasing m e s = .error f (t.withRegs (t.regs.withPoolsOf s.regs)) :=
  finally_run_error hrun (giveBack_leasedSince h)

end Leasing

/-- The emission that an action leaves, whether it ends well or fails. -/
def final {α : Type} : EStateM.Result Fault Emission α → Emission
  | .ok _ t => t
  | .error _ t => t

/-- What becomes of the leases of an instruction. -/
structure LeasesReturned (i : Guest.Instr) (e : Setting) (s : Emission) : Prop where
  /-- Both pools are as before, whether it ends well or fails. -/
  pools : s.regs.SamePools (final (lower i e s)).regs
  /-- The registers that are out at the end are given back one after the other; nothing else is. -/
  returned : ∃ out, Lent s.regs out (final (Lower.kind i e s)) ∧
    giveBack out e (final (Lower.kind i e s)) = .ok () (final (lower i e s))
  ends : 3 ≤ s.regs.freeGprs.size → 1 ≤ s.regs.freeVregs.size → ∃ t, lower i e s = .ok () t
  fails : ∀ f t, lower i e s = .error f t → Wanting s.regs f

/-- From whatever state, lowering an instruction gives back all that it leased, and fails only for
want of a register: three general registers and one vector register are always enough. -/
theorem leases_returned (i : Guest.Instr) (e : Setting) (s : Emission) : LeasesReturned i e s := by
  rcases (concludes_kind i).run e s (lent_self s) with
    ⟨_, t, out, hrun, -, hout⟩ | ⟨f, t, out, hrun, hf, hout⟩
  · have hlower : lower i e s = _ := leasing_ok hrun hout
    refine ⟨?_, ⟨out, ?_, ?_⟩, fun _ _ => ⟨_, hlower⟩, fun f t' h => ?_⟩
    · rw [hlower]
      exact ⟨rfl, rfl⟩
    · rwa [hrun]
    · rw [hrun, hlower]
      exact giveBack_run e hout
    · cases hlower.symm.trans h
  · have hlower : lower i e s = _ := leasing_error hrun hout
    refine ⟨?_, ⟨out, ?_, ?_⟩, fun h3 h1 => ?_, fun f' t' h => ?_⟩
    · rw [hlower]
      exact ⟨rfl, rfl⟩
    · rwa [hrun]
    · rw [hrun, hlower]
      exact giveBack_run e hout
    · cases hf with
      | gpr h => exact absurd h3 (Nat.not_le.mpr h)
      | vreg h => exact absurd h1 (Nat.not_le.mpr h)
    · cases hlower.symm.trans h
      exact hf

-- Three are needed: both operands and the result of this addition take a register each.
example : EStateM.run' (lower ⟨0x1000, 0, "add", .alu .add .pc .pc (.imm 4), {}, .al⟩ {})
    { regs := { freeGprs := .range 0 1 }, current := { pcValue := 0x1008 } } = none := by
  decide +kernel

/-- Lowering an instruction always ends well: it extends the code by the listing, gives back all
leases, and has everything in use that the instruction names. -/
theorem lower_run {e : Setting} {s : Emission} (h : s.regs.Rested) (i : Guest.Instr) :
    ∃ u, lower i e s = .ok () ((s.withRegs u).extend (items e.config s.current i)) ∧
      s.regs.Le u ∧ u.Rested ∧ Covers u i.kind := by
  obtain ⟨u, hu, hle, hcov⟩ := kind_run (e := e) h i
  have hpools := hle.withPools s.regs.freeGprs s.regs.freeVregs
  have hmono := (RegisterUse.Le.refl u).withPools s.regs.freeGprs s.regs.freeVregs
  refine ⟨u.withPoolsOf s.regs, ?_, hpools, h, hcov.mono hmono⟩
  rcases (concludes_kind i).run e s (lent_self s) with
    ⟨_, t, out, hrun, -, hout⟩ | ⟨f, t, out, hrun, -, -⟩
  · cases hu.symm.trans hrun
    exact leasing_ok hu hout
  · cases hu.symm.trans hrun

end Dynarec.Lower
