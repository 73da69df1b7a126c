import Dynarec.Proofs.Lower.Listing

/-! # Running the lowering of one instruction

From full pools, lowering an instruction extends the code by its listing and takes into use
every register that the instruction reads or writes. -/

namespace Dynarec.Lower

open Dynarec.Emit Dynarec.Host

variable {e : Setting} {s : Emission}

/-! ### Operands -/

/-- One register use follows another, and the temporary registers from the `n`-th on are free. -/
structure Leased (n : Nat) (u v : RegisterUse) : Prop where
  le : u.Le v
  gprs : v.freeGprs = tempsFrom n
  vregs : v.freeVregs = u.freeVregs

theorem Leased.refl {n : Nat} {u : RegisterUse} (h : u.freeGprs = tempsFrom n) : Leased n u u :=
  ⟨.refl u, h, rfl⟩

theorem Leased.trans {m n : Nat} {u v w : RegisterUse} (h : Leased m u v) (h' : Leased n v w) :
    Leased n u w :=
  ⟨h.le.trans h'.le, h'.gprs, h'.vregs.trans h.vregs⟩

theorem Leased.pin {n : Nat} {u : RegisterUse} (h : u.freeGprs = tempsFrom n) (r : Guest.Gpr) :
    Leased n u (u.pin r) :=
  ⟨u.le_pin r, (u.samePools_pin r).1.trans h, (u.samePools_pin r).2⟩

theorem lease_run {n : Nat} (hn : n < 9) (h : s.regs.freeGprs = tempsFrom n) :
    ∃ u, leaseGpr e s = .ok (temp n) (s.withRegs u) ∧ Leased (n + 1) s.regs u :=
  ⟨_, leaseGpr_run e s hn h, (s.regs.le_insert _).withPools _ _, rfl, rfl⟩

theorem constant_run {n : Nat} (hn : n < 9) (h : s.regs.freeGprs = tempsFrom n) (v : Word) :
    ∃ u, Lower.constant v e s = .ok (Source.constant n v).value
        ((s.withRegs u).extend (ops (Source.constant n v).load)) ∧
      Leased (n + (Source.constant n v).temps) s.regs u := by
  unfold Lower.constant Source.constant
  by_cases hv : v = 0
  · simp only [hv, if_true, run_pure, ops_nil, Emission.extend_nil]
    exact ⟨s.regs, rfl, .refl h⟩
  · obtain ⟨u, hu, hl⟩ := lease_run (e := e) hn h
    simp only [hv, if_false, run_bind, hu, asm_run (encodable_loadWord _ _), run_pure]
    exact ⟨u, rfl, hl⟩

theorem readGpr_run {n : Nat} (hn : n < 9) (h : s.regs.freeGprs = tempsFrom n) (r : Guest.Gpr) :
    ∃ u, readGpr r e s = .ok (Source.gpr s.current.pcValue n r).value
        ((s.withRegs u).extend (ops (Source.gpr s.current.pcValue n r).load)) ∧
      Leased (n + (Source.gpr s.current.pcValue n r).temps) s.regs u ∧
      (r.isPc = false → u.Holds r) := by
  unfold readGpr Source.gpr
  cases hr : r.isPc with
  | true =>
    simp only [if_true, run_bind, current_run, Bool.true_eq_false, false_implies, and_true]
    exact constant_run hn h _
  | false =>
    simp only [Bool.false_eq_true, if_false, run_bind, pinGpr_run e s hr, run_pure, ops_nil,
      Emission.extend_nil]
    exact ⟨_, rfl, .pin h r, fun _ => s.regs.holds_pin hr⟩

/-- The guest registers of an operand. -/
def operandGprs : Guest.Operand → List Guest.Gpr
  | .reg r => [r]
  | .imm _ => []

theorem readOperand_run {n : Nat} (hn : n < 9) (h : s.regs.freeGprs = tempsFrom n)
    (o : Guest.Operand) :
    ∃ u, readOperand o e s = .ok (Source.operand s.current.pcValue n o).value
        ((s.withRegs u).extend (ops (Source.operand s.current.pcValue n o).load)) ∧
      Leased (n + (Source.operand s.current.pcValue n o).temps) s.regs u ∧
      (∀ r ∈ operandGprs o, r.isPc = false → u.Holds r) := by
  cases o with
  | reg r =>
    obtain ⟨u, hu, hl, hh⟩ := readGpr_run (e := e) hn h r
    refine ⟨u, hu, hl, fun q hq => ?_⟩
    rw [List.mem_singleton.mp hq]
    exact hh
  | imm v =>
    obtain ⟨u, hu, hl⟩ := constant_run (e := e) hn h v
    exact ⟨u, hu, hl, fun q hq => absurd hq List.not_mem_nil⟩

/-- A target as a value: leased for the program counter, else pinned. -/
def targetValue (n : Nat) (r : Guest.Gpr) : Value :=
  if r.isPc then .leased (temp n) else .pinned (pinned r)

theorem reg_targetValue (n : Nat) (r : Guest.Gpr) : (targetValue n r).reg = target n r := by
  unfold targetValue target
  split <;> rfl

theorem writeTarget_run {n : Nat} (hn : n < 9) (h : s.regs.freeGprs = tempsFrom n)
    (r : Guest.Gpr) :
    ∃ u, writeTarget r e s = .ok (targetValue n r) (s.withRegs u) ∧
      Leased (n + if r.isPc then 1 else 0) s.regs u ∧ (r.isPc = false → u.Holds r) := by
  unfold writeTarget targetValue
  cases hr : r.isPc with
  | true =>
    obtain ⟨u, hu, hl⟩ := lease_run (e := e) hn h
    simp only [if_true, run_bind, hu, run_pure, Bool.true_eq_false, false_implies, and_true]
    exact ⟨u, rfl, hl⟩
  | false =>
    simp only [Bool.false_eq_true, if_false, run_bind, pinGpr_run e s hr, run_pure]
    exact ⟨_, rfl, .pin h r, fun _ => s.regs.holds_pin hr⟩

/-! ### Giving back -/

/-- The pool after a value was given back. -/
def Value.returned (v : Value) (pool : RegSet) : RegSet :=
  match v with
  | .pinned _ => pool
  | .leased x => pool.insert x.code

/-- A value that may be given back: what is leased is not free. -/
def Value.Returnable (v : Value) (pool : RegSet) : Prop :=
  match v with
  | .pinned _ => True
  | .leased x => pool.contains x.code = false

theorem release_run {v : Value} (h : v.Returnable s.regs.freeGprs) :
    v.release e s =
      .ok () (s.withRegs { s.regs with freeGprs := v.returned s.regs.freeGprs }) := by
  cases v with
  | pinned x => rfl
  | leased x =>
    simp only [Value.Returnable] at h
    simp only [Value.release, releaseGpr, run_bind, run_get, RegisterUse.releaseGpr?, h,
      Bool.false_eq_true, if_false, run_modify]
    rfl

/-! ### Flags of logical results -/

theorem setLogicalFlags_run {c : BitVec 5} (h : s.regs.freeGprs.lowest? = some c)
    (result : Host.Gpr) (carry : Option Bool) :
    ∃ u, setLogicalFlags result carry e s =
        .ok () ((s.withRegs u).extend (ops (flagOps result ⟨c⟩ carry))) ∧ s.regs.Le u := by
  have hlease : leaseGpr e s = .ok ⟨c⟩ (s.withRegs { s.regs with
      freeGprs := s.regs.freeGprs.erase c
      usedGprs := s.regs.usedGprs.insert c }) := by
    simp only [leaseGpr, run_bind, run_get, RegisterUse.leaseGpr?, h, Option.map_some, run_modify,
      run_pure]
    rfl
  have hfree : (s.regs.freeGprs.erase c).contains c = false := by
    simp only [RegSet.contains_erase, decide_true, Bool.not_true, Bool.and_false]
  have hrelease : ∀ t : Emission, t.regs.freeGprs = s.regs.freeGprs.erase c →
      releaseGpr ⟨c⟩ e t =
        .ok () (t.withRegs { t.regs with freeGprs := t.regs.freeGprs.insert c }) := by
    intro t ht
    simp only [releaseGpr, run_bind, run_get, RegisterUse.releaseGpr?, ht, hfree,
      Bool.false_eq_true, if_false, run_modify]
    rfl
  refine ⟨{ s.regs with
      freeGprs := (s.regs.freeGprs.erase c).insert c
      usedGprs := s.regs.usedGprs.insert c }, ?_, (s.regs.le_insert c).withPools _ _⟩
  rcases carry with _ | _ | _
  all_goals
    refine (bind_run_ok hlease).trans ?_
    refine (bind_run_ok (asm_run (by rfl) e _)).trans ?_
    refine (bind_run_ok (asm_run (by rfl) e _)).trans ?_
    refine (bind_run_ok (asm_run (by rfl) e _)).trans ?_
    refine (hrelease _ rfl).trans ?_
    simp only [Emission.extend_extend]
    rfl

/-! ### Computations -/

/-- An operand is pinned, or leased in the given temporary register. -/
def Source.InTemp (n : Nat) (x : Source) : Prop :=
  (∃ r, x.value = .pinned r) ∨ x.value = .leased (temp n)

theorem Source.inTemp_constant (n : Nat) (v : Word) : (Source.constant n v).InTemp n := by
  unfold Source.constant
  split
  · exact .inl ⟨_, rfl⟩
  · exact .inr rfl

theorem Source.inTemp_gpr (pcValue : Word) (n : Nat) (r : Guest.Gpr) :
    (Source.gpr pcValue n r).InTemp n := by
  unfold Source.gpr
  split
  · exact Source.inTemp_constant n pcValue
  · exact .inl ⟨_, rfl⟩

theorem Source.inTemp_operand (pcValue : Word) (n : Nat) (o : Guest.Operand) :
    (Source.operand pcValue n o).InTemp n := by
  cases o with
  | reg r => exact Source.inTemp_gpr pcValue n r
  | imm v => exact Source.inTemp_constant n v

theorem pinned_ne_temp {r : Guest.Gpr} {n : Nat} (hr : r.isPc = false) (hn : n < 9) :
    pinned r ≠ temp n := by
  obtain ⟨c⟩ := r
  revert c n
  decide

/-- With two operands given back, the lowest free register is the one that the flags take, and
both could be given back. -/
theorem flagTemp_free {a b : Source} (ha : a.InTemp 0) (hb : b.InTemp a.temps) (rd : Guest.Gpr) :
    let pool := tempsFrom (a.temps + b.temps + if rd.isPc then 1 else 0)
    a.value.Returnable pool ∧ b.value.Returnable (a.value.returned pool) ∧
      (b.value.returned (a.value.returned pool)).lowest? =
        some (flagTemp (target (a.temps + b.temps) rd)).code := by
  dsimp only
  cases hr : rd.isPc with
  | false =>
    have hd : flagTemp (pinned rd) = temp 0 := by
      unfold flagTemp
      rw [if_neg (pinned_ne_temp hr (by omega))]
    obtain ⟨x, hx⟩ | hx := ha <;> obtain ⟨y, hy⟩ | hy := hb
    all_goals
      simp only [Source.temps, hx] at hy ⊢
      simp only [hy, Value.Returnable, Value.returned, target, hr, Bool.false_eq_true, if_false, hd]
      decide
  | true =>
    obtain ⟨x, hx⟩ | hx := ha <;> obtain ⟨y, hy⟩ | hy := hb
    all_goals
      simp only [Source.temps, hx] at hy ⊢
      simp only [hy, Value.Returnable, Value.returned, target, hr, if_true]
      decide

/-- The part of an arithmetic or logical instruction behind the mark for the carry. -/
def aluCore (i : Guest.Instr) (op : Guest.AluOp) (rd rn : Guest.Gpr) (operand : Guest.Operand) :
    Emit Unit := do
  let lhs ← readGpr rn
  let rhs ← readOperand operand
  let dest ← writeTarget rd
  asm [aluInstr op i.setsFlags dest.reg lhs.reg rhs.reg]
  lhs.release
  rhs.release
  if i.setsFlags && op.isLogical then setLogicalFlags dest.reg i.shifterCarry?
  if rd.isPc then branchToComputed dest.reg

theorem alu_eq (i : Guest.Instr) (op : Guest.AluOp) (rd rn : Guest.Gpr)
    (operand : Guest.Operand) :
    Lower.alu i op rd rn operand = if op.readsCarry then markFlags >>= fun _ =>
      aluCore i op rd rn operand else aluCore i op rd rn operand := rfl

theorem branchToComputed_run (x : Host.Gpr) :
    branchToComputed x e s = .ok () (s.extend (computedItems x s.current)) := by
  simp only [branchToComputed, run_bind, writeDispatchRegister_run, pushFixup_run, run_pure]
  exact congrArg (EStateM.Result.ok ()) (Emission.extend_extend s _ _)

theorem encodable_aluInstr (op : Guest.AluOp) (f : Bool) (d a b : Host.Gpr) :
    (aluInstr op f d a b).isEncodable = true := by
  cases op <;> rfl

theorem Source.temps_le (x : Source) : x.temps ≤ 1 := by
  unfold Source.temps
  split <;> omega

/-- The two operands of an instruction, read one after the other. -/
theorem readTwo_run (h : s.regs.Rested) (rn : Guest.Gpr) (operand : Guest.Operand) :
    let a := Source.gpr s.current.pcValue 0 rn
    let b := Source.operand s.current.pcValue a.temps operand
    ∃ u, (∀ k : Value → Value → Emit Unit,
        (readGpr rn >>= fun lhs => readOperand operand >>= fun rhs => k lhs rhs) e s =
          k a.value b.value e ((s.withRegs u).extend (ops (a.load ++ b.load)))) ∧
      Leased (a.temps + b.temps) s.regs u ∧
      ∀ r ∈ rn :: operandGprs operand, r.isPc = false → u.Holds r := by
  intro a b
  have hta : a.temps ≤ 1 := a.temps_le
  obtain ⟨u₁, h₁, l₁, r₁⟩ := readGpr_run (e := e) (n := 0) (by omega) h.1 rn
  rw [Nat.zero_add] at l₁
  obtain ⟨u₂, h₂, l₂, r₂⟩ := readOperand_run (e := e) (s := (s.withRegs u₁).extend (ops a.load))
    (n := a.temps) (by omega) l₁.gprs operand
  refine ⟨u₂, fun k => ?_, l₁.trans l₂, fun r hr hpc => ?_⟩
  · refine (bind_run_ok h₁).trans ((bind_run_ok h₂).trans ?_)
    rw [Emission.withRegs_extend, Emission.withRegs_withRegs, Emission.extend_extend, ops_append]
    rfl
  · rcases List.mem_cons.mp hr with rfl | hr
    · exact l₂.le.holds (r₁ hpc)
    · exact r₂ r hr hpc

/-- What comes behind a computed result: its flags, and the branch to it. -/
def finish (d : Host.Gpr) (logical : Bool) (carry : Option Bool) (computed : Bool) : Emit Unit := do
  if logical then setLogicalFlags d carry
  if computed then branchToComputed d

theorem finish_run {d : Host.Gpr} (h : s.regs.freeGprs.lowest? = some (flagTemp d).code)
    (logical : Bool) (carry : Option Bool) (computed : Bool) :
    ∃ u, finish d logical carry computed e s =
        .ok () ((s.withRegs u).extend (finishItems s.current d logical carry computed)) ∧
      s.regs.Le u := by
  have hlast : ∀ t : Emission, (if computed then branchToComputed d else pure ()) e t =
      .ok () (t.extend (if computed then computedItems d t.current else [])) := by
    intro t
    cases computed with
    | true => exact branchToComputed_run d
    | false => exact (congrArg (EStateM.Result.ok ()) (Emission.extend_nil t)).symm
  unfold finishItems
  cases logical with
  | true =>
    obtain ⟨u, hu, hle⟩ := setLogicalFlags_run (e := e) h d carry
    refine ⟨u, (bind_run_ok hu).trans ((hlast _).trans ?_), hle⟩
    rw [Emission.extend_extend]
    rfl
  | false => exact ⟨s.regs, hlast s, .refl _⟩

theorem aluCore_run (h : s.regs.Rested) (i : Guest.Instr) (op : Guest.AluOp)
    (rd rn : Guest.Gpr) (operand : Guest.Operand) :
    ∃ u, aluCore i op rd rn operand e s =
        .ok () ((s.withRegs u).extend (aluItems s.current i op rd rn operand)) ∧
      s.regs.Le u ∧ ∀ r ∈ rd :: rn :: operandGprs operand, r.isPc = false → u.Holds r := by
  obtain ⟨u₁, h₁, l₁, r₁⟩ := readTwo_run (e := e) h rn operand
  have ha := Source.inTemp_gpr s.current.pcValue 0 rn
  have hb := Source.inTemp_operand s.current.pcValue
    (Source.gpr s.current.pcValue 0 rn).temps operand
  unfold aluItems aluCore
  dsimp only
  rw [h₁]
  revert l₁ ha hb
  generalize Source.gpr s.current.pcValue 0 rn = a
  generalize Source.operand s.current.pcValue a.temps operand = b
  intro l₁ ha hb
  obtain ⟨hra, hrb, hlow⟩ := flagTemp_free ha hb rd
  have hta := a.temps_le
  have htb := b.temps_le
  obtain ⟨u₂, h₂, l₂, r₂⟩ := writeTarget_run (e := e)
    (s := (s.withRegs u₁).extend (ops (a.load ++ b.load))) (by omega) l₁.gprs rd
  rw [← l₂.gprs] at hra hrb hlow
  rw [Emission.withRegs_extend, Emission.withRegs_withRegs] at h₂
  -- Behind the operation both operands are given back, which frees the register of the flags.
  obtain ⟨u₃, h₃, l₃⟩ := finish_run (e := e) (d := target (a.temps + b.temps) rd)
    (s := (s.withRegs { u₂ with
        freeGprs := b.value.returned (a.value.returned u₂.freeGprs) }).extend
      (ops (a.load ++ b.load ++
        [aluInstr op i.setsFlags (target (a.temps + b.temps) rd) a.reg b.reg])))
    hlow (i.setsFlags && op.isLogical) i.shifterCarry? rd.isPc
  have hle : s.regs.Le u₂ := l₁.le.trans l₂.le
  have hle₃ : u₂.Le u₃ := ((RegisterUse.Le.refl u₂).withPools _ _).trans l₃
  refine ⟨u₃, ?_, hle.trans hle₃, fun r hr hpc => ?_⟩
  · refine (bind_run_ok h₂).trans ?_
    rw [reg_targetValue]
    refine (bind_run_ok (asm_run (encodable_cons.mpr ⟨encodable_aluInstr .., encodable_nil⟩)
      e _)).trans ?_
    refine (bind_run_ok (release_run hra)).trans ?_
    refine (bind_run_ok (release_run hrb)).trans ?_
    rw [Emission.extend_extend, ← ops_append]
    refine h₃.trans ?_
    rw [Emission.withRegs_extend, Emission.withRegs_withRegs, Emission.extend_extend]
    rfl
  · rcases List.mem_cons.mp hr with rfl | hr
    · exact hle₃.holds (r₂ hpc)
    · exact hle₃.holds (l₂.le.holds (r₁ r hr hpc))

theorem alu_run (h : s.regs.Rested) (i : Guest.Instr) (op : Guest.AluOp) (rd rn : Guest.Gpr)
    (operand : Guest.Operand) :
    ∃ u, Lower.alu i op rd rn operand e s =
        .ok () ((s.withRegs u).extend (aluItems s.current i op rd rn operand)) ∧
      s.regs.Le u ∧ (∀ r ∈ rd :: rn :: operandGprs operand, r.isPc = false → u.Holds r) ∧
      (op.readsCarry = true → u.usesFlags = true) := by
  rw [alu_eq]
  cases hc : op.readsCarry with
  | false =>
    obtain ⟨u, hu, hle, hh⟩ := aluCore_run (e := e) h i op rd rn operand
    exact ⟨u, hu, hle, hh, nofun⟩
  | true =>
    obtain ⟨u, hu, hle, hh⟩ := aluCore_run (e := e) (s := s.withRegs s.regs.markFlags)
      h i op rd rn operand
    exact ⟨u, (bind_run_ok (markFlags_run e s)).trans hu, s.regs.le_markFlags.trans hle, hh,
      fun _ => hle.flags rfl⟩

/-! ### Moves -/

/-- An operand in the first temporary register that was free can be given back. -/
theorem returned_tempsFrom {n : Nat} {x : Source} (hx : x.InTemp n) (hn : n < 2) :
    x.value.Returnable (tempsFrom (n + x.temps)) ∧
      x.value.returned (tempsFrom (n + x.temps)) = tempsFrom n := by
  obtain ⟨r, hr⟩ | hr := hx
  · simp only [Source.temps, hr, Value.Returnable, Value.returned, Nat.add_zero, and_self]
  · simp only [Source.temps, hr, Value.Returnable, Value.returned]
    clear hr
    revert n
    decide

theorem lowest?_target (rd : Guest.Gpr) :
    (tempsFrom (if rd.isPc then 1 else 0)).lowest? = some (flagTemp (target 0 rd)).code := by
  unfold flagTemp target
  cases hr : rd.isPc with
  | true =>
    simp only [if_true]
    decide
  | false =>
    simp only [Bool.false_eq_true, if_false, pinned_ne_temp hr (n := 0) (by omega)]
    decide

theorem encodable_moveOp (negate : Bool) (d a : Host.Gpr) :
    Encodable [if negate then .mvn d a else .mov .w d a] := by
  cases negate <;> rfl

theorem plainMove_run (h : s.regs.Rested) (i : Guest.Instr) (rd : Guest.Gpr)
    (operand : Guest.Operand) (negate : Bool) :
    ∃ u, plainMove i rd operand negate e s =
        .ok () ((s.withRegs u).extend (plainMoveItems s.current i rd operand negate)) ∧
      s.regs.Le u ∧ ∀ r ∈ rd :: operandGprs operand, r.isPc = false → u.Holds r := by
  obtain ⟨u₁, h₁, l₁, r₁⟩ := writeTarget_run (e := e) (n := 0) (by omega) h.1 rd
  rw [Nat.zero_add] at l₁
  have hn : (if rd.isPc then 1 else 0) < 2 := by split <;> omega
  have hlow := lowest?_target rd
  unfold plainMoveItems
  generalize (if rd.isPc then 1 else 0) = n at *
  -- The result stands in its register, and nothing but that register is leased.
  have hfinish : ∀ (u : RegisterUse) (is : List Host.Instr), u.freeGprs = tempsFrom n →
      ∃ v, finish (target 0 rd) i.setsFlags i.shifterCarry? rd.isPc e
          ((s.withRegs u).extend (ops is)) =
        .ok () ((s.withRegs v).extend
          (ops is ++ finishItems s.current (target 0 rd) i.setsFlags i.shifterCarry? rd.isPc)) ∧
        u.Le v := by
    intro u is hu
    obtain ⟨v, hv, lv⟩ := finish_run (e := e) (d := target 0 rd)
      (s := (s.withRegs u).extend (ops is)) (by rw [← hlow, ← hu]; rfl) i.setsFlags
      i.shifterCarry? rd.isPc
    refine ⟨v, hv.trans ?_, lv⟩
    rw [Emission.withRegs_extend, Emission.withRegs_withRegs, Emission.extend_extend]
    rfl
  cases operand with
  | reg rm =>
    obtain ⟨u₂, h₂, l₂, r₂⟩ := readGpr_run (e := e) (s := s.withRegs u₁) (n := n) (by omega)
      l₁.gprs rm
    have hin := Source.inTemp_gpr s.current.pcValue n rm
    simp only [Emission.current_withRegs, Emission.withRegs_withRegs] at h₂ l₂
    unfold moveOps
    dsimp only
    generalize Source.gpr s.current.pcValue n rm = a at *
    obtain ⟨hret, hpool⟩ := returned_tempsFrom hin hn
    rw [← l₂.gprs] at hret hpool
    obtain ⟨u₃, h₃, l₃⟩ := hfinish { u₂ with freeGprs := a.value.returned u₂.freeGprs }
      (a.load ++ [if negate then .mvn (target 0 rd) a.reg else .mov .w (target 0 rd) a.reg]) hpool
    have hle₃ : u₂.Le u₃ := ((RegisterUse.Le.refl u₂).withPools _ _).trans l₃
    refine ⟨u₃, ?_, l₁.le.trans (l₂.le.trans hle₃), fun r hr hpc => ?_⟩
    · refine (bind_run_ok h₁).trans ((bind_run_ok h₂).trans ?_)
      rw [reg_targetValue]
      refine (bind_run_ok (asm_run (encodable_moveOp ..) e _)).trans ?_
      refine (bind_run_ok (release_run hret)).trans ?_
      rw [Emission.extend_extend, ← ops_append]
      exact h₃
    · rcases List.mem_cons.mp hr with rfl | hr
      · exact hle₃.holds (l₂.le.holds (r₁ hpc))
      · rw [List.mem_singleton.mp hr] at hpc ⊢
        exact hle₃.holds (r₂ hpc)
  | imm v =>
    obtain ⟨u₃, h₃, l₃⟩ := hfinish u₁ (loadWord (target 0 rd) (if negate then ~~~v else v)) l₁.gprs
    refine ⟨u₃, ?_, l₁.le.trans l₃, fun r hr hpc => ?_⟩
    · refine (bind_run_ok h₁).trans ?_
      rw [reg_targetValue]
      exact (bind_run_ok (asm_run (encodable_loadWord ..) e _)).trans h₃
    · rw [List.mem_singleton.mp hr] at hpc ⊢
      exact l₃.holds (r₁ hpc)

theorem selectMove_run {rd rm : Guest.Gpr} (hd : rd.isPc = false) (hm : rm.isPc = false)
    (cond : Cond) :
    selectMove rd rm cond e s = .ok () ((s.withRegs ((s.regs.pin rm).pin rd)).extend
      (ops [.csel (pinned rd) (pinned rm) (pinned rd) cond])) := by
  unfold selectMove readGpr
  simp only [hm, Bool.false_eq_true, if_false, run_bind, pinGpr_run _ _ hm, pinGpr_run _ _ hd,
    run_pure]
  exact asm_run (show Encodable [.csel (pinned rd) (pinned rm) (pinned rd) cond] from rfl) e _

theorem move_run (h : s.regs.Rested) (i : Guest.Instr) {rd : Guest.Gpr} {operand : Guest.Operand}
    {negate : Bool} (hi : i.kind = .move rd operand negate) :
    ∃ u, Lower.move i rd operand negate e s =
        .ok () ((s.withRegs u).extend (moveItems s.current i rd operand negate)) ∧
      s.regs.Le u ∧ ∀ r ∈ rd :: operandGprs operand, r.isPc = false → u.Holds r := by
  have hplain := plainMove_run (e := e) h i rd operand negate
  cases operand with
  | imm v => exact hplain
  | reg rm =>
    unfold Lower.move moveItems
    simp only [run_bind, current_run]
    by_cases hb : (rd.isPc && !negate && !i.setsFlags) = true
    · have hpc : rd.isPc = true := by
        simp only [Bool.and_eq_true] at hb
        exact hb.1.1
      simp only [hb, if_true, run_bind, pushFixup_run, run_pure]
      refine ⟨_, rfl, s.regs.le_afterHole _ _, fun r hr hr' => ?_⟩
      rcases List.mem_cons.mp hr with rfl | hr
      · rw [hpc] at hr'
        exact absurd hr' (by decide)
      · exact s.regs.holds_afterHole _ _ hr hr'
    · by_cases ha : (i.absorbsCondition && !s.current.cond.isAlways) = true
      · have habs : negate = false ∧ rd.isPc = false ∧ rm.isPc = false := by
          simp only [Guest.Instr.absorbsCondition, hi, Bool.and_eq_true, Bool.not_eq_true'] at ha
          cases negate <;> simp_all
        obtain ⟨-, hd, hm⟩ := habs
        simp only [hb, ha, if_true]
        refine ⟨_, selectMove_run hd hm _, (s.regs.le_pin rm).trans (RegisterUse.le_pin _ rd),
          fun r hr hpc => ?_⟩
        rcases List.mem_cons.mp hr with rfl | hr
        · exact RegisterUse.holds_pin _ hpc
        · rw [List.mem_singleton.mp hr] at hpc ⊢
          exact (RegisterUse.le_pin _ rd).holds (RegisterUse.holds_pin _ hpc)
      · simp only [hb, ha]
        exact hplain

/-! ### Compares and double moves -/

theorem compare_run (h : s.regs.Rested) (i : Guest.Instr) (op : Guest.CmpOp) (rn : Guest.Gpr)
    (operand : Guest.Operand) :
    ∃ u, Lower.compare i op rn operand e s =
        .ok () ((s.withRegs u).extend (compareItems s.current i op rn operand)) ∧
      s.regs.Le u ∧ ∀ r ∈ rn :: operandGprs operand, r.isPc = false → u.Holds r := by
  obtain ⟨u₁, h₁, l₁, r₁⟩ := readTwo_run (e := e) h rn operand
  have ha := Source.inTemp_gpr s.current.pcValue 0 rn
  have hb := Source.inTemp_operand s.current.pcValue
    (Source.gpr s.current.pcValue 0 rn).temps operand
  unfold compareItems Lower.compare
  dsimp only
  rw [h₁]
  revert l₁ ha hb
  generalize Source.gpr s.current.pcValue 0 rn = a
  generalize Source.operand s.current.pcValue a.temps operand = b
  intro l₁ ha hb
  have hta := a.temps_le
  have htb := b.temps_le
  obtain ⟨hra, hrb, hlow⟩ := flagTemp_free ha hb .pc
  rw [show target (a.temps + b.temps) .pc = temp (a.temps + b.temps) from rfl] at hlow
  generalize ht : temp (a.temps + b.temps) = t at hlow ⊢
  -- A logical compare computes into a leased register, like an instruction that writes the
  -- program counter.
  have hlogical : ∀ dop : Host.DataOp, ∃ u,
      compare.logical i dop a.value b.value e ((s.withRegs u₁).extend (ops (a.load ++ b.load))) =
        .ok () ((s.withRegs u).extend (ops (a.load ++ b.load ++
          .data dop .w t a.reg b.reg :: flagOps t (flagTemp t) i.shifterCarry?))) ∧ u₁.Le u := by
    intro dop
    obtain ⟨u₂, h₂, l₂⟩ := lease_run (e := e)
      (s := (s.withRegs u₁).extend (ops (a.load ++ b.load))) (by omega) l₁.gprs
    rw [ht, Emission.withRegs_extend, Emission.withRegs_withRegs] at h₂
    have hg : tempsFrom (a.temps + b.temps + if Guest.Gpr.pc.isPc then 1 else 0) = u₂.freeGprs :=
      l₂.gprs.symm
    rw [hg] at hra hrb hlow
    obtain ⟨u₃, h₃, l₃⟩ := setLogicalFlags_run (e := e)
      (s := (s.withRegs { u₂ with
          freeGprs := b.value.returned (a.value.returned u₂.freeGprs) }).extend
        (ops (a.load ++ b.load ++ [.data dop .w t a.reg b.reg]))) hlow t i.shifterCarry?
    refine ⟨u₃, ?_, l₂.le.trans (((RegisterUse.Le.refl u₂).withPools _ _).trans l₃)⟩
    refine (bind_run_ok h₂).trans ?_
    refine (bind_run_ok (asm_run (encodable_cons.mpr ⟨rfl, encodable_nil⟩) e _)).trans ?_
    refine (bind_run_ok (release_run hra)).trans ?_
    refine (bind_run_ok (release_run hrb)).trans ?_
    rw [Emission.extend_extend, ← ops_append]
    refine h₃.trans ?_
    rw [Emission.withRegs_extend, Emission.withRegs_withRegs, Emission.extend_extend, ← ops_append,
      List.append_assoc, List.singleton_append]
  have hflat : ∀ dop : Host.DataOp,
      asm [.data dop .w .zr a.value.reg b.value.reg] e
          ((s.withRegs u₁).extend (ops (a.load ++ b.load))) =
        .ok () ((s.withRegs u₁).extend
          (ops (a.load ++ b.load ++ [.data dop .w .zr a.reg b.reg]))) := by
    intro dop
    rw [asm_run (encodable_cons.mpr ⟨rfl, encodable_nil⟩), Emission.extend_extend, ← ops_append]
    rfl
  cases op with
  | cmp => exact ⟨u₁, hflat _, l₁.le, r₁⟩
  | cmn => exact ⟨u₁, hflat _, l₁.le, r₁⟩
  | tst =>
    obtain ⟨u, hu, hle⟩ := hlogical .and
    exact ⟨u, hu, l₁.le.trans hle, fun r hr hpc => hle.holds (r₁ r hr hpc)⟩
  | teq =>
    obtain ⟨u, hu, hle⟩ := hlogical .eor
    exact ⟨u, hu, l₁.le.trans hle, fun r hr hpc => hle.holds (r₁ r hr hpc)⟩

theorem vmove_run (h : s.regs.Rested) (dd dm : Guest.Dreg) :
    ∃ u, Lower.vmove dd dm e s = .ok () ((s.withRegs u).extend (vmoveItems dd dm)) ∧
      s.regs.Le u ∧ u.HoldsD dd ∧ u.HoldsD dm := by
  have hle : s.regs.Le ((s.regs.pinD dm).pinD dd) :=
    (s.regs.le_pinD dm).trans (RegisterUse.le_pinD _ dd)
  have hpool : ((s.regs.pinD dm).pinD dd).freeVregs = tempVregs :=
    ((RegisterUse.samePools_pinD _ dd).2.trans (RegisterUse.samePools_pinD _ dm).2).trans h.2
  have hdd := RegisterUse.holdsD_pinD (s.regs.pinD dm) dd
  have hdm := (RegisterUse.le_pinD _ dd).holdsD (RegisterUse.holdsD_pinD s.regs dm)
  unfold Lower.vmove vmoveItems
  simp only [run_bind, pinVreg?_run, Emission.withRegs_withRegs, Emission.regs_withRegs]
  generalize (s.regs.pinD dm).pinD dd = u at *
  cases pinnedVreg? dd with
  | some d =>
    cases pinnedVreg? dm with
    | some m => exact ⟨u, asm_run (by rfl) e _, hle, hdd, hdm⟩
    | none =>
      refine ⟨u, asm_run (encodable_cons.mpr ⟨?_, encodable_nil⟩) e _, hle, hdd, hdm⟩
      exact offsetFits_dreg dm
  | none =>
    cases pinnedVreg? dm with
    | some m =>
      refine ⟨u, asm_run (encodable_cons.mpr ⟨?_, encodable_nil⟩) e _, hle, hdd, hdm⟩
      exact offsetFits_dreg dd
    | none =>
      have hv := u.le_insertV 0
      refine ⟨_, (bind_run_ok (leaseVreg_run e _ hpool)).trans (asm_run ?_ e _),
        hle.trans (hv.withPools _ _), hv.holdsD hdd, hv.holdsD hdm⟩
      exact encodable_cons.mpr ⟨offsetFits_dreg dm,
        encodable_cons.mpr ⟨offsetFits_dreg dd, encodable_nil⟩⟩

/-! ### Transfers -/

theorem writeLink_run :
    ∃ u, writeLink e s = .ok () ((s.withRegs u).extend (ops (linkOps e.config s.current))) ∧
      s.regs.Le u ∧ u.Holds .lr := by
  refine ⟨s.regs.pin .lr, ?_, s.regs.le_pin .lr, s.regs.holds_pin rfl⟩
  unfold writeLink linkOps
  simp only [run_bind, pinGpr_run e s (r := .lr) rfl, run_read, current_run,
    asm_run (encodable_loadWord _ _), Emission.current_withRegs]

/-- A placeholder behind finished instructions. -/
theorem pushFixup_after (u : RegisterUse) (is : List Host.Instr) (kind : FixupKind)
    (target : FixupTarget) :
    (pushFixup kind target >>= fun _ => pure ()) e ((s.withRegs u).extend (ops is)) =
      .ok () ((s.withRegs (u.afterHole kind target)).extend
        (ops is ++ [.hole kind target s.current])) := by
  rw [bind_run_ok (pushFixup_run kind target), Emission.withRegs_extend, Emission.extend_extend]
  rfl

theorem branchLink_run (t : Word) :
    ∃ u, Lower.branchLink t e s = .ok () ((s.withRegs u).extend
        (ops (linkOps e.config s.current) ++ [.hole .call (.address t) s.current])) ∧
      s.regs.Le u ∧ u.Holds .lr := by
  obtain ⟨u, hu, hle, hlr⟩ := writeLink_run (e := e) (s := s)
  exact ⟨u, (bind_run_ok hu).trans (pushFixup_after u _ _ _), hle, hlr⟩

theorem branchLinkExchange_run (rm : Guest.Gpr) :
    ∃ u, Lower.branchLinkExchange rm e s = .ok () ((s.withRegs u).extend
        (ops ((if rm.isPc then addressOps s.current.pcValue
          else [.str .w (pinned rm) .context Record.dispatchAddress]) ++
            linkOps e.config s.current) ++ [.hole .indirectCall .none s.current])) ∧
      s.regs.Le u ∧ (rm.isPc = false → u.Holds rm) ∧ u.Holds .lr := by
  unfold Lower.branchLinkExchange
  cases hm : rm.isPc with
  | true =>
    obtain ⟨u, hu, hle, hlr⟩ := writeLink_run (e := e)
      (s := s.extend (ops (addressOps s.current.pcValue)))
    rw [Emission.withRegs_extend, Emission.extend_extend, ← ops_append] at hu
    refine ⟨u, ?_, hle, nofun, hlr⟩
    simp only [if_true]
    refine (bind_run_ok (current_run e s)).trans ?_
    refine (bind_run_ok (writeDispatchAddress_run s.current.pcValue)).trans ?_
    exact (bind_run_ok hu).trans (pushFixup_after u _ _ _)
  | false =>
    obtain ⟨u, hu, hle, hlr⟩ := writeLink_run (e := e)
      (s := (s.withRegs (s.regs.pin rm)).extend
        (ops [.str .w (pinned rm) .context Record.dispatchAddress]))
    rw [Emission.withRegs_extend, Emission.extend_extend, ← ops_append] at hu
    refine ⟨u, ?_, (s.regs.le_pin rm).trans hle, fun _ => hle.holds (s.regs.holds_pin hm), hlr⟩
    simp only [Bool.false_eq_true, if_false]
    refine (bind_run_ok (pinGpr_run e s hm)).trans ?_
    refine (bind_run_ok (writeDispatchRegister_run _)).trans ?_
    exact (bind_run_ok hu).trans (pushFixup_after u _ _ _)

/-! ### One instruction -/

/-- The guest registers that an instruction of the given kind names. -/
def kindGprs : Guest.Kind → List Guest.Gpr
  | .alu _ rd rn operand => rd :: rn :: operandGprs operand
  | .move rd operand _ => rd :: operandGprs operand
  | .compare _ rn operand => rn :: operandGprs operand
  | .branchLink _ => [.lr]
  | .branchExchange rm => [rm]
  | .branchLinkExchange rm => [rm, .lr]
  | .tableBranch rn rm _ => [rn, rm]
  | .readTimer rt rt2 => [rt, rt2]
  | _ => []

/-- The guest double registers that an instruction of the given kind names. -/
def kindDregs : Guest.Kind → List Guest.Dreg
  | .vmove dd dm => [dd, dm]
  | _ => []

/-- Whether an instruction of the given kind reads the carry as an operand. -/
def kindReadsCarry : Guest.Kind → Bool
  | .alu op _ _ _ => op.readsCarry
  | _ => false

/-- Everything that an instruction of the given kind reads or writes is in use. -/
structure Covers (u : RegisterUse) (k : Guest.Kind) : Prop where
  gprs : ∀ r ∈ kindGprs k, r.isPc = false → u.Holds r
  dregs : ∀ d ∈ kindDregs k, u.HoldsD d
  carry : kindReadsCarry k = true → u.usesFlags = true

theorem Covers.mono {u v : RegisterUse} {k : Guest.Kind} (h : Covers u k) (hle : u.Le v) :
    Covers v k :=
  ⟨fun r hr hpc => hle.holds (h.gprs r hr hpc), fun d hd => hle.holdsD (h.dregs d hd),
    fun hc => hle.flags (h.carry hc)⟩

/-- An instruction that becomes a placeholder alone. -/
theorem hole_run (kind : FixupKind) (target : FixupTarget) {k : Guest.Kind}
    (hg : ∀ r ∈ kindGprs k, r ∈ target.regs) (hd : kindDregs k = [])
    (hc : kindReadsCarry k = false) :
    ∃ u, (pushFixup kind target >>= fun _ => pure ()) e s =
        .ok () ((s.withRegs u).extend [.hole kind target s.current]) ∧
      s.regs.Le u ∧ Covers u k := by
  refine ⟨_, pushFixup_after s.regs [] kind target, s.regs.le_afterHole kind target, ?_⟩
  refine ⟨fun r hr hpc => s.regs.holds_afterHole kind target (hg r hr) hpc, fun d hd' => ?_, ?_⟩
  · rw [hd] at hd'
    exact absurd hd' List.not_mem_nil
  · rw [hc]
    exact nofun

theorem kind_run (h : s.regs.Rested) (i : Guest.Instr) :
    ∃ u, Lower.kind i e s = .ok () ((s.withRegs u).extend (items e.config s.current i)) ∧
      s.regs.Le u ∧ Covers u i.kind := by
  unfold Lower.kind items
  cases hk : i.kind with
  | alu op rd rn operand =>
    obtain ⟨u, hu, hle, hg, hc⟩ := alu_run (e := e) h i op rd rn operand
    exact ⟨u, hu, hle, hg, fun d hd => absurd hd List.not_mem_nil, hc⟩
  | move rd operand negate =>
    obtain ⟨u, hu, hle, hg⟩ := move_run (e := e) h i hk
    exact ⟨u, hu, hle, hg, fun d hd => absurd hd List.not_mem_nil, nofun⟩
  | compare op rn operand =>
    obtain ⟨u, hu, hle, hg⟩ := compare_run (e := e) h i op rn operand
    exact ⟨u, hu, hle, hg, fun d hd => absurd hd List.not_mem_nil, nofun⟩
  | vmove dd dm =>
    obtain ⟨u, hu, hle, hdd, hdm⟩ := vmove_run (e := e) h dd dm
    refine ⟨u, hu, hle, fun r hr => absurd hr List.not_mem_nil, fun d hd => ?_, nofun⟩
    rcases List.mem_cons.mp hd with rfl | hd
    · exact hdd
    · rw [List.mem_singleton.mp hd]
      exact hdm
  | branch t =>
    obtain ⟨u, hu, hle, hcov⟩ := hole_run (e := e) (s := s) (k := .branch t)
      (if s.current.cond.isAlways then .branch else .condBranch s.current.cond) (.address t)
      (fun _ hr => hr) rfl rfl
    exact ⟨u, (bind_run_ok (current_run e s)).trans hu, hle, hcov⟩
  | branchLink t =>
    obtain ⟨u, hu, hle, hlr⟩ := branchLink_run (e := e) (s := s) t
    refine ⟨u, hu, hle, fun r hr _ => ?_, fun d hd => absurd hd List.not_mem_nil, nofun⟩
    rw [List.mem_singleton.mp hr]
    exact hlr
  | branchExchange rm => exact hole_run _ _ (fun _ hr => hr) rfl rfl
  | branchLinkExchange rm =>
    obtain ⟨u, hu, hle, hm, hlr⟩ := branchLinkExchange_run (e := e) (s := s) rm
    refine ⟨u, hu, hle, fun r hr hpc => ?_, fun d hd => absurd hd List.not_mem_nil, nofun⟩
    rcases List.mem_cons.mp hr with rfl | hr
    · exact hm hpc
    · rw [List.mem_singleton.mp hr]
      exact hlr
  | tableBranch rn rm halfword => exact hole_run _ _ (fun _ hr => hr) rfl rfl
  | supervisorCall imm => exact hole_run _ _ (fun _ hr => hr) rfl rfl
  | breakpoint imm => exact hole_run _ _ (fun _ hr => hr) rfl rfl
  | undefined => exact hole_run _ _ (fun _ hr => hr) rfl rfl
  | readTimer rt rt2 => exact hole_run _ _ (fun _ hr => hr) rfl rfl
  | ifThen firstcond mask =>
    exact ⟨s.regs, (congrArg (EStateM.Result.ok ()) (Emission.extend_nil s)).symm, .refl _,
      fun r hr => absurd hr List.not_mem_nil, fun d hd => absurd hd List.not_mem_nil, nofun⟩
  | nop =>
    exact ⟨s.regs, (congrArg (EStateM.Result.ok ()) (Emission.extend_nil s)).symm, .refl _,
      fun r hr => absurd hr List.not_mem_nil, fun d hd => absurd hd List.not_mem_nil, nofun⟩

end Dynarec.Lower
