import Dynarec.Proofs.Run.Link

/-! # Reads of the program counter

An instruction that has the program counter as an operand reads a constant there. The constant
follows from the size of the instruction alone: a narrow instruction reads its address plus four, a
wide one its address plus eight, in either state. So a wide instruction in Thumb state, like a table
branch, finds the program counter four bytes too far. -/

namespace Dynarec.Guest

/-! ### Operands -/

/-- The general registers with `v` as the program counter. -/
def State.reading (s : State) (v : Word) (r : Gpr) : Word := if r.isPc then v else s.r r

def Operand.valueIn (r : Gpr → Word) : Operand → Word
  | .reg q => r q
  | .imm value => value

/-- What a data instruction writes if it takes effect and finds its operands in `r`. -/
def Instr.writtenFrom? (i : Instr) (r : Gpr → Word) (s : State) : Option Written :=
  match i.kind with
  | .alu op rd rn operand =>
    let result := op.eval s.flags (i.shifter s operand) (r rn) (operand.valueIn r)
    some { gpr := some (rd, result.1), flags := if i.setsFlags then some result.2 else none }
  | .move rd operand negate =>
    let result := if negate then ~~~(operand.valueIn r) else operand.valueIn r
    let flags := Nzcv.ofResult result (i.shifter s operand) s.flags.v
    some { gpr := some (rd, result), flags := if i.setsFlags then some flags else none }
  | .compare op rn operand =>
    some { flags := some (op.eval s.flags (i.shifter s operand) (r rn) (operand.valueIn r)) }
  | .vmove dd dm => some { dreg := some (dd, s.d dm) }
  | _ => none

theorem Instr.operandValue_eq (i : Instr) (s : State) (operand : Operand) :
    i.operandValue s operand = operand.valueIn (s.reading i.pcReadValue) := by
  cases operand <;> rfl

theorem Instr.writtenFrom?_reading (i : Instr) (s : State) :
    i.writtenFrom? (s.reading i.pcReadValue) s = i.written? s := by
  unfold writtenFrom? written?
  cases hk : i.kind with
  | alu | move | compare => simp only [operandValue_eq, gprValue, State.reading]
  | _ => rfl

/-- The instruction is a jump to the address in a register. -/
def Instr.JumpsThrough (i : Instr) (rm : Gpr) : Prop :=
  i.kind = .branchExchange rm ∨
    ∃ rd, i.kind = .move rd (.reg rm) false ∧ rd.isPc = true ∧ i.setsFlags = false

end Dynarec.Guest

namespace Dynarec

open Dynarec.Emit Dynarec.Lower Dynarec.Compile Dynarec.Resolve Dynarec.Host Dynarec.Simulation

/-! ### Instructions at their places -/

/-- The instruction `i` at index `k` reads `v` wherever the program counter is its operand. -/
structure ReadsPcAs (p : Plan) (c : Compiled) (k : Nat) (i : Guest.Instr) (v : Word) : Prop where
  /-- A data instruction writes what it computes from its operands, -/
  data : i.kind.computes = true → isRegisterJump i = false →
    ∀ m : Host.State, m.pc = k → i.cond.holds m.flags = true → ∃ w m',
      i.writtenFrom? ((m.guest i.address).reading v) (m.guest i.address) = some w ∧
      Leads (instrAt? c.code) m m' ∧ UpToTemps (m.deliver w) m'
  /-- a jump through the program counter goes on there, in the unit or outside, -/
  jump : ∀ rm, i.JumpsThrough rm → rm.isPc = true → ∀ m : Host.State, m.pc = k →
    (∃ n, p.targets v = some n ∧ Advances (instrAt? c.code) m (m.goto n)) ∨
    ∃ m', c.stats.trailer = some m'.pc ∧ Leads (instrAt? c.code) m m' ∧ Departed p.setting v m m'
  /-- a call through a register writes its target, -/
  call : ∀ rm, i.kind = .branchLinkExchange rm → ∀ m : Host.State, m.pc = k → ∃ m',
    Leads (instrAt? c.code) m m' ∧ m'.pc + 1 = k + (instrItems p.setting.config i).length ∧
    m'.mem.word (m.x .context + BitVec.ofNat 64 Record.dispatchAddress) =
      (m.guest i.address).reading v rm
  /-- and a table branch hands over its registers and the program counter. -/
  table : ∀ rn rm halfword, i.kind = .tableBranch rn rm halfword →
    ∀ area m, c.stats.spillBytes + 16 ≤ area → m.pc = k →
      (∀ a, ¬Mem.Outside (m.x .context) Record.size a → Mem.Outside (m.x .sp) area a) →
      ∃ m' x, Leads (instrAt? c.code) m m' ∧ instrAt? c.code m'.pc = some (.blr x) ∧
        m'.reg x = p.setting.config.helpers.tableBranch ∧
        (m'.x (.ofNat 1)).setWidth 32 = (m.guest i.address).reading v rn ∧
        (m'.x (.ofNat 2)).setWidth 32 = (m.guest i.address).reading v rm ∧
        m'.x (.ofNat 4) = v.setWidth 64

section Reads

variable {config : Config} {dispatch : DispatchTable} {t : Guest.Trace} {c : Compiled} {p : Plan}
  {s : Emission} (h : Built config dispatch t c p s) {k : Nat} {i : Guest.Instr}
  (hp : p.Places k i) {m : Host.State} (hm : m.pc = k)

include h hp hm

theorem reads_data (hk : i.kind.computes = true) (hjump : isRegisterJump i = false)
    (hcond : i.cond.holds m.flags = true) : ∃ w m',
      i.writtenFrom? ((m.guest i.address).reading i.pcReadValue) (m.guest i.address) = some w ∧
      Leads (instrAt? c.code) m m' ∧ UpToTemps (m.deliver w) m' := by
  obtain ⟨ys, zs, hbody, rfl⟩ := hp.items
  obtain ⟨w, hw⟩ := Guest.Instr.exists_written hk (m.guest i.address)
  have hunder : i.writtenUnder? i.cond (m.guest i.address) = some w :=
    (i.writtenUnder_of_holds hcond).trans hw
  obtain ⟨is, hitems, m', hexec, htemps⟩ := data_delivers (c := currentOf i) p.setting.config rfl
    hjump (fun _ => hcond) hunder
  rw [instrItems, hitems, List.append_assoc] at hbody
  obtain ⟨hrun, -⟩ := h.leads_ops hbody (straight_of_items hitems) hm hexec
  exact ⟨w, m', (i.writtenFrom?_reading _).trans hw, hrun, htemps⟩

theorem reads_jump {rm : Guest.Gpr} (hthrough : i.JumpsThrough rm) (hrm : rm.isPc = true) :
    (∃ n, p.targets i.pcReadValue = some n ∧ Advances (instrAt? c.code) m (m.goto n)) ∨
    ∃ m', c.stats.trailer = some m'.pc ∧ Leads (instrAt? c.code) m m' ∧
      Departed p.setting i.pcReadValue m m' := by
  obtain ⟨ys, zs, hbody, rfl⟩ := hp.items
  have hitems : instrItems p.setting.config i =
      [.hole .indirectBranch (.register rm) (currentOf i)] := by
    rcases hthrough with hk | ⟨rd, hk, hrd, hset⟩
    · simp only [instrItems, items, hk]
    · simp [instrItems, items, hk, moveItems, hrd, hset]
  rw [hitems] at hbody
  have hmeans := h.branch_means (Plan.settled h.fits hbody rfl) (if_pos hrm) hm
  cases hnear : Fixup.reached? _ _ (p.targets i.pcReadValue) with
  | some n => exact .inl ⟨n, (Option.filter_eq_some_iff.mp hnear).1, hmeans.taken rfl n hnear⟩
  | none =>
    obtain ⟨n, m', htrailer, hpc, hrun, hleft⟩ := hmeans.left rfl hnear
    exact .inr ⟨m', hpc ▸ htrailer, hrun, hleft⟩

theorem reads_call {rm : Guest.Gpr} (hk : i.kind = .branchLinkExchange rm) : ∃ m',
    Leads (instrAt? c.code) m m' ∧ m'.pc + 1 = k + (instrItems p.setting.config i).length ∧
    m'.mem.word (m.x .context + BitVec.ofNat 64 Record.dispatchAddress) =
      (m.guest i.address).reading i.pcReadValue rm := by
  obtain ⟨ys, zs, hbody, rfl⟩ := hp.items
  obtain ⟨is, kind, target, hitems, hst, -, hrun⟩ :=
    call_items p.setting.config (i := i) (by rw [hk]; rfl)
  obtain ⟨m', hexec, hready⟩ := hrun m
  rw [hitems, List.append_assoc] at hbody
  obtain ⟨hlead, hpc⟩ := h.leads_ops hbody hst hm hexec
  refine ⟨m', hlead, ?_, hready.next rm hk⟩
  rw [hpc, hitems]
  simp [Nat.add_assoc]

theorem reads_table {rn rm : Guest.Gpr} {halfword : Bool}
    (hk : i.kind = .tableBranch rn rm halfword) {area : Nat}
    (harea : c.stats.spillBytes + 16 ≤ area)
    (hapart : ∀ a, ¬Mem.Outside (m.x .context) Record.size a → Mem.Outside (m.x .sp) area a) :
    ∃ m' x, Leads (instrAt? c.code) m m' ∧ instrAt? c.code m'.pc = some (.blr x) ∧
      m'.reg x = p.setting.config.helpers.tableBranch ∧
      (m'.x (.ofNat 1)).setWidth 32 = (m.guest i.address).reading i.pcReadValue rn ∧
      (m'.x (.ofNat 2)).setWidth 32 = (m.guest i.address).reading i.pcReadValue rm ∧
      m'.x (.ofNat 4) = i.pcReadValue.setWidth 64 := by
  obtain ⟨ys, zs, hbody, rfl⟩ := hp.items
  have hitems : instrItems p.setting.config i =
      [.hole (.tableBranch halfword) (.registers rn rm) (currentOf i)] := by
    simp only [instrItems, items, hk]
  rw [hitems] at hbody
  obtain ⟨m', hrun, hasked, -⟩ := h.obeys (h.fixup_mem hbody) rfl harea hm hapart _
    (carries_carried s.regs (m.x .context) m)
  obtain ⟨x, hblr, hcallee⟩ := hasked.callee
  have harg : ∀ r : Guest.Gpr, ((argOf r i.pcReadValue).value m).setWidth 32 =
      (m.guest i.address).reading i.pcReadValue r := by
    intro r
    unfold argOf Guest.State.reading
    cases hr : r.isPc with
    | true => simp [CallArg.value, BitVec.setWidth_setWidth_of_le]
    | false => exact low_pinned_guest m hr i.address
  refine ⟨m', x, hrun, hblr, hcallee, ?_, ?_, ?_⟩
  · rw [hasked.args 1 _ rfl]
    exact harg rn
  · rw [hasked.args 2 _ rfl]
    exact harg rm
  · exact hasked.args 4 _ rfl

end Reads

/-- Every instruction reads its address plus four as the program counter if it is narrow, and its
address plus eight if it is wide. The state of the unit asks for that only of narrow instructions in
Thumb state, and of wide ones in the other. -/
theorem pc_reads_by_size {config : Config} {dispatch : DispatchTable} {t : Guest.Trace}
    {c : Compiled} (h : compile lower config dispatch t = .ok c) :
    ∃ p s, Built config dispatch t c p s ∧
      (∀ i ∈ t.instrs, i.kind.isIfThen = false → ∃ q k, p.Places k (i.under q)) ∧
      ∀ k i, p.Places k i →
        ReadsPcAs p c k i (i.address + if i.flags.thumb16 then 4 else 8) ∧
        ((i.address + if i.flags.thumb16 then 4 else 8) =
          (i.address + if config.thumb then 4 else 8) ↔ i.flags.thumb16 = config.thumb) := by
  obtain ⟨p, s, h⟩ := compile_ok h
  refine ⟨p, s, h, fun i hi hk => h.exists_places hi hk, fun k i hp => ⟨⟨?_, ?_, ?_, ?_⟩, ?_⟩⟩
  · exact fun hk hjump m hm hcond => reads_data h hp hm hk hjump hcond
  · exact fun rm hthrough hrm m hm => reads_jump h hp hm hthrough hrm
  · exact fun rm hk m hm => reads_call h hp hm hk
  · exact fun rn rm halfword hk area m harea hm hapart => reads_table h hp hm hk harea hapart
  · cases i.flags.thumb16 <;> cases config.thumb <;> simp

/-- A branch through the table of bytes behind it. -/
def byteTable : Guest.Instr where
  address := 0x8000
  encoding := 0xE8DFF000
  name := "tbb"
  kind := .tableBranch .pc ⟨0⟩ false
  flags := { branch := true, hostCallSkipContext := true }

/-- In Thumb state the table is looked for at 0x8008 instead of 0x8004. -/
theorem pc_reads_by_size_table : ∃ (c : Compiled) (m : Host.State),
    compile lower { thumb := true } DispatchTable.empty (soloTrace byteTable) = .ok c ∧
    Leads (instrAt? c.code) (restingState.goto 64) m ∧
    (m.x (.ofNat 1)).setWidth 32 = (0x8008 : Word) ∧ m.x (.ofNat 4) = 0x8008 := by
  have hcompiles : (compile lower { thumb := true } DispatchTable.empty
      (soloTrace byteTable)).toOption.any (fun _ => true) = true := by decide +kernel
  obtain ⟨c, hc, -⟩ := exists_ok_of_any hcompiles
  obtain ⟨p, s, hb, -, hreads⟩ := pc_reads_by_size hc
  have hread := (hreads 64 byteTable (hb.places_solo rfl rfl)).1
  obtain ⟨m, x, hlead, -, -, hbase, -, hpc⟩ := hread.table _ _ _ rfl _ (restingState.goto 64)
    (Nat.le_refl _) rfl (restingState_apart hb.spillBytes_le)
  exact ⟨c, m, hc, hlead, hbase, hpc⟩

end Dynarec
