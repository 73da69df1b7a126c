import Dynarec.Proofs.Body.Run
import Dynarec.Proofs.Guest.Trace
import Dynarec.Proofs.Simulation.Outcome

/-! # Data instructions

The sequence of each data instruction takes the host from a state with a guest state in it to one
with the next guest state in it. A result for the program counter is left in the record instead,
as the address where the guest goes on. -/

namespace Dynarec.Simulation

open Dynarec.Emit Dynarec.Host Dynarec.Lower Dynarec.Compile

variable {u : RegisterUse} {record table : DWord} {base s : Host.State} {σ : Guest.State}

/-! ### The address where the guest goes on -/

/-- The record names `a` as the address where the guest goes on. -/
def Aimed (record : DWord) (s : Host.State) (a : Word) : Prop :=
  s.mem.word (record + BitVec.ofNat 64 Record.dispatchAddress) = a

theorem Sim.storeAddress (h : Sim u record table base s σ) (value : Word) :
    Sim u record table base
      (s.store (record + BitVec.ofNat 64 Record.dispatchAddress) 4 value) σ := by
  have ho : Record.nzcv + 4 ≤ Record.dispatchAddress := Nat.le_of_ble_eq_true rfl
  have hsize : Record.dispatchAddress + 4 ≤ Record.size := Nat.le_of_ble_eq_true rfl
  exact h.storeStatus ho hsize value

theorem aimed_store (record : DWord) (s : Host.State) (value : Word) :
    Aimed record (s.store (record + BitVec.ofNat 64 Record.dispatchAddress) 4 value) value :=
  Mem.read_write_self (n := 4) s.mem _ _ (Nat.le_of_ble_eq_true rfl)

theorem storeAddress_run (h : Sim u record table base s σ) (x : Host.Gpr) :
    ∃ s', (Host.Instr.str .w x .context Record.dispatchAddress).exec s = some s' ∧
      Sim u record table base s' σ ∧ Aimed record s' (s.low .w x) := by
  refine ⟨_, ?_, (h.storeAddress (s.low .w x)).skip 1, aimed_store record s (s.low .w x)⟩
  rw [← h.context]
  rfl

/-! ### What is read -/

section Reads

variable {i : Guest.Instr}

/-- Flags in use are those of the guest; no others are read or set. -/
theorem Sim.flags_or (h : Sim u record table base s σ) :
    (s.guest i.address).flags = σ.flags ∨ u.usesFlags = false := by
  cases hu : u.usesFlags with
  | true => exact .inl (h.flags hu)
  | false => exact .inr rfl

theorem Sim.gprValue (h : Sim u record table base s σ) {r : Guest.Gpr}
    (hu : r.isPc = false → u.Holds r) : i.gprValue (s.guest i.address) r = i.gprValue σ r := by
  unfold Guest.Instr.gprValue
  cases hr : r.isPc with
  | true => rfl
  | false => exact h.gprs r hr (hu hr)

theorem Sim.operandValue (h : Sim u record table base s σ) {o : Guest.Operand}
    (hu : ∀ r ∈ operandGprs o, r.isPc = false → u.Holds r) :
    i.operandValue (s.guest i.address) o = i.operandValue σ o := by
  cases o with
  | reg r => exact h.gprValue (hu r List.mem_cons_self)
  | imm value => rfl

theorem Sim.dreg (h : Sim u record table base s σ) {d : Guest.Dreg} (hu : u.HoldsD d)
    (pc : Word) : (s.guest pc).d d = σ.d d := by
  unfold State.guest
  dsimp only
  cases hd : pinnedVreg? d with
  | some v => exact h.dregs d v hd (hu v hd)
  | none =>
    rw [h.context]
    refine h.dregsLeft d fun v hv => ?_
    rw [hd] at hv
    cases hv

/-- A result depends on the flags only through the carry that an operation reads. -/
theorem eval_fst (op : Guest.AluOp) {f g : Nzcv} (h : op.readsCarry = true → f = g)
    (c c' : Bool) (a b : Word) : (op.eval f c a b).1 = (op.eval g c' a b).1 := by
  cases op with
  | adc | sbc =>
    rw [h rfl]
    rfl
  | _ => rfl

theorem setsFlags_of_unused (hu : InUse u i) (hf : u.usesFlags = false) :
    i.setsFlags = false := by
  refine eq_false_of_ne_true fun hs => ?_
  rw [hu.flags hs] at hf
  cases hf

/-- What an instruction in use writes is read off the guest state. -/
theorem Sim.written (h : Sim u record table base s σ) (hi : i.Regular) (hu : InUse u i) :
    i.written? (s.guest i.address) = i.written? σ := by
  have hcov := hu.covers
  unfold Guest.Instr.written?
  cases hk : i.kind with
  | alu op rd rn o =>
    rw [hk] at hcov
    have hn := h.gprValue (i := i) (hcov.gprs rn (List.mem_cons_of_mem _ List.mem_cons_self))
    have ho := h.operandValue (i := i)
      (fun r hr => hcov.gprs r (List.mem_cons_of_mem _ (List.mem_cons_of_mem _ hr)))
    dsimp only
    rw [hn, ho]
    rcases h.flags_or (i := i) with hf | hf
    · rw [hf, shifter_congr hf]
    · -- No flags are in use, so none are read or set.
      have hcarry : op.readsCarry = true → (s.guest i.address).flags = σ.flags := by
        intro hc
        rw [hcov.carry hc] at hf
        cases hf
      rw [setsFlags_of_unused hu hf, eval_fst op hcarry]
      rfl
  | move rd o negate =>
    rw [hk] at hcov
    have ho := h.operandValue (i := i)
      (fun r hr => hcov.gprs r (List.mem_cons_of_mem _ hr))
    dsimp only
    rw [ho]
    rcases h.flags_or (i := i) with hf | hf
    · rw [hf, shifter_congr hf]
    · rw [setsFlags_of_unused hu hf]
      rfl
  | compare op rn o =>
    rw [hk] at hcov
    have hf : (s.guest i.address).flags = σ.flags := h.flags (hu.flags (hi.compare op rn o hk))
    dsimp only
    rw [h.gprValue (hcov.gprs rn List.mem_cons_self),
      h.operandValue fun r hr => hcov.gprs r (List.mem_cons_of_mem _ hr), hf, shifter_congr hf]
  | vmove dd dm =>
    rw [hk] at hcov
    dsimp only
    rw [h.dreg (hcov.dregs dm (List.mem_cons_of_mem _ List.mem_cons_self))]
  | _ => rfl

theorem Sim.holds_cond (h : Sim u record table base s σ) (hu : InUse u i) :
    i.cond.holds s.flags = i.cond.holds σ.flags := by
  by_cases hal : i.cond = .al
  · rw [hal]
    rfl
  · rw [h.flags (hu.tested hal)]

end Reads

/-! ### What is written -/

section Writes

variable {i : Guest.Instr} {w : Guest.Written}

/-- What a regular instruction does is to write and to go on. -/
theorem effect_of_written (hi : i.Regular) (hw : i.written? σ = some w) :
    i.effect σ = some (w.apply σ i.nextPc) := by
  have hgpr : ∀ r, i.readGpr σ r = i.gprValue σ r := by
    intro r
    rw [Guest.Instr.readGpr, Guest.Instr.gprValue, hi.pcReadValue]
  have hoperand : ∀ o, i.readOperand σ o = i.operandValue σ o := by
    intro o
    cases o with
    | reg r => exact hgpr r
    | imm value => rfl
  have hflags : ∀ (b : Bool) (f : Nzcv), (if b then some f else none).getD σ.flags =
      if b then f else σ.flags := by
    intro b f
    cases b <;> rfl
  unfold Guest.Instr.written? at hw
  unfold Guest.Instr.effect
  cases hk : i.kind with
  | alu op rd rn o =>
    rw [hk] at hw
    cases hw
    simp only [Guest.Written.apply, Guest.State.put?, Guest.State.setD?, Guest.State.put_setFlags,
      hflags, hgpr, hoperand, hi.nextPc]
  | move rd o negate =>
    rw [hk] at hw
    cases hw
    simp only [Guest.Written.apply, Guest.State.put?, Guest.State.setD?, Guest.State.put_setFlags,
      hflags, hoperand, hi.nextPc]
  | compare op rn o =>
    rw [hk] at hw
    cases hw
    simp only [hgpr, hoperand, hi.nextPc]
    rfl
  | vmove dd dm =>
    rw [hk] at hw
    cases hw
    rw [hi.nextPc]
    rfl
  | _ =>
    rw [hk] at hw
    cases hw

/-- What a data instruction can write: a result with its flags, flags alone, or a double
register. -/
theorem written_cases (hw : i.written? σ = some w) :
    (∃ rd value f, w = { gpr := some (rd, value), flags := if i.setsFlags then some f else none } ∧
      rd ∈ kindGprs i.kind ∧ i.kind.writesPc = rd.isPc ∧ i.kind.leaves = rd.isPc) ∨
    (∃ op rn o f, i.kind = .compare op rn o ∧ w = { flags := some f }) ∨
    ∃ dd dm, i.kind = .vmove dd dm ∧ w = { dreg := some (dd, σ.d dm) } := by
  unfold Guest.Instr.written? at hw
  cases hk : i.kind with
  | alu | move =>
    rw [hk] at hw
    cases hw
    exact .inl ⟨_, _, _, rfl, List.mem_cons_self, rfl, rfl⟩
  | compare =>
    rw [hk] at hw
    cases hw
    exact .inr (.inl ⟨_, _, _, _, rfl, rfl⟩)
  | vmove =>
    rw [hk] at hw
    cases hw
    exact .inr (.inr ⟨_, _, rfl, rfl⟩)
  | _ =>
    rw [hk] at hw
    cases hw

/-- Only registers in use are written, and flags in use. -/
structure Placed (u : RegisterUse) (w : Guest.Written) : Prop where
  gpr : ∀ rd value, w.gpr = some (rd, value) → rd.isPc = false → u.Holds rd
  dreg : ∀ dd value, w.dreg = some (dd, value) → u.HoldsD dd
  flags : ∀ f, w.flags = some f → u.usesFlags = true

theorem placed_of_written (hi : i.Regular) (hu : InUse u i) (hw : i.written? σ = some w) :
    Placed u w := by
  obtain ⟨rd, value, f, rfl, hmem, -, -⟩ | ⟨op, rn, o, f, hk, rfl⟩ | ⟨dd, dm, hk, rfl⟩ :=
    written_cases hw
  · refine ⟨fun r _ hr => ?_, fun _ _ hd => (by cases hd), fun g hg => ?_⟩
    · cases hr
      exact hu.covers.gprs rd hmem
    · cases hs : i.setsFlags with
      | true => exact hu.flags hs
      | false =>
        rw [hs] at hg
        cases hg
  · exact ⟨fun _ _ hr => (by cases hr), fun _ _ hd => (by cases hd),
      fun _ _ => hu.flags (hi.compare op rn o hk)⟩
  · refine ⟨fun _ _ hr => (by cases hr), fun d _ hd => ?_, fun _ hg => (by cases hg)⟩
    cases hd
    refine hu.covers.dregs dd ?_
    rw [hk]
    exact List.mem_cons_self

/-- An instruction that writes the program counter writes at most the flags with it, and a regular
one nothing else. -/
theorem written_pc (hw : i.written? σ = some w) (hpc : w.writesPc = true) :
    ∃ rd value, rd.isPc = true ∧ w = { gpr := some (rd, value), flags := w.flags } ∧
      (i.Regular → w.flags = none) := by
  obtain ⟨rd, value, f, rfl, -, hwrites, -⟩ | ⟨op, rn, o, f, -, rfl⟩ | ⟨dd, dm, -, rfl⟩ :=
    written_cases hw
  · have hrd : rd.isPc = true := hpc
    refine ⟨rd, value, hrd, rfl, fun hi => if_neg fun hs => ?_⟩
    rw [hrd, (hi.setsFlags hs).2] at hwrites
    cases hwrites
  · cases hpc
  · cases hpc

/-- An instruction with its condition in itself writes one general register. -/
theorem written_of_absorbs (ha : i.absorbsCondition = true) (hw : i.written? σ = some w) :
    ∃ rd value, rd.isPc = false ∧ w = { gpr := some (rd, value) } := by
  unfold Guest.Instr.absorbsCondition at ha
  unfold Guest.Instr.written? at hw
  split at ha
  · rename_i hk
    rw [hk] at hw
    cases hw
  · rename_i rd rm hk
    rw [hk] at hw
    cases hw
    simp only [Bool.and_eq_true, Bool.not_eq_true'] at ha
    rw [ha.1.1]
    exact ⟨_, _, ha.1.2, rfl⟩
  · cases ha

theorem leaves_of_written (hw : i.written? σ = some w) : i.kind.leaves = w.writesPc := by
  obtain ⟨rd, value, f, rfl, -, -, hleaves⟩ | ⟨op, rn, o, f, hk, rfl⟩ | ⟨dd, dm, hk, rfl⟩ :=
    written_cases hw
  · exact hleaves
  · rw [hk]
    rfl
  · rw [hk]
    rfl

theorem Sim.put? (h : Sim u record table base s σ) {g : Option (Guest.Gpr × Word)}
    (hu : ∀ rd value, g = some (rd, value) → rd.isPc = false → u.Holds rd) (next : Word) :
    Sim u record table base (s.putGpr? g) (σ.put? next g) := by
  cases g with
  | none => exact h.goto next
  | some p =>
    unfold State.putGpr? Guest.State.put? Guest.State.put
    dsimp only
    cases hrd : p.1.isPc with
    | true =>
      rw [if_pos rfl, if_pos rfl, h.context]
      exact (h.storeAddress p.2).goto p.2
    | false => exact (h.setPinnedLow hrd (hu p.1 p.2 rfl hrd) p.2).goto next

theorem Sim.setD? (h : Sim u record table base s σ) {g : Option (Guest.Dreg × DWord)}
    (hu : ∀ dd value, g = some (dd, value) → u.HoldsD dd) :
    Sim u record table base (s.putDreg? g) (σ.setD? g) := by
  cases g with
  | none => exact h
  | some p =>
    unfold State.putDreg? Guest.State.setD?
    dsimp only
    cases hd : pinnedVreg? p.1 with
    | some v =>
      have hset := h.setVPinned hd (hu p.1 p.2 rfl v hd) (p.2.setWidth 128)
      rwa [BitVec.setWidth_setWidth_of_le p.2 (Nat.le_of_ble_eq_true rfl)] at hset
    | none =>
      rw [h.context]
      exact h.storeD hd p.2

/-- What is delivered to registers and flags in use is written in the guest state. -/
theorem Sim.deliver (h : Sim u record table base s σ) (hw : Placed u w) (next : Word) :
    Sim u record table base (s.deliver w) (w.apply σ next) := by
  have hregs := (h.put? hw.gpr next).setD? hw.dreg
  have hflags : ((σ.put? next w.gpr).setD? w.dreg).flags = σ.flags := by
    refine Eq.trans ?_ (σ.flags_put? next w.gpr)
    cases w.dreg <;> rfl
  unfold State.deliver Guest.Written.apply
  cases hf : w.flags with
  | none =>
    rw [Option.getD_none, ← hflags]
    exact hregs
  | some f => exact hregs.setFlags (hw.flags f hf) f

end Writes

/-! ### Runs of data instructions -/

/-- The instruction has taken effect, and control goes on behind it. -/
def Done (u : RegisterUse) (record table : DWord) (base : Host.State) (i : Guest.Instr)
    (σ : Guest.State) (s' : Host.State) : Prop :=
  ∃ σ', i.effect σ = some σ' ∧ Sim u record table base s' σ' ∧ σ'.pc = i.nextPc

/-- The guest state before is still there, and the record names the address where the guest goes on
when the instruction has taken effect. -/
def Departing (u : RegisterUse) (record table : DWord) (base : Host.State) (i : Guest.Instr)
    (σ : Guest.State) (s' : Host.State) : Prop :=
  ∃ a, i.effect σ = some (σ.goto a) ∧ Sim u record table base s' σ ∧ Aimed record s' a

section Runs

variable {i : Guest.Instr} {w : Guest.Written} (config : Config)
  (h : Sim u record table base s σ) (hi : i.Regular) (hu : InUse u i)
  (hjump : isRegisterJump i = false) (hw : i.written? σ = some w)

include h hi hu hjump hw

/-- The sequence of an instruction whose condition holds. -/
theorem data_run (hcond : i.cond.holds σ.flags = true) :
    ∃ is s', instrItems config i = ops is ++ holeItems (currentOf i) i ∧ execAll is s = some s' ∧
      (w.writesPc = false → Done u record table base i σ s') ∧
      (w.writesPc = true → Departing u record table base i σ s') := by
  have hholds : i.cond.holds s.flags = true := (h.holds_cond hu).trans hcond
  have hunder : i.writtenUnder? i.cond (s.guest i.address) = some w := by
    rw [i.writtenUnder_of_holds hholds, h.written hi hu, hw]
  obtain ⟨is, hitems, s', hexec, htemps⟩ :=
    data_delivers config (c := currentOf i) rfl hjump (fun _ => hholds) hunder
  have heffect := effect_of_written hi hw
  refine ⟨is, s', hitems, hexec, fun hpc => ?_, fun hpc => ?_⟩
  · have hsim := h.deliver (placed_of_written hi hu hw) i.nextPc
    exact ⟨_, heffect, hsim.upToTemps htemps, Guest.Written.pc_apply hpc σ i.nextPc⟩
  · obtain ⟨rd, value, hrd, hvalue, hflags⟩ := written_pc hw hpc
    rw [hflags hi] at hvalue
    subst hvalue
    have hdeliver : s.deliver { gpr := some (rd, value) } =
        s.store (record + BitVec.ofNat 64 Record.dispatchAddress) 4 value := by
      rw [← h.context]
      exact if_pos hrd
    rw [hdeliver] at htemps
    refine ⟨value, heffect.trans (congrArg some (Guest.Written.apply_pc hrd ..)),
      (h.storeAddress value).upToTemps htemps, ?_⟩
    rw [Aimed, htemps.mem]
    exact aimed_store record s value

/-- The sequence of an instruction that has its condition in itself keeps all if it does not
hold. -/
theorem kept_run (habs : i.absorbsCondition = true) (hcond : i.cond.holds σ.flags = false) :
    ∃ is s', instrItems config i = ops is ++ holeItems (currentOf i) i ∧
      execAll is s = some s' ∧ Sim u record table base s' σ := by
  have hholds : i.cond.holds s.flags = false := (h.holds_cond hu).trans hcond
  have hunder : i.writtenUnder? i.cond (s.guest i.address) =
      some (w.restored (s.guest i.address)) := by
    rw [Guest.Instr.writtenUnder?, h.written hi hu, hw]
    exact congrArg some (if_neg (ne_true_of_eq_false hholds))
  obtain ⟨is, hitems, s', hexec, htemps⟩ :=
    data_delivers config (c := currentOf i) rfl hjump
      (fun ha => absurd habs (ne_true_of_eq_false ha)) hunder
  refine ⟨is, s', hitems, hexec, ?_⟩
  obtain ⟨rd, value, hrd, rfl⟩ := written_of_absorbs habs hw
  have hheld := (placed_of_written hi hu hw).gpr rd value rfl hrd
  have hdeliver : s.deliver (Guest.Written.restored { gpr := some (rd, value) }
      (s.guest i.address)) = s.setLow (pinned rd) (σ.r rd) := by
    rw [← h.gprs rd hrd hheld]
    exact if_neg (ne_true_of_eq_false hrd)
  rw [hdeliver] at htemps
  have hset := h.setPinnedLow hrd hheld (σ.r rd)
  rw [Guest.State.setGpr_self] at hset
  exact hset.upToTemps htemps

end Runs

end Dynarec.Simulation
