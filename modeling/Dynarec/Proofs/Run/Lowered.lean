import Dynarec.Proofs.Run.Call
import Dynarec.Proofs.Simulation.Data

/-! # Lowered data instructions

The words that the lowering of a data instruction appends compute what the instruction computes,
from any state of the host: the guest state that is in the host behind them is the next one. Where
the program counter is written, the next address is in the record, or it is the value of the
register that the fixup names. -/

namespace Dynarec.Guest

/-- The states are the same for a program; there is no general register numbered 15. -/
structure State.Same (σ τ : State) : Prop where
  r : ∀ r : Gpr, r.isPc = false → σ.r r = τ.r r
  d : ∀ d, σ.d d = τ.d d
  flags : σ.flags = τ.flags
  pc : σ.pc = τ.pc

end Dynarec.Guest

namespace Dynarec.Simulation

open Dynarec.Emit Dynarec.Host Dynarec.Lower Dynarec.Compile

/-! ### All registers in use -/

/-- With all registers in use the guest state can be read off the host. -/
def everything : RegisterUse where
  usedGprs := ⟨BitVec.allOnes 32⟩
  usedVregs := ⟨BitVec.allOnes 32⟩
  usesFlags := true

theorem contains_allOnes (code : BitVec 5) : RegSet.contains ⟨BitVec.allOnes 32⟩ code = true := by
  rw [RegSet.contains, BitVec.getLsbD_allOnes]
  exact decide_eq_true code.isLt

theorem holds_everything (r : Guest.Gpr) : everything.Holds r := contains_allOnes _

theorem placed_everything (w : Guest.Written) : Placed everything w :=
  ⟨fun rd _ _ _ => holds_everything rd, fun _ _ _ _ _ => contains_allOnes _, fun _ _ => rfl⟩

theorem sim_guest (s : Host.State) (pc : Word) :
    Sim everything (s.x .context) (s.x .pageTable) s s (s.guest pc) := by
  refine ⟨rfl, rfl, fun _ _ _ => rfl, fun r _ hu => absurd (holds_everything r) hu,
    fun d v hv _ => ?_, fun d hd => ?_, fun _ => rfl, fun hu => absurd hu (by decide),
    fun _ _ => rfl, fun _ _ _ => rfl, fun _ _ _ => rfl, fun _ _ => rfl⟩
  · unfold State.guest
    dsimp only
    rw [hv]
  · unfold State.guest
    dsimp only
    cases hv : pinnedVreg? d with
    | none => rfl
    | some v =>
      have hfree := hd v hv
      rw [show everything.usedVregs.contains v.code = true from contains_allOnes _] at hfree
      cases hfree

theorem same_of_sim {record table : DWord} {base s : Host.State} {σ : Guest.State}
    (h : Sim everything record table base s σ) : (s.guest σ.pc).Same σ := by
  exact ⟨fun r hr => h.gprs r hr (holds_everything r),
    fun d => h.dreg (fun _ _ => contains_allOnes _) σ.pc, h.flags rfl, rfl⟩

/-! ### Words of one instruction -/

/-- The address where the guest goes on behind the words of a data instruction, which end with the
given placeholder. -/
def nextAddress (i : Guest.Instr) (s : Host.State) : Option (FixupKind × FixupTarget) → Word
  | none => i.nextPc
  | some (_, .register rm) => i.gprValue (s.guest i.address) rm
  | some _ => s.mem.word (s.x .context + BitVec.ofNat 64 Record.dispatchAddress)

/-- What the words from `e` to `e'` do on the way from `s` to `s'`: they write `w` and stop at the
placeholder of the instruction, if it has one, and behind the last word otherwise. -/
structure Computes (c : Current) (i : Guest.Instr) (w : Guest.Written) (e e' : Emission)
    (s s' : Host.State) : Prop where
  run : Leads (instrAt? e'.code) s s'
  stops : s'.pc + (hole? c i).toList.length = e'.code.size
  fixups : e'.fixups.toList = e.fixups.toList ++
    (hole? c i).toList.map fun p => ⟨p.1, p.2, s'.pc, i.address, i.nextPc, i.pcReadValue⟩
  guest : (s'.guest (nextAddress i s' (hole? c i))).Same (w.apply (s.guest i.address) i.nextPc)
  /-- Nothing else changes, except temporary registers. -/
  frame : UpToTemps (s.deliver (if isRegisterJump i then {} else w)) s'

section Words

variable {config : Config} {c : Current} {i : Guest.Instr} {w : Guest.Written} {s s' : Host.State}
  (hcond : i.absorbsCondition = false → c.cond.holds s.flags = true)
  (hw : i.writtenUnder? c.cond (s.guest i.address) = some w)

/-- An address that was delivered is in the record. -/
theorem word_deliver {rd : Guest.Gpr} (hrd : rd.isPc = true) (value : Word) (f : Option Nzcv)
    (hs : UpToTemps (s.deliver { gpr := some (rd, value), flags := f }) s') :
    s'.mem.word (s'.x .context + BitVec.ofNat 64 Record.dispatchAddress) = value := by
  rw [State.deliver_gpr, if_pos hrd] at hs
  have hx : s'.x .context = s.x .context := by
    refine (hs.x _ rfl).trans ?_
    cases f <;> rfl
  have hmem : s'.mem =
      (s.store (s.x .context + BitVec.ofNat 64 Record.dispatchAddress) 4 value).mem := by
    refine hs.mem.trans ?_
    cases f <;> rfl
  rw [hx, hmem]
  exact aimed_store (s.x .context) s value

include hcond hw

/-- The guest goes on where what is written says. -/
theorem nextAddress_eq (hjump : isRegisterJump i = false) (hs : UpToTemps (s.deliver w) s') :
    nextAddress i s' (hole? c i) = (w.apply (s.guest i.address) i.nextPc).pc := by
  obtain ⟨v, hv, hvw⟩ := Option.map_eq_some_iff.mp hw
  rw [hole_of_written c hjump hv]
  cases hpc : v.writesPc with
  | false =>
    refine (Guest.Written.pc_apply ?_ (s.guest i.address) i.nextPc).symm
    rw [← hvw]
    split
    · exact hpc
    · rw [Guest.Written.writesPc_restored]
      exact hpc
  | true =>
    have habs : i.absorbsCondition = false := by
      refine eq_false_of_ne_true fun ha => ?_
      obtain ⟨rd, value, hrd, rfl⟩ := written_of_absorbs ha hv
      exact absurd hpc (ne_true_of_eq_false hrd)
    rw [i.writtenUnder_of_holds (hcond habs), hv] at hw
    cases hw
    obtain ⟨rd, value, hrd, hvalue, -⟩ := written_pc hv hpc
    rw [hvalue] at hs ⊢
    rw [Guest.Written.apply_pc hrd]
    exact word_deliver hrd value _ hs

/-- The instructions of a data instruction, and what is in the host behind them. -/
theorem computed_items (config : Config) (hc : c.pcValue = i.pcReadValue) :
    ∃ is s', items config c i = ops is ++ holeItems c i ∧ execAll is s = some s' ∧
      UpToTemps (s.deliver (if isRegisterJump i then {} else w)) s' ∧
      (s'.guest (nextAddress i s' (hole? c i))).Same (w.apply (s.guest i.address) i.nextPc) := by
  have hsim := sim_guest s i.address
  cases hjump : isRegisterJump i with
  | false =>
    obtain ⟨is, hitems, s', hexec, htemps⟩ := data_delivers config hc hjump hcond hw
    refine ⟨is, s', hitems, hexec, htemps, ?_⟩
    rw [nextAddress_eq hcond hw hjump htemps]
    exact same_of_sim ((hsim.deliver (placed_everything w) i.nextPc).upToTemps htemps)
  | true =>
    -- Nothing is run, and the fixup names the register with the next address.
    obtain ⟨rd, rm, hk, hrd, hset⟩ := isRegisterJump_iff.mp hjump
    have hhole : hole? c i = some (.indirectBranch, .register rm) := by
      simp only [hole?, hk, hrd, hset, Bool.not_false, Bool.and_self, if_true]
    have hitems : items config c i = ops [] ++ holeItems c i := by
      simp only [holeItems, hhole, items, hk, moveItems, hrd, hset, Bool.not_false, Bool.and_self,
        if_true]
      rfl
    have habs : i.absorbsCondition = false := by
      simp only [Guest.Instr.absorbsCondition, hk, hrd, Bool.not_true, Bool.and_false,
        Bool.false_and]
    have hwritten : w = { gpr := some (rd, i.gprValue (s.guest i.address) rm) } := by
      rw [i.writtenUnder_of_holds (hcond habs)] at hw
      simp only [Guest.Instr.written?, hk, hset] at hw
      exact (Option.some.inj hw).symm
    refine ⟨[], s, hitems, rfl, .refl s, ?_⟩
    rw [hhole, hwritten, Guest.Written.apply_pc hrd]
    exact same_of_sim (hsim.goto _)

end Words

/-! ### Lowering -/

theorem fixupsFrom_holeItems {c : Current} {i : Guest.Instr} (n : Nat) :
    fixupsFrom n (holeItems c i) =
      (hole? c i).toList.map fun p => ⟨p.1, p.2, n, c.pc, c.nextPc, c.pcValue⟩ := by
  unfold holeItems
  cases hole? c i <;> rfl

/-- The lowering of any data instruction under any predicate ends well, and whatever the host state
is at its first word, its words compute what the instruction writes. An instruction that does not
have its condition in itself is run only if the condition holds. -/
theorem lower_computes (setting : Setting) {e : Emission} (hrest : e.regs.Rested)
    {i : Guest.Instr} (hkind : i.kind.computes = true) (cond : Cond) :
    ∃ words e', (do beginInstr i cond; lower i : Emit Unit) setting e = .ok () e' ∧
      e'.code = e.code ++ words ∧
      ∀ s : Host.State, s.pc = e.code.size →
        (i.absorbsCondition = false → cond.holds s.flags = true) →
        ∃ w s', i.writtenUnder? cond (s.guest i.address) = some w ∧
          Computes e'.current i w e e' s s' := by
  let c : Current := ⟨i.address, i.nextPc, i.pcReadValue, cond⟩
  let e₀ : Emission := { e with current := c }
  have hbegin : beginInstr i cond setting e = .ok () e₀ := rfl
  obtain ⟨u, hlower, -, -, -⟩ := lower_run (e := setting) (s := e₀) hrest i
  refine ⟨((items setting.config c i).map Item.word).toArray,
    (e₀.withRegs u).extend (items setting.config c i), (bind_run_ok hbegin).trans hlower, rfl,
    fun s hpc hcond => ?_⟩
  obtain ⟨v, hv⟩ := Guest.Instr.exists_written hkind (s.guest i.address)
  obtain ⟨w, hw⟩ : ∃ w, i.writtenUnder? cond (s.guest i.address) = some w := by
    rw [Guest.Instr.writtenUnder?, hv]
    exact ⟨_, rfl⟩
  obtain ⟨is, s', hitems, hexec, hframe, hguest⟩ :=
    computed_items (c := c) hcond hw setting.config rfl
  have hst := straight_of_items hitems
  have hat : Found (instrAt? ((e₀.withRegs u).extend (ops is ++ holeItems c i)).code) s.pc is := by
    rw [hpc]
    exact found_extend (s := e₀.withRegs u) (holeItems c i) (canonical_of_straight hst)
  obtain ⟨hrun, hstop⟩ := leads_of_execAll hat hst hexec
  rw [hitems]
  refine ⟨w, s', hw, hrun, ?_, ?_, hguest, hframe⟩
  · rw [Emission.size_extend, hstop, hpc, List.length_append, length_ops, holeItems,
      List.length_map, ← Nat.add_assoc]
    rfl
  · show (e.fixups ++ (fixupsFrom e.code.size (ops is ++ holeItems c i)).toArray).toList = _
    rw [Array.toList_append, fixupsFrom_append, fixupsFrom_ops, List.nil_append, length_ops, ← hpc,
      ← hstop, fixupsFrom_holeItems]
    rfl

/-- A narrow instruction with the program counter and a rotated constant as operands. -/
def narrowOr : Guest.Instr where
  address := 0x8002
  encoding := 0
  name := "orr"
  kind := .alu .orr ⟨0⟩ .pc (.imm 0x80000000)
  flags := { setsFlags := true, thumb16 := true, rotatedImm := true }

theorem lower_computes_narrowOr : ∃ e' s',
    (do beginInstr narrowOr .ne; lower narrowOr : Emit Unit) {} {} = .ok () e' ∧
      Leads (instrAt? e'.code) restingState s' ∧ s'.pc = e'.code.size ∧
      (s'.x (pinned ⟨0⟩)).setWidth 32 = 0x80008006#32 ∧ s'.flags = ⟨true, false, true, false⟩ := by
  obtain ⟨words, e', hlower, -, hall⟩ :=
    lower_computes {} (e := {}) RegisterUse.rested_initial (i := narrowOr) rfl .ne
  obtain ⟨w, s', hw, hs⟩ := hall restingState rfl fun _ => rfl
  have hwritten : w =
      { gpr := some (⟨0⟩, 0x80008006), flags := some ⟨true, false, true, false⟩ } :=
    (Option.some.inj hw).symm
  have hguest := hs.guest
  rw [hwritten] at hguest
  exact ⟨e', s', hlower, hs.run, hs.stops, hguest.r ⟨0⟩ rfl, hguest.flags⟩

end Dynarec.Simulation
