import Dynarec.Proofs.Emission.Register

/-! # Exits and fixups while code is emitted

The items of an exit, of the address where the guest goes on, and of a placeholder. An action
that looks up a dispatch slot ends well exactly when the slot can be addressed. -/

namespace Dynarec.Emit

open Host

/-! ### Instructions that can always be written -/

theorem encodable_loadWord (x : Host.Gpr) (v : Word) : Encodable (loadWord x v) := by
  unfold loadWord
  dsimp only
  split
  · rfl
  · split <;> rfl

theorem encodable_loadDWord (x : Host.Gpr) (v : DWord) : Encodable (loadDWord x v) := by
  unfold loadDWord
  split
  · rfl
  · refine encodable_cons.mpr ⟨rfl, encodable_iff.mpr fun i hi => ?_⟩
    obtain ⟨p, -, rfl⟩ := List.mem_map.mp hi
    rfl

/-- A general register's place in the record can be accessed. -/
theorem offsetFits_gpr (r : Guest.Gpr) : Instr.offsetFits 4 (Record.gpr r) = true := by
  have hr : r.index < 16 := r.code.isLt
  simp only [Instr.offsetFits, Record.gpr, Record.gprs, Bool.and_eq_true, beq_iff_eq]
  exact ⟨by omega, decide_eq_true (by omega)⟩

/-- A double register's place in the record can be accessed. -/
theorem offsetFits_dreg (d : Guest.Dreg) : Instr.offsetFits 8 (Record.dreg d) = true := by
  have hd : d.index < 32 := d.code.isLt
  simp only [Instr.offsetFits, Record.dreg, Record.dregs, Bool.and_eq_true, beq_iff_eq]
  exact ⟨by omega, decide_eq_true (by omega)⟩

/-! ### Where the guest goes on -/

/-- Writes a known guest address to the record. -/
def addressOps (guest : Word) : List Host.Instr :=
  loadWord .scratch guest ++ [.str .w .scratch .context Record.dispatchAddress]

/-- What the dispatch table says about a guest address, if there is one. -/
def Setting.lookup (e : Setting) (guest : Option Word) : SlotLookup :=
  guest.elim .absent e.dispatch

/-- Loads the code address to jump to. -/
def dispatchOps (e : Setting) (guest : Option Word) : List Host.Instr :=
  match e.lookup guest with
  | .found slot => loadDWord .dispatch slot ++ [.ldr .x .dispatch .dispatch 0]
  | _ => loadDWord .dispatch e.config.helpers.fallbackDispatcher

/-- The items of an exit for a known guest address. -/
def exitItems (e : Setting) (guest : Word) : List Item :=
  ops (addressOps guest ++ dispatchOps e (some guest)) ++ [.exit .always]

theorem encodable_addressOps (guest : Word) : Encodable (addressOps guest) :=
  (encodable_loadWord _ _).append rfl

section Actions

variable {e : Setting} {s s' : Emission}

theorem writeDispatchAddress_run (guest : Word) :
    writeDispatchAddress guest e s = .ok () (s.extend (ops (addressOps guest))) :=
  asm_run (encodable_addressOps guest) e s

theorem writeDispatchRegister_run (x : Host.Gpr) :
    writeDispatchRegister x e s =
      .ok () (s.extend (ops [.str .w x .context Record.dispatchAddress])) :=
  asm_run (show Encodable [.str .w x .context Record.dispatchAddress] from rfl) e s

theorem loadDispatchTarget_run (guest : Option Word) :
    loadDispatchTarget guest e s =
      if e.lookup guest = .unaddressable then .error .abort s
      else .ok () (s.extend (ops (dispatchOps e guest))) := by
  have hfound := fun slot => asm_run ((encodable_loadDWord .dispatch slot).append
    (show Encodable [.ldr .x .dispatch .dispatch 0] from rfl)) e s
  have habsent :=
    asm_run (encodable_loadDWord .dispatch e.config.helpers.fallbackDispatcher) e s
  have hlookup : guest.elim .absent e.dispatch = e.lookup guest := rfl
  unfold loadDispatchTarget dispatchOps
  simp only [run_bind, run_read, hlookup]
  cases e.lookup guest with
  | found slot => exact hfound slot
  | absent => exact habsent
  | unaddressable => rfl

/-- Without a known address the fallback dispatcher is loaded, which never fails. -/
theorem loadDispatchTarget_none :
    loadDispatchTarget none e s = .ok () (s.extend (ops (dispatchOps e none))) :=
  loadDispatchTarget_run none

theorem encodable_skip (condition : ExitCondition) : Encodable condition.skip := by
  cases condition <;> rfl

theorem always_ne_cond : ExitCondition.always ≠ .cond .al := nofun

theorem registerExit_run {condition : ExitCondition} (h : condition ≠ .cond .al) :
    registerExit condition e s =
      .ok (s.code.size + condition.skip.length)
        (s.extend (ops condition.skip ++ [.exit condition])) := by
  have hpush : ∀ t : Emission,
      { t with code := t.code.push (Host.Instr.b 0).encode,
               exits := t.exits.push ⟨condition, t.code.size⟩ } = t.extend [.exit condition] := by
    intro t
    simp only [Emission.extend, fixupsFrom, exitsFrom, Item.fixup?, Item.exit?, Item.word,
      Item.instr, List.map_cons, List.map_nil, Option.toList_none, Option.toList_some,
      List.append_nil, Array.append_empty, Array.push_eq_append]
  simp only [registerExit, h, if_false, run_bind, asm_run (encodable_skip condition),
    emitInstr_run (i := .b 0) rfl, run_modify, run_pure]
  rw [← Emission.extend_extend, ← hpush, Emission.size_extend, length_ops]

theorem emitExit_run (guest : Word) :
    emitExit guest e s =
      if e.dispatch guest = .unaddressable then .error .abort (s.extend (ops (addressOps guest)))
      else .ok (s.code.size + (addressOps guest ++ dispatchOps e (some guest)).length)
        (s.extend (exitItems e guest)) := by
  have hlookup : e.lookup (some guest) = e.dispatch guest := rfl
  have hskip : ExitCondition.always.skip = [] := rfl
  simp only [emitExit, run_bind, writeDispatchAddress_run, loadDispatchTarget_run, hlookup]
  by_cases h : e.dispatch guest = .unaddressable
  · simp only [h, if_true]
  · simp only [h, if_false, registerExit_run always_ne_cond, Emission.extend_extend,
      Emission.size_extend, hskip, ops_nil, List.nil_append, List.length_nil, Nat.add_zero,
      List.length_append, length_ops, exitItems, ops_append, List.append_assoc]

/-- An exit for a known guest address ends well exactly when the address has a slot, or none is
known for it. -/
theorem emitExit_yields (guest : Word) :
    Yields (emitExit guest) e s (e.dispatch guest ≠ .unaddressable)
      (s.code.size + (addressOps guest ++ dispatchOps e (some guest)).length)
      (s.extend (exitItems e guest)) := by
  have hrun := emitExit_run (e := e) (s := s) guest
  rw [← ite_not] at hrun
  exact .of_ite hrun

theorem emitExitToRegister_run (x : Host.Gpr) :
    emitExitToRegister x e s = .ok (s.code.size + (1 + (dispatchOps e none).length))
      (s.extend (ops ([.str .w x .context Record.dispatchAddress] ++ dispatchOps e none) ++
        [.exit .always])) := by
  have hskip : ExitCondition.always.skip = [] := rfl
  simp only [emitExitToRegister, run_bind, writeDispatchRegister_run, loadDispatchTarget_none,
    registerExit_run always_ne_cond, Emission.extend_extend, Emission.size_extend,
    hskip, ops_nil, List.nil_append, List.length_nil, Nat.add_zero, length_ops, List.length_append,
    List.length_singleton, ops_append, List.append_assoc]

/-! ### Placeholders -/

/-- The register use after a placeholder. -/
def RegisterUse.afterHole (u : RegisterUse) (kind : FixupKind) (target : FixupTarget) :
    RegisterUse :=
  match kind with
  | .condBranch _ => (u.pinAll target.regs).markFlags
  | _ => u.pinAll target.regs

theorem pushFixup_run (kind : FixupKind) (target : FixupTarget) :
    pushFixup kind target e s = .ok s.code.size
      ((s.withRegs (s.regs.afterHole kind target)).extend [.hole kind target s.current]) := by
  have hpush : ∀ t : Emission,
      { t with code := t.code.push kind.placeholder.encode,
               fixups := t.fixups.push
                 ⟨kind, target, t.code.size, t.current.pc, t.current.nextPc, t.current.pcValue⟩ } =
        t.extend [.hole kind target t.current] := by
    intro t
    simp only [Emission.extend, fixupsFrom, exitsFrom, Item.fixup?, Item.exit?, Item.word,
      Item.instr, List.map_cons, List.map_nil, Option.toList_none, Option.toList_some,
      List.append_nil, Array.append_empty, Array.push_eq_append]
  have hencodable : kind.placeholder.isEncodable = true := by cases kind <;> rfl
  simp only [pushFixup, run_bind, pinAll_run]
  rw [show s.current = (s.withRegs (s.regs.afterHole kind target)).current from rfl, ← hpush]
  cases kind <;>
    simp only [run_bind, run_pure, markFlags_run, emitInstr_run hencodable, run_modify] <;> rfl

theorem RegisterUse.le_afterHole (u : RegisterUse) (kind : FixupKind) (target : FixupTarget) :
    u.Le (u.afterHole kind target) := by
  have h := u.le_pinAll target.regs
  unfold afterHole
  split
  · exact h.trans (le_markFlags _)
  · exact h

theorem RegisterUse.holds_afterHole (u : RegisterUse) (kind : FixupKind) (target : FixupTarget)
    {r : Guest.Gpr} (hr : r ∈ target.regs) (h : r.isPc = false) :
    (u.afterHole kind target).Holds r := by
  have hh := u.holds_pinAll hr h
  unfold afterHole
  split <;> exact hh

end Actions

end Dynarec.Emit
