import Dynarec.Emit.HostCall
import Dynarec.Proofs.Emission.Exit

/-! # Host calls while code is emitted

The instructions of a host call. All of them can be written, whatever registers are in use, and
the arguments of every call find their places. -/

namespace Dynarec.Emit

open Host

/-! ### Registers to and from memory -/

theorem encodable_map {α : Type} {xs : List α} {f : α → Host.Instr}
    (h : ∀ x ∈ xs, (f x).isEncodable = true) : Encodable (xs.map f) := by
  refine encodable_iff.mpr fun i hi => ?_
  obtain ⟨x, hx, rfl⟩ := List.mem_map.mp hi
  exact h x hx

theorem gprPlaces_fit (u : RegisterUse) :
    ∀ p ∈ u.gprPlaces, Instr.offsetFits 4 p.2 = true := by
  intro p hp
  obtain ⟨x, -, hx⟩ := List.mem_filterMap.mp hp
  obtain ⟨r, -, rfl⟩ := Option.map_eq_some_iff.mp hx
  exact offsetFits_gpr r

theorem vregPlaces_fit (u : RegisterUse) :
    ∀ p ∈ u.vregPlaces, Instr.offsetFits 8 p.2 = true := by
  intro p hp
  obtain ⟨v, -, hv⟩ := List.mem_filterMap.mp hp
  obtain ⟨d, -, rfl⟩ := Option.map_eq_some_iff.mp hv
  exact offsetFits_dreg d

theorem encodable_storeToRecord (u : RegisterUse) : Encodable u.storeToRecord := by
  unfold RegisterUse.storeToRecord
  refine ((encodable_map (gprPlaces_fit u)).append (encodable_map (vregPlaces_fit u))).append ?_
  split <;> rfl

theorem encodable_loadFromRecord (u : RegisterUse) : Encodable u.loadFromRecord := by
  unfold RegisterUse.loadFromRecord
  refine ((encodable_map (gprPlaces_fit u)).append (encodable_map (vregPlaces_fit u))).append ?_
  split <;> rfl

theorem size_regSet_le (s : RegSet) : s.size ≤ 32 := by
  unfold RegSet.size RegSet.toList
  refine Nat.le_trans (List.length_filter_le _ _) (Nat.le_of_eq ?_)
  rw [List.length_map, List.length_finRange]

theorem offsetFits_mul {bytes n : Nat} (hb : 0 < bytes) (hn : n < 4096) :
    Instr.offsetFits bytes (n * bytes) = true := by
  simp only [Instr.offsetFits, Nat.mul_mod_left, beq_self_eq_true, Nat.mul_div_cancel n hb, hn,
    decide_true, Bool.and_self]

section Layout

variable (l : SpillLayout)

theorem vregSlots_fit : ∀ p ∈ l.vregSlots, Instr.offsetFits 16 p.2 = true := by
  intro p hp
  have hsize := size_regSet_le l.vregs
  obtain ⟨⟨v, i⟩, hi, rfl⟩ := List.mem_map.mp hp
  have hlt := (List.mem_zipIdx hi).2.1
  simp only [RegSet.vregs, List.length_map] at hlt
  unfold RegSet.size at hsize
  exact offsetFits_mul (by omega) (by omega)

theorem gprSlots_fit : ∀ p ∈ l.gprSlots, Instr.offsetFits 8 p.2 = true := by
  intro p hp
  have hv := size_regSet_le l.vregs
  have hg := size_regSet_le l.gprs
  obtain ⟨⟨x, i⟩, hi, rfl⟩ := List.mem_map.mp hp
  have hlt := (List.mem_zipIdx hi).2.1
  simp only [RegSet.gprs, List.length_map] at hlt
  have hbase : l.gprBase + i * 8 = (2 * l.vregs.size + i) * 8 := by
    unfold SpillLayout.gprBase
    omega
  show Instr.offsetFits 8 (l.gprBase + i * 8) = true
  rw [hbase]
  unfold RegSet.size at hg
  exact offsetFits_mul (by omega) (by omega)

theorem flagsOffset_fits : Instr.offsetFits 8 l.flagsOffset = true := by
  have hv := size_regSet_le l.vregs
  have hg := size_regSet_le l.gprs
  have hbase : l.flagsOffset = (2 * l.vregs.size + l.gprs.size) * 8 := by
    unfold SpillLayout.flagsOffset SpillLayout.gprBase
    omega
  rw [hbase]
  exact offsetFits_mul (by omega) (by omega)

theorem encodable_spill : Encodable l.spill := by
  unfold SpillLayout.spill
  refine ((encodable_map (vregSlots_fit l)).append (encodable_map (gprSlots_fit l))).append ?_
  split
  · exact encodable_cons.mpr ⟨rfl, encodable_cons.mpr ⟨flagsOffset_fits l, encodable_nil⟩⟩
  · exact encodable_nil

theorem encodable_refill : Encodable l.refill := by
  unfold SpillLayout.refill
  refine ((encodable_map (vregSlots_fit l)).append (encodable_map (gprSlots_fit l))).append ?_
  split
  · exact encodable_cons.mpr ⟨flagsOffset_fits l, rfl⟩
  · exact encodable_nil

end Layout

/-! ### Arguments -/

/-- The arguments fit the first registers, and no source is one of these. -/
structure ArgsFit (args : List CallArg) : Prop where
  count : args.length ≤ maxCallArgs
  sources : ∀ x, .reg x ∈ args → maxCallArgs ≤ x.index

theorem placement_fits (i : Nat) (args : List CallArg) (hn : i + args.length ≤ maxCallArgs)
    (hsrc : ∀ x, .reg x ∈ args → maxCallArgs ≤ x.index) : (placement i args).2 = none := by
  induction args generalizing i with
  | nil => rfl
  | cons a args ih =>
    rw [List.length_cons] at hn
    have hnone := ih (i + 1) (by omega) fun x hx => hsrc x (List.mem_cons_of_mem _ hx)
    cases a with
    | imm value => exact hnone
    | reg source =>
      have hindex := hsrc source List.mem_cons_self
      have hlt : ¬ source.index < i := by omega
      simp only [placement]
      by_cases hs : source = .ofNat i
      · simp only [hs, if_true]
        exact hnone
      · simp only [hs, if_false, hlt]
        exact hnone

theorem encodable_placement (i : Nat) (args : List CallArg) : Encodable (placement i args).1 := by
  induction args generalizing i with
  | nil => exact encodable_nil
  | cons a args ih =>
    cases a with
    | imm value => exact (encodable_loadDWord _ _).append (ih (i + 1))
    | reg source =>
      simp only [placement]
      split
      · exact ih (i + 1)
      · split
        · exact encodable_nil
        · exact encodable_cons.mpr ⟨rfl, ih (i + 1)⟩

theorem placeArgs_yields {e : Setting} {s : Emission} (args : List CallArg) :
    Yields (placeArgs args) e s (args.length ≤ maxCallArgs ∧ (placement 0 args).2 = none) ()
      (s.extend (ops (placement 0 args).1)) := by
  unfold placeArgs
  by_cases hcount : args.length > maxCallArgs
  · simp only [hcount, if_true]
    exact (Yields.of_error (bind_run_error rfl)).congr
      (iff_of_false id fun h => absurd h.1 (Nat.not_le.mpr hcount))
  · simp only [hcount, if_false]
    refine (Yields.after (asm_run (encodable_placement 0 args) e s) ?_).congr
      (and_iff_right (Nat.not_lt.mp hcount)).symm
    cases hplaced : (placement 0 args).2 with
    | none => exact (Yields.of_run (run_pure e _ ())).congr (iff_of_true trivial rfl)
    | some source => exact (Yields.of_error rfl).congr (iff_of_false id nofun)

/-! ### Calls -/

/-- What is kept on the stack before a call. -/
def CallTier.save (shape : Shape) (u : RegisterUse) : CallTier → List Host.Instr
  | .full => (SpillLayout.compute u shape).spill
  | .skipContext => [.stp .context .pageTable .sp 0]

/-- What is taken back from the stack behind a call. -/
def CallTier.restore (shape : Shape) (u : RegisterUse) : CallTier → List Host.Instr
  | .full => (SpillLayout.compute u shape).refill
  | .skipContext => [.ldp .context .pageTable .sp 0]

/-- The instructions of a host call up to the call itself. -/
def beforeCallOps (shape : Shape) (u : RegisterUse) (tier : CallTier) (callee : Callee)
    (args : List CallArg) : List Host.Instr :=
  u.storeToRecord ++ tier.save shape u ++ (placement 0 args).1 ++ callee.load.2

/-- The instructions of a host call. -/
def hostCallOps (shape : Shape) (u : RegisterUse) (tier : CallTier) (callee : Callee)
    (args : List CallArg) (after : List Host.Instr) : List Host.Instr :=
  beforeCallOps shape u tier callee args ++ .blr callee.load.1 :: after ++
    tier.restore shape u ++ u.loadFromRecord

theorem encodable_save (shape : Shape) (u : RegisterUse) (tier : CallTier) :
    Encodable (tier.save shape u) := by
  cases tier with
  | full => exact encodable_spill _
  | skipContext => rfl

theorem encodable_restore (shape : Shape) (u : RegisterUse) (tier : CallTier) :
    Encodable (tier.restore shape u) := by
  cases tier with
  | full => exact encodable_refill _
  | skipContext => rfl

theorem encodable_calleeLoad (callee : Callee) : Encodable callee.load.2 := by
  cases callee with
  | helper address => exact encodable_loadDWord _ _
  | register x => exact encodable_nil

/-- The arguments of a call find their places, and none of them overwrites the callee. -/
structure CallFits (callee : Callee) (args : List CallArg) : Prop where
  count : args.length ≤ maxCallArgs
  placed : (placement 0 args).2 = none
  callee : ∀ x, callee = .register x → args.length ≤ x.index

theorem callFits_of_argsFit {callee : Callee} {args : List CallArg} (hargs : ArgsFit args)
    (hcallee : ∀ x, callee = .register x → args.length ≤ x.index) : CallFits callee args :=
  ⟨hargs.count, placement_fits 0 args (by rw [Nat.zero_add]; exact hargs.count) hargs.sources,
    hcallee⟩

/-- A call ends well exactly if its arguments fit. -/
theorem hostCall_yields {e : Setting} {s : Emission} (tier : CallTier) (callee : Callee)
    (args : List CallArg) {after : List Host.Instr} (hafter : Encodable after) :
    Yields (hostCall tier callee args (asm after)) e s (CallFits callee args) ()
      (s.extend (ops (hostCallOps e.shape s.regs tier callee args after))) := by
  have hload : Encodable (callee.load.2 ++ [.blr callee.load.1]) :=
    (encodable_calleeLoad callee).append rfl
  -- The call with its guard passed and the stack instructions named by the tier.
  have hrest : Yields (asm s.regs.storeToRecord >>= fun _ =>
        asm (tier.save e.shape s.regs) >>= fun _ =>
        placeArgs args >>= fun _ => asm (callee.load.2 ++ [.blr callee.load.1]) >>= fun _ =>
        asm after >>= fun _ => asm (tier.restore e.shape s.regs) >>= fun _ =>
        get >>= fun t => asm t.regs.loadFromRecord) e s
      (args.length ≤ maxCallArgs ∧ (placement 0 args).2 = none) ()
      (s.extend (ops (hostCallOps e.shape s.regs tier callee args after))) := by
    refine Yields.after (asm_run (encodable_storeToRecord s.regs) e _) ?_
    refine Yields.after (asm_run (encodable_save e.shape s.regs tier) e _) ?_
    refine (placeArgs_yields args).before ?_
    refine (bind_run_ok (asm_run hload e _)).trans ?_
    refine (bind_run_ok (asm_run hafter e _)).trans ?_
    refine (bind_run_ok (asm_run (encodable_restore e.shape s.regs tier) e _)).trans ?_
    refine (bind_run_ok (run_get e _)).trans ?_
    refine (asm_run (encodable_loadFromRecord s.regs) e _).trans ?_
    simp only [Emission.extend_extend, ← ops_append, hostCallOps, beforeCallOps, List.append_assoc,
      List.cons_append, List.nil_append]
  cases callee with
  | helper address =>
    refine (Yields.of_eq ?_ hrest).congr ⟨fun h => ⟨h.1, h.2, nofun⟩, fun h => ⟨h.count, h.placed⟩⟩
    cases tier <;> rfl
  | register x =>
    by_cases hx : x.index < args.length
    · have hrun : hostCall tier (.register x) args (asm after) e s =
          .error (.error (.argumentClobbered x)) s := by
        unfold hostCall
        simp only [hx, if_true]
        rfl
      refine (Yields.of_error hrun).congr (iff_of_false id fun h => ?_)
      exact absurd (h.callee x rfl) (Nat.not_le.mpr hx)
    · refine (Yields.of_eq ?_ hrest).congr ⟨fun h => ⟨h.1, h.2, fun y hy => ?_⟩,
        fun h => ⟨h.count, h.placed⟩⟩
      · unfold hostCall
        simp only [hx, if_false]
        cases tier <;> rfl
      · cases hy
        exact Nat.not_lt.mp hx

theorem hostCall_run {e : Setting} {s : Emission} (tier : CallTier) {callee : Callee}
    {args : List CallArg} {after : List Host.Instr} (hargs : ArgsFit args)
    (hcallee : ∀ x, callee = .register x → args.length ≤ x.index) (hafter : Encodable after) :
    hostCall tier callee args (asm after) e s =
      .ok () (s.extend (ops (hostCallOps e.shape s.regs tier callee args after))) :=
  (hostCall_yields tier callee args hafter).run (callFits_of_argsFit hargs hcallee)

end Dynarec.Emit
