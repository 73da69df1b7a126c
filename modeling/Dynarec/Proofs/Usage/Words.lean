import Dynarec.Proofs.Machine.Operands
import Dynarec.Proofs.Run.Call

/-! # What words of a unit touch

Between its prologue and its trailer a unit reads and writes the temporary registers and the guest
registers in use. Beyond them it reads the two fixed pointers, uses the stack in its spill area
only, and leaves the execution counter to the checks of loops. -/

namespace Dynarec.Emit

open Host

/-- The unit may change the register between its prologue and its trailer. -/
def RegisterUse.Takes (u : RegisterUse) (x : Host.Gpr) : Prop :=
  x.isSpare = true ∨ ∃ r : Guest.Gpr, r.isPc = false ∧ u.Holds r ∧ x = pinned r

/-- The unit may read the register as an operand or as a base. -/
def RegisterUse.Sees (u : RegisterUse) (x : Host.Gpr) : Prop := u.Takes x ∨ 27 ≤ x.index

def RegisterUse.TakesV (u : RegisterUse) (v : Vreg) : Prop := v = ⟨0⟩ ∨ ∃ d, u.HasD d v

/-- Memory from `offset` on of the record that is not its execution counter. -/
def Record.Spares (offset n : Nat) : Prop :=
  offset + n ≤ Record.execCounter ∨ Record.execCounter + 4 ≤ offset

end Dynarec.Emit

namespace Dynarec.Host

open Dynarec.Emit

/-- The instruction keeps within the registers in use and a spill area of `bytes` bytes. -/
structure Instr.Confined (u : RegisterUse) (bytes : Nat) (i : Instr) : Prop where
  reads : ∀ x ∈ i.reads, u.Sees x
  writes : ∀ x ∈ i.writes, u.Takes x
  vregs : ∀ v ∈ i.vreads ++ i.vwrites, u.TakesV v
  flags : (i.readsFlags || i.writesFlags) = true → u.usesFlags = true
  stack : ∀ offset n, i.access? = some (.sp, offset, n) → 0 ≤ offset ∧ offset + n ≤ bytes
  counter : ∀ offset n, i.access? = some (.context, offset, n) →
    ∃ k : Nat, offset = k ∧ Record.Spares k n

/-- All the instructions keep within the registers in use and the spill area. -/
def Confined (u : RegisterUse) (bytes : Nat) (is : List Instr) : Prop := ∀ i ∈ is, i.Confined u bytes

section Lists

variable {u : RegisterUse} {bytes : Nat} {i : Instr} {is js : List Instr}

theorem confined_nil : Confined u bytes [] := fun _ hi => absurd hi List.not_mem_nil

theorem confined_cons : Confined u bytes (i :: is) ↔ i.Confined u bytes ∧ Confined u bytes is :=
  List.forall_mem_cons

theorem confined_singleton : Confined u bytes [i] ↔ i.Confined u bytes := List.forall_mem_singleton

theorem Confined.append (h : Confined u bytes is) (h' : Confined u bytes js) :
    Confined u bytes (is ++ js) :=
  List.forall_mem_append.mpr ⟨h, h'⟩

theorem confined_map {α : Type} {xs : List α} {f : α → Instr} (h : ∀ x ∈ xs, (f x).Confined u bytes) :
    Confined u bytes (xs.map f) := List.forall_mem_map.mpr h

end Lists

section Instrs

variable {u : RegisterUse} {bytes : Nat} {x y z : Gpr} {v : Vreg} {offset : Nat}

theorem sees_operand (h : u.Sees x) : ∀ q ∈ x.operand, u.Sees q := by
  intro q hq
  rw [(Gpr.mem_operand.mp hq).1]
  exact h

theorem sees_operands (hx : u.Sees x) (hy : u.Sees y) : ∀ q ∈ x.operand ++ y.operand, u.Sees q :=
  List.forall_mem_append.mpr ⟨sees_operand hx, sees_operand hy⟩

theorem takes_of_isSpare (h : x.isSpare = true) : u.Takes x := .inl h

theorem sees_of_isSpare (h : x.isSpare = true) : u.Sees x := .inl (.inl h)

theorem takes_pinned {r : Guest.Gpr} (hpc : r.isPc = false) (h : u.Holds r) : u.Takes (pinned r) :=
  .inr ⟨r, hpc, h, rfl⟩

/-- Writing an operand that the unit owns, or that is no register. -/
theorem takes_operand (h : u.Takes x ∨ x = .zr) : ∀ q ∈ x.operand, u.Takes q := by
  intro q hq
  obtain ⟨rfl, hne⟩ := Gpr.mem_operand.mp hq
  exact h.resolve_right hne

theorem nothing_of_nil {α : Type} {P : α → Prop} : ∀ a ∈ ([] : List α), P a :=
  fun _ ha => absurd ha List.not_mem_nil

/-- An instruction on general registers alone. -/
theorem confined_plain {i : Instr} (hr : ∀ q ∈ i.reads, u.Sees q)
    (hw : ∀ q ∈ i.writes, u.Takes q) (hv : i.vreads ++ i.vwrites = [])
    (hf : (i.readsFlags || i.writesFlags) = false)
    (ha : i.access? = none) : i.Confined u bytes := by
  refine ⟨hr, hw, fun v hmem => ?_, fun hflags => ?_, fun offset n haccess => ?_,
    fun offset n haccess => ?_⟩
  · rw [hv] at hmem
    exact absurd hmem List.not_mem_nil
  · rw [hf] at hflags
    cases hflags
  · rw [ha] at haccess
    cases haccess
  · rw [ha] at haccess
    cases haccess

theorem confined_data {op : DataOp} {width : Width} (hd : u.Takes x ∨ x = .zr) (hn : u.Sees y)
    (hm : u.Sees z) (hf : (op.readsFlags || op.setsFlags) = true → u.usesFlags = true) :
    (Instr.data op width x y z).Confined u bytes :=
  ⟨sees_operands hn hm, takes_operand hd, nothing_of_nil, hf, nofun, nofun⟩

theorem confined_mov {width : Width} (hd : u.Takes x) (hm : u.Sees y) :
    (Instr.mov width x y).Confined u bytes :=
  confined_data (.inl hd) (.inr (Nat.le_of_ble_eq_true rfl)) hm nofun

/-! ### The record -/

theorem sees_context : u.Sees .context := .inr (Nat.le_refl _)

theorem confined_str (hx : u.Sees x) (ho : Record.Spares offset 4) :
    (Instr.str .w x .context offset).Confined u bytes := by
  refine ⟨List.forall_mem_cons.mpr ⟨sees_context, sees_operand hx⟩, nothing_of_nil, nothing_of_nil,
    nofun, nofun, fun o n h => ?_⟩
  cases h
  exact ⟨offset, rfl, ho⟩

theorem confined_ldr (hx : u.Takes x) (ho : Record.Spares offset 4) :
    (Instr.ldr .w x .context offset).Confined u bytes := by
  refine ⟨List.forall_mem_cons.mpr ⟨sees_context, nothing_of_nil⟩, takes_operand (.inl hx),
    nothing_of_nil, nofun, nofun, fun o n h => ?_⟩
  cases h
  exact ⟨offset, rfl, ho⟩

theorem confined_strV (hv : u.TakesV v) (ho : Record.Spares offset 8) :
    (Instr.strV .d v .context offset).Confined u bytes := by
  refine ⟨List.forall_mem_cons.mpr ⟨sees_context, nothing_of_nil⟩, nothing_of_nil,
    List.forall_mem_cons.mpr ⟨hv, nothing_of_nil⟩, nofun, nofun, fun o n h => ?_⟩
  cases h
  exact ⟨offset, rfl, ho⟩

theorem confined_ldrV (hv : u.TakesV v) (ho : Record.Spares offset 8) :
    (Instr.ldrV .d v .context offset).Confined u bytes := by
  refine ⟨List.forall_mem_cons.mpr ⟨sees_context, nothing_of_nil⟩, nothing_of_nil,
    List.forall_mem_cons.mpr ⟨hv, nothing_of_nil⟩, nofun, nofun, fun o n h => ?_⟩
  cases h
  exact ⟨offset, rfl, ho⟩

/-! ### The stack -/

theorem sees_sp : u.Sees .sp := .inr (Nat.le_of_ble_eq_true rfl)

theorem confined_strSp (hx : u.Sees x) (ho : offset + 8 ≤ bytes) :
    (Instr.str .x x .sp offset).Confined u bytes := by
  refine ⟨List.forall_mem_cons.mpr ⟨sees_sp, sees_operand hx⟩, nothing_of_nil, nothing_of_nil,
    nofun, fun o n h => ?_, nofun⟩
  cases h
  exact ⟨Int.natCast_nonneg _, Int.ofNat_le.mpr ho⟩

theorem confined_ldrSp (hx : u.Takes x) (ho : offset + 8 ≤ bytes) :
    (Instr.ldr .x x .sp offset).Confined u bytes := by
  refine ⟨List.forall_mem_cons.mpr ⟨sees_sp, nothing_of_nil⟩, takes_operand (.inl hx),
    nothing_of_nil, nofun, fun o n h => ?_, nofun⟩
  cases h
  exact ⟨Int.natCast_nonneg _, Int.ofNat_le.mpr ho⟩

theorem confined_strVSp (hv : u.TakesV v) (ho : offset + 16 ≤ bytes) :
    (Instr.strV .q v .sp offset).Confined u bytes := by
  refine ⟨List.forall_mem_cons.mpr ⟨sees_sp, nothing_of_nil⟩, nothing_of_nil,
    List.forall_mem_cons.mpr ⟨hv, nothing_of_nil⟩, nofun, fun o n h => ?_, nofun⟩
  cases h
  exact ⟨Int.natCast_nonneg _, Int.ofNat_le.mpr ho⟩

theorem confined_ldrVSp (hv : u.TakesV v) (ho : offset + 16 ≤ bytes) :
    (Instr.ldrV .q v .sp offset).Confined u bytes := by
  refine ⟨List.forall_mem_cons.mpr ⟨sees_sp, nothing_of_nil⟩, nothing_of_nil,
    List.forall_mem_cons.mpr ⟨hv, nothing_of_nil⟩, nofun, fun o n h => ?_, nofun⟩
  cases h
  exact ⟨Int.natCast_nonneg _, Int.ofNat_le.mpr ho⟩

/-! ### Flags, branches and constants -/

theorem confined_mrs (hx : u.Takes x) (hu : u.usesFlags = true) :
    (Instr.mrsFlags x).Confined u bytes :=
  ⟨nothing_of_nil, takes_operand (.inl hx), nothing_of_nil, fun _ => hu, nofun, nofun⟩

theorem confined_msr (hx : u.Sees x) (hu : u.usesFlags = true) :
    (Instr.msrFlags x).Confined u bytes :=
  ⟨sees_operand hx, nothing_of_nil, nothing_of_nil, fun _ => hu, nofun, nofun⟩

theorem confined_b (disp : Int) : (Instr.b disp).Confined u bytes :=
  confined_plain nothing_of_nil nothing_of_nil rfl rfl rfl

theorem confined_nop : Instr.nop.Confined u bytes :=
  confined_plain nothing_of_nil nothing_of_nil rfl rfl rfl

theorem confined_bCond {c : Cond} {disp : Int} (hu : u.usesFlags = true) :
    (Instr.bCond c disp).Confined u bytes :=
  ⟨nothing_of_nil, nothing_of_nil, nothing_of_nil, fun _ => hu, nofun, nofun⟩

theorem confined_loadWord (hx : u.Takes x) (value : Word) : Confined u bytes (loadWord x value) := by
  have hmovz : ∀ imm part, (Instr.movz .w x imm part).Confined u bytes :=
    fun imm part => confined_plain nothing_of_nil (takes_operand (.inl hx)) rfl rfl rfl
  unfold loadWord
  dsimp only
  split
  · exact confined_singleton.mpr (hmovz _ _)
  · split
    · exact confined_singleton.mpr (hmovz _ _)
    · exact confined_cons.mpr ⟨hmovz _ _, confined_singleton.mpr (confined_plain
        (sees_operand (.inl hx)) (takes_operand (.inl hx)) rfl rfl rfl)⟩

theorem confined_loadDWord (hx : u.Takes x) (value : DWord) :
    Confined u bytes (loadDWord x value) := by
  have hmovz : ∀ imm part, (Instr.movz .x x imm part).Confined u bytes :=
    fun imm part => confined_plain nothing_of_nil (takes_operand (.inl hx)) rfl rfl rfl
  unfold loadDWord
  split
  · exact confined_singleton.mpr (hmovz _ _)
  · exact confined_cons.mpr ⟨hmovz _ _, confined_map fun p _ => confined_plain
      (sees_operand (.inl hx)) (takes_operand (.inl hx)) rfl rfl rfl⟩

end Instrs

end Dynarec.Host

namespace Dynarec.Emit

open Host

variable {u : RegisterUse} {bytes : Nat}

theorem spares_gpr (r : Guest.Gpr) : Record.Spares (Record.gpr r) 4 :=
  .inl (Nat.le_trans (Record.gpr_le r) (Nat.le_of_ble_eq_true rfl))

theorem spares_dreg (d : Guest.Dreg) : Record.Spares (Record.dreg d) 8 :=
  .inl (Nat.le_trans (Record.dreg_bounds d).2 (Nat.le_of_ble_eq_true rfl))

theorem spares_nzcv : Record.Spares Record.nzcv 4 := .inl (Nat.le_of_ble_eq_true rfl)

theorem spares_dispatchAddress : Record.Spares Record.dispatchAddress 4 := .inr (Nat.le_refl _)

theorem confined_storeToRecord (u : RegisterUse) : Confined u bytes u.storeToRecord := by
  unfold RegisterUse.storeToRecord
  refine ((confined_map fun p hp => ?_).append (confined_map fun p hp => ?_)).append ?_
  · obtain ⟨r, hpc, hr, rfl⟩ := RegisterUse.mem_gprPlaces.mp hp
    exact confined_str (.inl (takes_pinned hpc hr)) (spares_gpr r)
  · obtain ⟨d, v, hd, rfl⟩ := RegisterUse.mem_vregPlaces.mp hp
    exact confined_strV (.inr ⟨d, hd⟩) (spares_dreg d)
  · split
    · rename_i hu
      exact confined_cons.mpr ⟨confined_mrs (takes_of_isSpare rfl) hu,
        confined_singleton.mpr (confined_str (sees_of_isSpare rfl) spares_nzcv)⟩
    · exact confined_nil

theorem confined_loadFromRecord (u : RegisterUse) : Confined u bytes u.loadFromRecord := by
  unfold RegisterUse.loadFromRecord
  refine ((confined_map fun p hp => ?_).append (confined_map fun p hp => ?_)).append ?_
  · obtain ⟨r, hpc, hr, rfl⟩ := RegisterUse.mem_gprPlaces.mp hp
    exact confined_ldr (takes_pinned hpc hr) (spares_gpr r)
  · obtain ⟨d, v, hd, rfl⟩ := RegisterUse.mem_vregPlaces.mp hp
    exact confined_ldrV (.inr ⟨d, hd⟩) (spares_dreg d)
  · split
    · rename_i hu
      exact confined_cons.mpr ⟨confined_ldr (takes_of_isSpare rfl) spares_nzcv,
        confined_singleton.mpr (confined_msr (sees_of_isSpare rfl) hu)⟩
    · exact confined_nil

/-! ### Exits -/

theorem confined_addressOps (guest : Word) : Confined u bytes (addressOps guest) :=
  (confined_loadWord (takes_of_isSpare rfl) guest).append
    (confined_singleton.mpr (confined_str (sees_of_isSpare rfl) spares_dispatchAddress))

theorem confined_dispatchOps (e : Setting) (guest : Option Word) :
    Confined u bytes (dispatchOps e guest) := by
  unfold dispatchOps
  split
  · refine (confined_loadDWord (takes_of_isSpare rfl) _).append (confined_singleton.mpr ?_)
    exact ⟨List.forall_mem_singleton.mpr (sees_of_isSpare rfl),
      takes_operand (.inl (takes_of_isSpare rfl)), nothing_of_nil, nofun, nofun, nofun⟩
  · exact confined_loadDWord (takes_of_isSpare rfl) _

/-! ### Host calls -/

/-- The bytes of the spill area that a call needs. -/
def CallTier.needs (shape : Shape) (u : RegisterUse) : CallTier → Nat
  | .full => (SpillLayout.compute u shape).used
  | .skipContext => SpillLayout.skipBytes

section Calls

variable {shape : Shape} {tier : CallTier} (hb : tier.needs shape u ≤ bytes)

theorem takes_spilled : ∀ p ∈ (SpillLayout.compute u shape).gprSlots, u.Takes p.1 := by
  intro p hp
  obtain ⟨r, hpc, hr, hq⟩ := SpillLayout.holds_of_spilled (SpillLayout.fst_mem_gprs _ p hp)
  exact .inr ⟨r, hpc, hr, hq⟩

theorem takesV_spilled : ∀ p ∈ (SpillLayout.compute u shape).vregSlots, u.TakesV p.1 :=
  fun p hp => .inr (SpillLayout.hasD_of_spilled (SpillLayout.fst_mem_vregs _ p hp))

theorem usesFlags_of_spilled (h : (SpillLayout.compute u shape).flags = true) :
    u.usesFlags = true := (Bool.and_eq_true_iff.mp h).2

include hb

theorem confined_save : Confined u bytes (tier.save shape u) := by
  cases tier with
  | skipContext =>
    refine confined_singleton.mpr ⟨List.forall_mem_cons.mpr ⟨sees_sp, sees_operands sees_context ?_⟩,
      nothing_of_nil, nothing_of_nil, nofun, fun o n h => ?_, nofun⟩
    · exact .inr (Nat.le_of_ble_eq_true rfl)
    · cases h
      exact ⟨Int.le_refl _, Int.ofNat_le.mpr hb⟩
  | full =>
    have hused : (SpillLayout.compute u shape).used ≤ bytes := hb
    refine ((confined_map fun p hp => ?_).append (confined_map fun p hp => ?_)).append ?_
    · refine confined_strVSp (takesV_spilled p hp) ?_
      have hle := SpillLayout.vregSlots_le _ p hp
      unfold SpillLayout.used SpillLayout.flagsOffset SpillLayout.gprBase at hused
      omega
    · refine confined_strSp (.inl (takes_spilled p hp)) ?_
      have hle := SpillLayout.gprSlots_le _ p hp
      unfold SpillLayout.used at hused
      omega
    · split
      · rename_i hf
        unfold SpillLayout.used at hused
        rw [if_pos hf] at hused
        exact confined_cons.mpr ⟨confined_mrs (takes_of_isSpare rfl) (usesFlags_of_spilled hf),
          confined_singleton.mpr (confined_strSp (sees_of_isSpare rfl) hused)⟩
      · exact confined_nil

omit hb in
theorem confined_refill (hused : (SpillLayout.compute u shape).used ≤ bytes) :
    Confined u bytes (SpillLayout.compute u shape).refill := by
  refine ((confined_map fun p hp => ?_).append (confined_map fun p hp => ?_)).append ?_
  · refine confined_ldrVSp (takesV_spilled p hp) ?_
    have hle := SpillLayout.vregSlots_le _ p hp
    unfold SpillLayout.used SpillLayout.flagsOffset SpillLayout.gprBase at hused
    omega
  · refine confined_ldrSp (takes_spilled p hp) ?_
    have hle := SpillLayout.gprSlots_le _ p hp
    unfold SpillLayout.used at hused
    omega
  · split
    · rename_i hf
      unfold SpillLayout.used at hused
      rw [if_pos hf] at hused
      exact confined_cons.mpr ⟨confined_ldrSp (takes_of_isSpare rfl) hused,
        confined_singleton.mpr (confined_msr (sees_of_isSpare rfl) (usesFlags_of_spilled hf))⟩
    · exact confined_nil

omit hb in
/-- Arguments go to the first registers. -/
theorem confined_placement (i : Nat) {args : List CallArg} (hn : i + args.length ≤ maxCallArgs)
    (hsrc : ∀ x, .reg x ∈ args → u.Sees x) : Confined u bytes (placement i args).1 := by
  induction args generalizing i with
  | nil => exact confined_nil
  | cons a args ih =>
    rw [List.length_cons] at hn
    have hrest := ih (i + 1) (by omega) fun x hx => hsrc x (List.mem_cons_of_mem _ hx)
    have hspare : u.Takes (.ofNat i) := by
      have hi : i < 9 := Nat.lt_of_lt_of_le (by omega) (show maxCallArgs + 1 ≤ 9 from by decide)
      refine takes_of_isSpare (Gpr.isSpare_iff.mpr (.inl ?_))
      rw [Gpr.index_ofNat (by omega)]
      exact hi
    cases a with
    | imm value => exact (confined_loadDWord hspare value).append hrest
    | reg source =>
      simp only [placement]
      split
      · exact hrest
      · split
        · exact confined_nil
        · exact confined_cons.mpr ⟨confined_mov hspare (hsrc source List.mem_cons_self), hrest⟩

/-- A call up to the call itself, if its arguments are what the unit may read. -/
theorem confined_beforeCallOps (callee : Callee) {args : List CallArg}
    (hn : args.length ≤ maxCallArgs) (hsrc : ∀ x, .reg x ∈ args → u.Sees x) :
    Confined u bytes (beforeCallOps shape u tier callee args) := by
  have hload : Confined u bytes callee.load.2 := by
    cases callee with
    | helper address => exact confined_loadDWord (takes_of_isSpare rfl) address
    | register x => exact confined_nil
  exact (((confined_storeToRecord u).append (confined_save hb)).append
    (confined_placement 0 (by rwa [Nat.zero_add]) hsrc)).append hload

end Calls

end Dynarec.Emit
