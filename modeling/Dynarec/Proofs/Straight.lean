import Dynarec.Emit.Frame
import Dynarec.Proofs.Emission.Call
import Dynarec.Proofs.Host.Decode
import Dynarec.Proofs.Lower.Listing

/-! # Sequences without branches

Almost all that is emitted are sequences that control runs through from front to back. Each of
their instructions fits its fields, so the host reads it back, and leads to the next word. -/

namespace Dynarec.Host

namespace Instr

/-- Whether control leaves the code here. -/
def leaves : Instr → Bool
  | br _ | ret | brk _ => true
  | _ => false

/-- Whether control can pass on to the next word. A call comes back to it. -/
def falls : Instr → Bool
  | b _ => false
  | i => !i.leaves

/-- Whether the instruction is read back and always leads to the next word. -/
def isStraight (i : Instr) : Bool := i.isCanonical && i.disp?.isNone && !i.leaves

end Instr

/-- Every instruction of a list leads to the next. -/
def Straight (is : List Instr) : Prop := is.all Instr.isStraight = true

theorem straight_iff {is : List Instr} : Straight is ↔ ∀ i ∈ is, i.isStraight = true :=
  List.all_eq_true

@[simp] theorem straight_nil : Straight [] := rfl

@[simp] theorem straight_cons {i : Instr} {is : List Instr} :
    Straight (i :: is) ↔ i.isStraight = true ∧ Straight is := by
  unfold Straight
  rw [List.all_cons, Bool.and_eq_true]

theorem Straight.append {is js : List Instr} (hi : Straight is) (hj : Straight js) :
    Straight (is ++ js) := by
  unfold Straight at *
  rw [List.all_append, hi, hj, Bool.true_and]

theorem straight_map {α : Type} {xs : List α} {f : α → Instr}
    (h : ∀ x ∈ xs, (f x).isStraight = true) : Straight (xs.map f) := by
  rw [straight_iff]
  intro i hi
  obtain ⟨x, hx, rfl⟩ := List.mem_map.mp hi
  exact h x hx

theorem isStraight_iff {i : Instr} :
    i.isStraight = true ↔ i.isCanonical = true ∧ i.disp? = none ∧ i.leaves = false := by
  simp only [Instr.isStraight, Bool.and_eq_true, Option.isNone_iff_eq_none, Bool.not_eq_true',
    and_assoc]

theorem falls_of_straight {i : Instr} (h : i.isStraight = true) : i.falls = true := by
  obtain ⟨-, hd, hl⟩ := isStraight_iff.mp h
  unfold Instr.falls
  split
  · cases hd
  · rw [hl]
    rfl

theorem straight_loadWord (x : Gpr) (v : Word) : Straight (loadWord x v) := by
  unfold loadWord
  dsimp only
  split
  · rfl
  · split <;> rfl

theorem straight_loadDWord (x : Gpr) (v : DWord) : Straight (loadDWord x v) := by
  unfold loadDWord
  split
  · rfl
  · exact straight_cons.mpr ⟨rfl, straight_map fun p _ => rfl⟩

end Dynarec.Host

namespace Dynarec.Emit

open Dynarec.Host

/-! ### Exits and the record -/

theorem straight_addressOps (a : Word) : Straight (addressOps a) :=
  (straight_loadWord _ _).append rfl

theorem straight_dispatchOps (e : Setting) (guest : Option Word) : Straight (dispatchOps e guest) := by
  unfold dispatchOps
  split
  · exact (straight_loadDWord _ _).append rfl
  · exact straight_loadDWord _ _

theorem straight_storeToRecord (u : RegisterUse) : Straight u.storeToRecord := by
  unfold RegisterUse.storeToRecord
  refine ((straight_map ?_).append (straight_map ?_)).append ?_
  · exact fun p hp => isStraight_iff.mpr ⟨gprPlaces_fit u p hp, rfl, rfl⟩
  · exact fun p hp => isStraight_iff.mpr ⟨vregPlaces_fit u p hp, rfl, rfl⟩
  · split <;> rfl

theorem straight_loadFromRecord (u : RegisterUse) : Straight u.loadFromRecord := by
  unfold RegisterUse.loadFromRecord
  refine ((straight_map ?_).append (straight_map ?_)).append ?_
  · exact fun p hp => isStraight_iff.mpr ⟨gprPlaces_fit u p hp, rfl, rfl⟩
  · exact fun p hp => isStraight_iff.mpr ⟨vregPlaces_fit u p hp, rfl, rfl⟩
  · split <;> rfl

/-! ### Host calls -/

theorem straight_save (shape : Shape) (u : RegisterUse) (tier : CallTier) :
    Straight (tier.save shape u) := by
  cases tier with
  | skipContext => rfl
  | full =>
    refine ((straight_map ?_).append (straight_map ?_)).append ?_
    · exact fun p hp => isStraight_iff.mpr ⟨vregSlots_fit _ p hp, rfl, rfl⟩
    · exact fun p hp => isStraight_iff.mpr ⟨gprSlots_fit _ p hp, rfl, rfl⟩
    · split
      · exact straight_cons.mpr ⟨rfl, straight_cons.mpr
          ⟨isStraight_iff.mpr ⟨flagsOffset_fits _, rfl, rfl⟩, straight_nil⟩⟩
      · rfl

theorem straight_restore (shape : Shape) (u : RegisterUse) (tier : CallTier) :
    Straight (tier.restore shape u) := by
  cases tier with
  | skipContext => rfl
  | full =>
    refine ((straight_map ?_).append (straight_map ?_)).append ?_
    · exact fun p hp => isStraight_iff.mpr ⟨vregSlots_fit _ p hp, rfl, rfl⟩
    · exact fun p hp => isStraight_iff.mpr ⟨gprSlots_fit _ p hp, rfl, rfl⟩
    · split
      · exact straight_cons.mpr ⟨isStraight_iff.mpr ⟨flagsOffset_fits _, rfl, rfl⟩, rfl⟩
      · rfl

theorem straight_placement (i : Nat) (args : List CallArg) : Straight (placement i args).1 := by
  induction args generalizing i with
  | nil => rfl
  | cons a args ih =>
    cases a with
    | imm value => exact (straight_loadDWord _ _).append (ih (i + 1))
    | reg source =>
      simp only [placement]
      split
      · exact ih (i + 1)
      · split
        · rfl
        · exact straight_cons.mpr ⟨rfl, ih (i + 1)⟩

theorem straight_beforeCallOps (shape : Shape) (u : RegisterUse) (tier : CallTier)
    (callee : Callee) (args : List CallArg) :
    Straight (beforeCallOps shape u tier callee args) := by
  have hload : Straight callee.load.2 := by
    cases callee with
    | helper address => exact straight_loadDWord _ _
    | register x => rfl
  exact (((straight_storeToRecord u).append (straight_save shape u tier)).append
    (straight_placement 0 args)).append hload

theorem straight_hostCallOps (shape : Shape) (u : RegisterUse) (tier : CallTier) (callee : Callee)
    (args : List CallArg) {after : List Host.Instr} (h : Straight after) :
    Straight (hostCallOps shape u tier callee args after) :=
  (((straight_beforeCallOps shape u tier callee args).append (straight_cons.mpr ⟨rfl, h⟩)).append
    (straight_restore shape u tier)).append (straight_loadFromRecord u)

/-! ### Frames -/

theorem straight_pushGprs (xs : List Host.Gpr) : Straight (Frame.pushGprs xs) := by
  fun_induction Frame.pushGprs xs with
  | case1 x y rest ih => exact straight_cons.mpr ⟨rfl, ih⟩
  | case2 x => rfl
  | case3 => rfl

theorem straight_popGprs (xs : List Host.Gpr) : Straight (Frame.popGprs xs) := by
  fun_induction Frame.popGprs xs with
  | case1 x y rest ih => exact ih.append rfl
  | case2 x => rfl
  | case3 => rfl

theorem straight_spillMove (f : Frame) {move : Host.Gpr → Host.Gpr → BitVec 12 → Host.Instr}
    (h : ∀ x y imm, (move x y imm).isStraight = true) : Straight (f.spillMove move) := by
  unfold Frame.spillMove
  split
  · exact straight_cons.mpr ⟨h _ _ _, straight_nil⟩
  · rfl

theorem straight_prologue (f : Frame) (u : RegisterUse) : Straight (f.prologue u) := by
  have hrecord : Straight [.stpPre .fp .lr .sp (-16), .addImm .x .fp .sp 0] := rfl
  have hpointers : Straight [.mov .x .context (.ofNat 0), .mov .x .pageTable (.ofNat 1)] := rfl
  have hpush : Straight f.push :=
    ((hrecord.append (straight_pushGprs _)).append (straight_map fun _ _ => rfl)).append
      (straight_spillMove f fun _ _ _ => rfl)
  exact (hpush.append hpointers).append (straight_loadFromRecord u)

/-- All of a trailer but its jump. -/
def trailerOps (f : Frame) (u : RegisterUse) : List Host.Instr :=
  u.storeToRecord ++ [.mov .x (.ofNat 0) .context, .mov .x (.ofNat 1) .pageTable] ++ f.pop

theorem trailer_eq (f : Frame) (u : RegisterUse) : f.trailer u = trailerOps f u ++ [.br .dispatch] :=
  rfl

theorem straight_trailerOps (f : Frame) (u : RegisterUse) : Straight (trailerOps f u) := by
  have hrecord : Straight [.ldpPost .fp .lr .sp 16] := rfl
  have hpointers : Straight [.mov .x (.ofNat 0) .context, .mov .x (.ofNat 1) .pageTable] := rfl
  have hpop : Straight f.pop :=
    (((straight_spillMove f fun _ _ _ => rfl).append (straight_map fun _ _ => rfl)).append
      (straight_popGprs _)).append hrecord
  exact ((straight_storeToRecord u).append hpointers).append hpop

end Dynarec.Emit

namespace Dynarec.Lower

open Dynarec.Emit Dynarec.Host

/-! ### Instructions -/

theorem straight_constant (n : Nat) (v : Word) : Straight (Source.constant n v).load := by
  unfold Source.constant
  split
  · rfl
  · exact straight_loadWord _ _

theorem straight_gpr (pcValue : Word) (n : Nat) (r : Guest.Gpr) :
    Straight (Source.gpr pcValue n r).load := by
  unfold Source.gpr
  split
  · exact straight_constant _ _
  · rfl

theorem straight_operand (pcValue : Word) (n : Nat) (o : Guest.Operand) :
    Straight (Source.operand pcValue n o).load := by
  cases o with
  | reg r => exact straight_gpr _ _ _
  | imm v => exact straight_constant _ _

theorem straight_flagOps (result t : Host.Gpr) (carry : Option Bool) :
    Straight (flagOps result t carry) := by
  rcases carry with _ | _ | _ <;> rfl

theorem isStraight_aluInstr (op : Guest.AluOp) (s : Bool) (d a b : Host.Gpr) :
    (aluInstr op s d a b).isStraight = true := by
  cases op <;> rfl

theorem straight_moveOps (c : Current) (n : Nat) (d : Host.Gpr) (o : Guest.Operand) (negate : Bool) :
    Straight (moveOps c n d o negate) := by
  cases o with
  | reg r => exact (straight_gpr _ _ _).append (by cases negate <;> rfl)
  | imm v => exact straight_loadWord _ _

theorem straight_linkOps (config : Config) (c : Current) : Straight (linkOps config c) :=
  straight_loadWord _ _

end Dynarec.Lower
