import Dynarec.Proofs.Guest.Decode
import Dynarec.Proofs.Lower.Run
import Dynarec.Proofs.Simulation.Relation

/-! # Operands and flags of data instructions

The sequences that data instructions are made of: bringing operands to registers, the operation
itself, and the flags of a logical result. -/

namespace Dynarec

theorem addWithCarry_comm {n : Nat} (x y : BitVec n) (carry : Bool) :
    addWithCarry x y carry = addWithCarry y x carry := by
  unfold addWithCarry
  rw [BitVec.add_comm x y, Nat.add_comm x.toNat, Int.add_comm x.toInt]

end Dynarec

namespace Dynarec.Simulation

open Dynarec.Emit Dynarec.Host Dynarec.Lower

variable {u : RegisterUse} {record table : DWord} {base s : Host.State} {σ : Guest.State}

theorem Sim.setSpareLow (h : Sim u record table base s σ) {x : Host.Gpr} (hx : x.isSpare = true)
    (value : Word) : Sim u record table base (s.setLow x value) σ :=
  h.setSpare hx _

theorem Sim.setPinnedLow (h : Sim u record table base s σ) {r : Guest.Gpr} (hr : r.isPc = false)
    (hu : u.Holds r) (value : Word) :
    Sim u record table base (s.setLow (pinned r) value) (σ.setGpr r value) := by
  have hset := h.setPinned hr hu (value.setWidth 64)
  rwa [BitVec.setWidth_setWidth_of_le value (Nat.le_of_ble_eq_true rfl)] at hset

/-! ### Operands -/

theorem index_temp {n : Nat} (hn : n < 9) : (temp n).index = n := by
  unfold temp Gpr.index Gpr.ofNat
  rw [BitVec.toNat_ofNat]
  omega

theorem isSpare_temp {n : Nat} (hn : n < 9) : (temp n).isSpare = true := by
  rw [Gpr.isSpare_iff, index_temp hn]
  exact .inl hn

theorem temp_ne_zr {n : Nat} (hn : n < 9) : temp n ≠ .zr := by
  intro h
  have hi := congrArg Gpr.index h
  rw [index_temp hn] at hi
  have h31 : Gpr.zr.index = 31 := rfl
  omega

/-- From `s` the instructions lead to `s'` and change the `n`-th temporary register at most. -/
structure Brings (is : List Host.Instr) (n : Nat) (s s' : Host.State) : Prop where
  exec : execAll is s = some s'
  x : ∀ q, q ≠ temp n → s'.x q = s.x q
  v : s'.v = s.v
  flags : s'.flags = s.flags
  mem : s'.mem = s.mem

section Brings

variable {is : List Host.Instr} {n : Nat} {s' : Host.State}

theorem Brings.low (h : Brings is n s s') {q : Host.Gpr} (hq : q ≠ temp n) (width : Width) :
    s'.low width q = s.low width q := by
  unfold State.low State.reg
  rw [h.x q hq]

theorem Brings.upToTemps (h : Brings is n s s') (hn : n < 9) : UpToTemps s s' :=
  ⟨fun q hq => h.x q (ne_of_isSpare (isSpare_temp hn) hq), fun w _ => congrFun h.v w, h.flags,
    h.mem⟩

theorem brings_nil (s : Host.State) (n : Nat) : Brings [] n s s :=
  ⟨rfl, fun _ _ => rfl, rfl, rfl, rfl⟩

end Brings

theorem constant_brings {n : Nat} (hn : n < 9) (value : Word) (s : Host.State) :
    ∃ s', Brings (Source.constant n value).load n s s' ∧
      s'.low .w (Source.constant n value).reg = value := by
  unfold Source.constant
  split
  · rename_i hz
    refine ⟨s, brings_nil s n, ?_⟩
    rw [hz]
    exact State.low_zr s .w
  · refine ⟨_, ⟨execAll_loadWord _ _ s, fun q hq => ?_, ?_, ?_, ?_⟩, ?_⟩
    · exact State.x_set_of_ne s (temp n) q _ hq
    · exact State.v_set s (temp n) _
    · exact State.flags_set s (temp n) _
    · exact State.mem_set s (temp n) _
    · exact State.low_setLow_self s (temp n) (temp_ne_zr hn) value

theorem low_pinned_guest (s : Host.State) {r : Guest.Gpr} (hr : r.isPc = false) (pc : Word) :
    s.low .w (pinned r) = (s.guest pc).r r := by
  rw [State.low, State.reg, if_neg (pinned_ne_zr hr)]
  rfl

theorem gpr_brings {n : Nat} (hn : n < 9) (i : Guest.Instr) (r : Guest.Gpr) (s : Host.State) :
    ∃ s', Brings (Source.gpr i.pcReadValue n r).load n s s' ∧
      s'.low .w (Source.gpr i.pcReadValue n r).reg = i.gprValue (s.guest i.address) r := by
  unfold Source.gpr Guest.Instr.gprValue
  cases hr : r.isPc with
  | true => exact constant_brings hn i.pcReadValue s
  | false => exact ⟨s, brings_nil s n, low_pinned_guest s hr _⟩

theorem operand_brings {n : Nat} (hn : n < 9) (i : Guest.Instr) (o : Guest.Operand)
    (s : Host.State) :
    ∃ s', Brings (Source.operand i.pcReadValue n o).load n s s' ∧
      s'.low .w (Source.operand i.pcReadValue n o).reg = i.operandValue (s.guest i.address) o := by
  cases o with
  | reg r => exact gpr_brings hn i r s
  | imm value => exact constant_brings hn value s

/-- Temporary registers are no part of the guest state. -/
theorem gprValue_upToTemps {s' : Host.State} (h : UpToTemps s s') (i : Guest.Instr)
    (r : Guest.Gpr) : i.gprValue (s'.guest i.address) r = i.gprValue (s.guest i.address) r := by
  unfold Guest.Instr.gprValue
  cases hr : r.isPc with
  | true => rfl
  | false => exact congrArg (BitVec.setWidth 32) (h.x _ (isSpare_pinned hr))

theorem operandValue_upToTemps {s' : Host.State} (h : UpToTemps s s') (i : Guest.Instr)
    (o : Guest.Operand) :
    i.operandValue (s'.guest i.address) o = i.operandValue (s.guest i.address) o := by
  cases o with
  | reg r => exact gprValue_upToTemps h i r
  | imm value => rfl

/-- The temporary register for a second operand does not hold the first one. -/
theorem gpr_reg_ne_temp (pcValue : Word) (r : Guest.Gpr) :
    (Source.gpr pcValue 0 r).reg ≠ temp (Source.gpr pcValue 0 r).temps := by
  unfold Source.gpr
  split
  · unfold Source.constant
    split
    · exact (temp_ne_zr (Nat.le_of_ble_eq_true rfl : 0 < 9)).symm
    · exact (by decide : temp 0 ≠ temp 1)
  · rename_i hr
    exact ne_of_isSpare (isSpare_temp (Nat.le_of_ble_eq_true rfl : 0 < 9))
      (isSpare_pinned (Bool.not_eq_true _ ▸ hr))

theorem temps_le (x : Source) : x.temps ≤ 1 := by
  unfold Source.temps
  split <;> omega

theorem operands_bring (i : Guest.Instr) (rn : Guest.Gpr) (o : Guest.Operand) (s : Host.State) :
    let a := Source.gpr i.pcReadValue 0 rn
    let b := Source.operand i.pcReadValue a.temps o
    ∃ s', execAll (a.load ++ b.load) s = some s' ∧ UpToTemps s s' ∧
      s'.low .w a.reg = i.gprValue (s.guest i.address) rn ∧
      s'.low .w b.reg = i.operandValue (s.guest i.address) o := by
  intro a b
  have ha := temps_le a
  obtain ⟨s₁, hs₁, hlow₁⟩ := gpr_brings (n := 0) (by omega) i rn s
  obtain ⟨s₂, hs₂, hlow₂⟩ := operand_brings (Nat.lt_of_le_of_lt ha (by omega)) i o s₁
  have htemps := hs₁.upToTemps (by omega)
  refine ⟨s₂, ?_, htemps.trans (hs₂.upToTemps (by omega)), ?_, ?_⟩
  · rw [execAll_append hs₁.exec]
    exact hs₂.exec
  · rw [hs₂.low (gpr_reg_ne_temp i.pcReadValue rn)]
    exact hlow₁
  · rw [hlow₂, operandValue_upToTemps htemps]

/-! ### Operations -/

/-- The host computes what the guest does. The flags of logical operations are left to their own
sequence. -/
theorem exec_aluInstr (op : Guest.AluOp) (setsFlags shifter : Bool) (d a b : Host.Gpr)
    (s : Host.State) :
    let result := op.eval s.flags shifter (s.low .w a) (s.low .w b)
    (aluInstr op setsFlags d a b).exec s = some (((s.setLow d result.1).setFlags
      (if setsFlags && !op.isLogical then result.2 else s.flags)).skip 1) := by
  cases op with
  | rsb =>
    have hcomm := addWithCarry_comm (s.low .w b) (~~~s.low .w a) true
    cases setsFlags
    · show some (((s.setLow d (addWithCarry _ _ true).1).setFlags s.flags).skip 1) = _
      rw [hcomm]
      rfl
    · show some (((s.setLow d (addWithCarry _ _ true).1).setFlags (addWithCarry _ _ true).2).skip 1)
        = _
      rw [hcomm]
      rfl
  | _ => cases setsFlags <;> rfl

/-! ### Flags of logical results -/

section Flags

variable (f g : Nzcv)

theorem toWord_bits : f.toWord.getLsbD 31 = f.n ∧ f.toWord.getLsbD 30 = f.z ∧
    f.toWord.getLsbD 29 = f.c ∧ f.toWord.getLsbD 28 = f.v := by
  obtain ⟨n, z, c, v⟩ := f
  cases n <;> cases z <;> cases c <;> cases v <;> exact ⟨rfl, rfl, rfl, rfl⟩

/-- The flags in a word whose upper bits, from bit `lsb` on, come from another word. -/
theorem ofWord_insertField (old new : Word) (lsb : Nat) (h : lsb ≤ 32) :
    Nzcv.ofWord (insertField old new lsb (32 - lsb)) =
      ⟨if lsb ≤ 31 then new.getLsbD (31 - lsb) else old.getLsbD 31,
        if lsb ≤ 30 then new.getLsbD (30 - lsb) else old.getLsbD 30,
        if lsb ≤ 29 then new.getLsbD (29 - lsb) else old.getLsbD 29,
        if lsb ≤ 28 then new.getLsbD (28 - lsb) else old.getLsbD 28⟩ := by
  have hbit : ∀ k < 32, (insertField old new lsb (32 - lsb)).getLsbD k =
      if lsb ≤ k then new.getLsbD (k - lsb) else old.getLsbD k := by
    intro k hk
    rw [getLsbD_insertField _ _ _ _ _ hk]
    have hiff : (lsb ≤ k ∧ k < lsb + (32 - lsb)) ↔ lsb ≤ k := by omega
    simp only [hiff]
  unfold Nzcv.ofWord
  rw [hbit 31 (by omega), hbit 30 (by omega), hbit 29 (by omega), hbit 28 (by omega)]

theorem ofWord_insert_two :
    Nzcv.ofWord (insertField f.toWord (g.toWord >>> 30) 30 2) = ⟨g.n, g.z, f.c, f.v⟩ := by
  rw [ofWord_insertField f.toWord _ 30 (by omega), (toWord_bits f).2.2.1, (toWord_bits f).2.2.2]
  obtain ⟨n, z, c, v⟩ := g
  cases n <;> cases z <;> cases c <;> cases v <;> rfl

theorem ofWord_insert_three (n z : Bool) :
    Nzcv.ofWord (insertField f.toWord ((Nzcv.mk n z false false).toWord >>> 29) 29 3) =
        ⟨n, z, false, f.v⟩ ∧
      Nzcv.ofWord (insertField f.toWord ((Nzcv.mk n z false false).toWord >>> 29 + 1) 29 3) =
        ⟨n, z, true, f.v⟩ := by
  rw [ofWord_insertField f.toWord _ 29 (by omega), ofWord_insertField f.toWord _ 29 (by omega),
    (toWord_bits f).2.2.2]
  cases n <;> cases z <;> exact ⟨rfl, rfl⟩

end Flags

section Scratched

/-- The state with the scratch register, a temporary register and the flags overwritten. -/
def scratched (s : Host.State) (t : Host.Gpr) (a b : Word) (f : Nzcv) (n : Nat) : Host.State :=
  (((s.setLow .scratch a).setLow t b).setFlags f).skip n

variable {t : Host.Gpr} (s : Host.State) (a b : Word) (f : Nzcv) (n : Nat)

theorem setLow_scratched (b' : Word) :
    ((scratched s t a b f n).setLow t b').skip 1 = scratched s t a b' f (n + 1) := by
  unfold scratched
  rw [State.setLow_skip, State.skip_skip]
  have hset : (((s.setLow .scratch a).setLow t b).setFlags f).setLow t b' =
      (((s.setLow .scratch a).setLow t b).setLow t b').setFlags f := by
    unfold State.setLow
    exact State.set_setFlags _ t _ f
  rw [hset]
  unfold State.setLow
  rw [State.set_set]

theorem low_scratched (ht : t ≠ .zr) : (scratched s t a b f n).low .w t = b :=
  State.low_setLow_self (s.setLow .scratch a) t ht b

theorem x_scratched (ht : t ≠ .zr) : ((scratched s t a b f n).x t).setWidth 32 = b := by
  have hlow := low_scratched s a b f n ht
  unfold State.low State.reg at hlow
  rwa [if_neg ht] at hlow

theorem exec_lsr_scratched (ht : t ≠ .zr) (shift : BitVec 5) :
    (Host.Instr.lsrW t t shift).exec (scratched s t a b f n) =
      some (scratched s t a (b >>> shift) f (n + 1)) := by
  show some ((State.setLow _ t (State.low _ .w t >>> shift)).skip 1) = _
  rw [low_scratched s a b f n ht, setLow_scratched]

theorem exec_add_scratched (ht : t ≠ .zr) :
    (Host.Instr.addImm .w t t 1).exec (scratched s t a b f n) =
      some (scratched s t a (b + 1) f (n + 1)) := by
  have hset : ∀ w : DWord, (scratched s t a b f n).setBase t w = (scratched s t a b f n).set t w :=
    fun w => (if_neg ht).symm
  show some ((State.setBase _ t (BitVec.setWidth 64 (BitVec.setWidth 32 _ + 1))).skip 1) = _
  rw [hset, x_scratched s a b f n ht]
  exact congrArg some (setLow_scratched s a b f n (b + 1))

theorem low_scratch_scratched (hts : t ≠ .scratch) :
    (scratched s t a b f n).low .w .scratch = a := by
  show State.low (State.set _ t _) .w .scratch = a
  unfold State.low
  rw [State.reg_set_of_ne _ t _ _ hts.symm]
  exact State.low_setLow_self s .scratch (by decide) a

theorem exec_bfi_scratched (ht : t ≠ .zr) (hts : t ≠ .scratch) (lsb width : Nat) :
    (Host.Instr.bfi .scratch t lsb width).exec (scratched s t a b f n) =
      some (scratched s t (insertField a b lsb width) b f (n + 1)) := by
  show some ((State.setLow _ .scratch (insertField (State.low _ .w .scratch) (State.low _ .w t) lsb
    width)).skip 1) = _
  rw [low_scratch_scratched s a b f n hts, low_scratched s a b f n ht]
  unfold scratched
  rw [State.setLow_skip, State.skip_skip]
  unfold State.setLow
  rw [State.set_setFlags, State.set_comm _ hts.symm, State.set_set]

theorem exec_msr_scratched (hts : t ≠ .scratch) :
    (Host.Instr.msrFlags .scratch).exec (scratched s t a b f n) =
      some (scratched s t a b (.ofWord a) (n + 1)) := by
  show some ((State.setFlags _ (.ofWord (State.low _ .w .scratch))).skip 1) = _
  rw [low_scratch_scratched s a b f n hts]
  rfl

end Scratched

/-- The first three instructions keep the flags in the scratch register and put those of the result
into the temporary one. -/
theorem execAll_flagHead {x t : Host.Gpr} (hx : x ≠ .scratch) (s : Host.State) :
    let g := Nzcv.ofResult (s.low .w x) false false
    execAll [.mrsFlags .scratch, .data .ands .w .zr x x, .mrsFlags t] s =
      some (scratched s t s.flags.toWord g.toWord g 3) := by
  intro g
  have hlow : (s.setLow .scratch s.flags.toWord).low .w x = s.low .w x := by
    unfold State.low State.setLow
    rw [State.reg_set_of_ne _ _ _ _ hx]
  have hand : (Host.Instr.data .ands .w .zr x x).exec
      ((s.setLow .scratch s.flags.toWord).skip 1) =
        some (((s.setLow .scratch s.flags.toWord).setFlags g).skip 2) := by
    show some (((State.set _ .zr _).setFlags (.ofResult (State.low _ .w x &&& State.low _ .w x) false
      false)).skip 1) = _
    rw [State.low_skip, hlow, BitVec.and_self]
    rfl
  have hmrs : (Host.Instr.mrsFlags .scratch).exec s =
      some ((s.setLow .scratch s.flags.toWord).skip 1) := rfl
  rw [execAll_cons hmrs, execAll_cons hand]
  refine execAll_singleton ?_
  show some ((State.setLow _ t g.toWord).skip 1) = _
  rw [State.setLow_skip, State.skip_skip]
  unfold State.setLow
  rw [State.set_setFlags]
  rfl

/-- Behind a logical operation the flags are those of its result; the carry is the given one or
stays, the overflow stays. Only the scratch register and the temporary one change. -/
theorem execAll_flagOps {x t : Host.Gpr} (hx : x ≠ .scratch) (ht : t ≠ .zr) (hts : t ≠ .scratch)
    (carry : Option Bool) (s : Host.State) :
    ∃ a b, execAll (flagOps x t carry) s = some (scratched s t a b
      (.ofResult (s.low .w x) (carry.getD s.flags.c) s.flags.v) (flagOps x t carry).length) := by
  let r := s.low .w x
  let g := Nzcv.ofResult r false false
  let old := s.flags.toWord
  obtain ⟨hfalse, htrue⟩ := ofWord_insert_three s.flags r.msb (r == 0)
  unfold flagOps
  rw [List.append_assoc, execAll_append (execAll_flagHead hx s)]
  match carry with
  | none =>
    refine ⟨insertField old (g.toWord >>> 30) 30 2, g.toWord >>> 30, ?_⟩
    rw [List.cons_append, execAll_cons (exec_lsr_scratched s _ _ _ _ ht 30), List.cons_append,
      execAll_cons (exec_bfi_scratched s _ _ _ _ ht hts 30 2), List.nil_append,
      execAll_singleton (exec_msr_scratched s _ _ _ _ hts)]
    exact congrArg (fun f => some (scratched s t _ _ f 6)) (ofWord_insert_two s.flags g)
  | some false =>
    refine ⟨insertField old (g.toWord >>> 29) 29 3, g.toWord >>> 29, ?_⟩
    rw [List.cons_append, execAll_cons (exec_lsr_scratched s _ _ _ _ ht 29), List.cons_append,
      execAll_cons (exec_bfi_scratched s _ _ _ _ ht hts 29 3), List.nil_append,
      execAll_singleton (exec_msr_scratched s _ _ _ _ hts)]
    exact congrArg (fun f => some (scratched s t _ _ f 6)) hfalse
  | some true =>
    refine ⟨insertField old (g.toWord >>> 29 + 1) 29 3, g.toWord >>> 29 + 1, ?_⟩
    rw [List.cons_append, execAll_cons (exec_lsr_scratched s _ _ _ _ ht 29), List.cons_append,
      execAll_cons (exec_add_scratched s _ _ _ _ ht), List.cons_append,
      execAll_cons (exec_bfi_scratched s _ _ _ _ ht hts 29 3), List.nil_append,
      execAll_singleton (exec_msr_scratched s _ _ _ _ hts)]
    exact congrArg (fun f => some (scratched s t _ _ f 7)) htrue

theorem upToTemps_scratched (s : Host.State) {t : Host.Gpr} (ht : t.isSpare = true) (a b : Word)
    (f : Nzcv) (n : Nat) : UpToTemps (s.setFlags f) (scratched s t a b f n) := by
  have hscratch : UpToTemps s ((s.setLow .scratch a).setLow t b) :=
    (UpToTemps.set_spare s (x := .scratch) rfl _).trans (.set_spare _ ht _)
  exact (hscratch.setFlags f).trans (.skip _ n)

/-- Behind its flag sequence a result is still there, and the flags are set from it. -/
theorem flagOps_exec {x t : Host.Gpr} (hx : x ≠ .scratch) (ht : t.index < 9) (hxt : x ≠ t)
    (carry : Option Bool) (s : Host.State) :
    ∃ s', execAll (flagOps x t carry) s = some s' ∧ s'.low .w x = s.low .w x ∧
      UpToTemps (s.setFlags (.ofResult (s.low .w x) (carry.getD s.flags.c) s.flags.v)) s' := by
  have hzr : t ≠ .zr := by
    rintro rfl
    exact absurd ht (by decide)
  have hscratch : t ≠ .scratch := by
    rintro rfl
    exact absurd ht (by decide)
  obtain ⟨a, b, hexec⟩ := execAll_flagOps hx hzr hscratch carry s
  refine ⟨_, hexec, ?_, upToTemps_scratched s (Gpr.isSpare_iff.mpr (.inl ht)) a b _ _⟩
  show State.low (State.setLow (State.setLow s .scratch a) t b) .w x = s.low .w x
  unfold State.low State.setLow
  rw [State.reg_set_of_ne _ _ _ _ hxt, State.reg_set_of_ne _ _ _ _ hx]

end Dynarec.Simulation
