import Dynarec.Proofs.Lower.Shape
import Dynarec.Proofs.Simulation.Operand

/-! # What data instructions leave in the host

The sequence of a data instruction writes what the instruction writes, each part to the place where
the host has it: pinned registers, places in the record, the flags. A new program counter goes to
the record, as the address where the guest goes on. Beyond that only temporary registers change. -/

namespace Dynarec.Host

open Dynarec.Emit

/-! ### Places -/

namespace State

def putGpr? (s : State) : Option (Guest.Gpr × Word) → State
  | none => s
  | some (rd, value) =>
    if rd.isPc then s.store (s.x .context + BitVec.ofNat 64 Record.dispatchAddress) 4 value
    else s.setLow (pinned rd) value

def putDreg? (s : State) : Option (Guest.Dreg × DWord) → State
  | none => s
  | some (dd, value) =>
    match pinnedVreg? dd with
    | some v => s.setV v (value.setWidth 128)
    | none => s.store (s.x .context + BitVec.ofNat 64 (Record.dreg dd)) 8 value

def setFlags? (s : State) : Option Nzcv → State
  | none => s
  | some f => s.setFlags f

/-- All that an instruction writes, at its places. -/
def deliver (s : State) (w : Guest.Written) : State :=
  ((s.putGpr? w.gpr).putDreg? w.dreg).setFlags? w.flags

theorem deliver_gpr (s : State) (rd : Guest.Gpr) (value : Word) (f : Option Nzcv) :
    s.deliver { gpr := some (rd, value), flags := f } =
      (if rd.isPc then s.store (s.x .context + BitVec.ofNat 64 Record.dispatchAddress) 4 value
        else s.setLow (pinned rd) value).setFlags? f := rfl

end State

theorem UpToTemps.setFlags? {s s' : State} (h : UpToTemps s s') (f : Option Nzcv) :
    UpToTemps (s.setFlags? f) (s'.setFlags? f) := by
  cases f with
  | none => exact h
  | some f => exact h.setFlags f

/-- From `s` the instructions deliver `w`, by way of temporary registers. -/
def Delivers (is : List Instr) (w : Guest.Written) (s : State) : Prop :=
  ∃ s', execAll is s = some s' ∧ UpToTemps (s.deliver w) s'

end Dynarec.Host

namespace Dynarec.Simulation

open Dynarec.Emit Dynarec.Host Dynarec.Lower

variable {s s' : Host.State} {i : Guest.Instr} {rd : Guest.Gpr} {o : Guest.Operand}

/-! ### Results and flags -/

theorem eval_snd_logical {op : Guest.AluOp} (h : op.isLogical = true) (f : Nzcv) (shifter : Bool)
    (a b : Word) :
    (op.eval f shifter a b).2 = .ofResult (op.eval f shifter a b).1 shifter f.v := by
  cases op with
  | and | eor | orr | bic => rfl
  | _ => cases h

theorem shifter_congr {σ τ : Guest.State} (h : σ.flags = τ.flags) (o : Guest.Operand) :
    i.shifter σ o = i.shifter τ o := by
  unfold Guest.Instr.shifter
  rw [h]

/-- The carry that the flag sequence sets is the one that comes out of the second operand. -/
theorem shifterCarry_getD (i : Guest.Instr) (σ : Guest.State) {o : Guest.Operand}
    (h : i.kind.immediate? = match o with
      | .reg _ => none
      | .imm value => some value) :
    i.shifterCarry?.getD σ.flags.c = i.shifter σ o := by
  unfold Guest.Instr.shifterCarry? Guest.Instr.shifter
  rw [h]
  cases o with
  | reg r => cases i.flags.rotatedImm <;> rfl
  | imm value => cases i.flags.rotatedImm <;> rfl

theorem index_flagTemp (d : Host.Gpr) : (flagTemp d).index < 9 := by
  unfold flagTemp
  split <;> exact Nat.le_of_ble_eq_true rfl

theorem flagTemp_ne (d : Host.Gpr) : d ≠ flagTemp d := by
  unfold flagTemp
  split
  · rename_i hd
    rw [hd]
    decide
  · rename_i hd
    exact hd

theorem pinned_ne_scratch {r : Guest.Gpr} (h : r.isPc = false) : pinned r ≠ .scratch :=
  ne_of_isSpare (x := .scratch) rfl (isSpare_pinned h)

theorem target_ne {n : Nat} (hn : n < 9) (rd : Guest.Gpr) :
    target n rd ≠ .scratch ∧ target n rd ≠ .zr := by
  unfold target
  cases hrd : rd.isPc with
  | true =>
    refine ⟨fun heq => ?_, temp_ne_zr hn⟩
    have hi := congrArg Gpr.index heq
    rw [if_pos rfl, index_temp hn] at hi
    have hscratch : Gpr.scratch.index = 17 := rfl
    omega
  | false => exact ⟨pinned_ne_scratch hrd, pinned_ne_zr hrd⟩

/-! ### What comes behind a result -/

/-- The instructions behind the one that computes a result. -/
def finishOps (d : Host.Gpr) (logical : Bool) (carry : Option Bool) (computed : Bool) :
    List Host.Instr :=
  (if logical then flagOps d (flagTemp d) carry else []) ++
    if computed then [.str .w d .context Record.dispatchAddress] else []

/-- A result stands in a pinned register, or in a temporary one if it is an address. -/
structure Computed (s : Host.State) (rd : Guest.Gpr) (R : Word) (f : Option Nzcv) (d : Host.Gpr)
    (s' : Host.State) : Prop where
  low : s'.low .w d = R
  rest : UpToTemps ((if rd.isPc then s else s.setLow (pinned rd) R).setFlags? f) s'

theorem computed_setLow {n : Nat} (hn : n < 9) {s₁ : Host.State} (h : UpToTemps s s₁) (R : Word)
    (f : Option Nzcv) (k : Nat) :
    Computed s rd R f (target n rd) (((s₁.setLow (target n rd) R).setFlags? f).skip k) := by
  refine ⟨?_, UpToTemps.trans (UpToTemps.setFlags? ?_ f) (.skip _ k)⟩
  · have hlow := State.low_setLow_self s₁ _ (target_ne hn rd).2 R
    cases f <;> exact hlow
  · unfold target
    cases rd.isPc with
    | true => exact h.trans (.set_spare s₁ (isSpare_temp hn) _)
    | false => exact h.set (pinned rd) _

/-- Flags of a result, if they are left to their own sequence. -/
theorem Computed.flags {n : Nat} (hn : n < 9) {R : Word} (logical : Bool) (carry : Option Bool)
    {f : Option Nzcv} (hf : logical = true → f = none)
    (h : Computed s rd R f (target n rd) s') :
    ∃ t, execAll (if logical then flagOps (target n rd) (flagTemp (target n rd)) carry else []) s' =
        some t ∧
      Computed s rd R (if logical then some (.ofResult R (carry.getD s.flags.c) s.flags.v) else f)
        (target n rd) t := by
  cases logical with
  | false => exact ⟨s', rfl, h⟩
  | true =>
    rw [hf rfl] at h
    obtain ⟨t, ht, hlow, htemps⟩ := flagOps_exec (target_ne hn rd).1 (index_flagTemp (target n rd))
      (flagTemp_ne _) carry s'
    have hflags : s'.flags = s.flags := by
      rw [h.rest.flags]
      show (if rd.isPc then s else s.setLow (pinned rd) R).flags = s.flags
      split
      · rfl
      · exact State.flags_set s _ _
    rw [h.low, hflags] at htemps
    exact ⟨t, ht, hlow.trans h.low, (h.rest.setFlags _).trans htemps⟩

theorem Computed.delivered {d : Host.Gpr} {R : Word} {f : Option Nzcv}
    (h : Computed s rd R f d s') :
    ∃ t, execAll (if rd.isPc then [.str .w d .context Record.dispatchAddress] else []) s' = some t ∧
      UpToTemps (s.deliver { gpr := some (rd, R), flags := f }) t := by
  obtain ⟨hlow, hrest⟩ := h
  rw [State.deliver_gpr]
  cases hrd : rd.isPc with
  | false =>
    rw [hrd] at hrest
    exact ⟨s', rfl, hrest⟩
  | true =>
    rw [hrd] at hrest
    have hcontext : s'.x .context = s.x .context := by
      rw [hrest.x .context rfl]
      cases f <;> rfl
    refine ⟨_, execAll_singleton rfl, ?_⟩
    have hstore := hrest.store (s.x .context + BitVec.ofNat 64 Record.dispatchAddress) 4 R
    rw [hcontext]
    subst hlow
    cases f <;> exact hstore.trans (.skip _ 1)

/-- A computed result is delivered by what comes behind it. -/
theorem Computed.finish {n : Nat} (hn : n < 9) {R : Word} (logical : Bool) (carry : Option Bool)
    {f : Option Nzcv} (hf : logical = true → f = none)
    (h : Computed s rd R f (target n rd) s') :
    ∃ t, execAll (finishOps (target n rd) logical carry rd.isPc) s' = some t ∧
      UpToTemps (s.deliver {
        gpr := some (rd, R)
        flags := if logical then some (.ofResult R (carry.getD s.flags.c) s.flags.v) else f })
        t := by
  obtain ⟨t₁, ht₁, hc⟩ := h.flags hn logical carry hf
  obtain ⟨t, ht, hdelivered⟩ := hc.delivered
  exact ⟨t, (execAll_append ht₁).trans ht, hdelivered⟩

/-! ### Arithmetic and logic -/

/-- The instructions that compute the result of an operation. -/
def aluOps (i : Guest.Instr) (op : Guest.AluOp) (rd rn : Guest.Gpr) (o : Guest.Operand) :
    Host.Gpr × List Host.Instr :=
  let a := Source.gpr i.pcReadValue 0 rn
  let b := Source.operand i.pcReadValue a.temps o
  let d := target (a.temps + b.temps) rd
  (d, a.load ++ b.load ++ [aluInstr op i.setsFlags d a.reg b.reg])

theorem operandTemps_lt (i : Guest.Instr) (rn : Guest.Gpr) (o : Guest.Operand) :
    (Source.gpr i.pcReadValue 0 rn).temps +
      (Source.operand i.pcReadValue (Source.gpr i.pcReadValue 0 rn).temps o).temps < 9 := by
  have ha := temps_le (Source.gpr i.pcReadValue 0 rn)
  have hb := temps_le (Source.operand i.pcReadValue (Source.gpr i.pcReadValue 0 rn).temps o)
  omega

section Alu

variable {op : Guest.AluOp} {rn : Guest.Gpr} {r : Word × Nzcv}

/-- The operation itself sets the flags of arithmetic only. -/
theorem aluOps_computed (rd : Guest.Gpr) (hr : op.eval s.flags (i.shifter (s.guest i.address) o)
      (i.gprValue (s.guest i.address) rn) (i.operandValue (s.guest i.address) o) = r) :
    ∃ s', execAll (aluOps i op rd rn o).2 s = some s' ∧
      Computed s rd r.1 (if i.setsFlags && !op.isLogical then some r.2 else none)
        (aluOps i op rd rn o).1 s' := by
  let f : Option Nzcv := if i.setsFlags && !op.isLogical then some r.2 else none
  obtain ⟨s₁, hs₁, htemps, hla, hlb⟩ := operands_bring i rn o s
  refine ⟨_, (execAll_append hs₁).trans (execAll_singleton ?_),
    computed_setLow (operandTemps_lt i rn o) htemps r.1 f 1⟩
  rw [exec_aluInstr op i.setsFlags (i.shifter (s.guest i.address) o), hla, hlb, htemps.flags, hr]
  cases hf : i.setsFlags && !op.isLogical with
  | true =>
    simp only [f, hf, if_true]
    rfl
  | false =>
    simp only [f, hf, Bool.false_eq_true, if_false, ← htemps.flags, State.setLow_setFlags_self]
    rfl

/-- Flags of arithmetic come with the operation, others from the sequence behind it. -/
theorem aluFlags (i : Guest.Instr) {shifter : Bool} {f : Nzcv} {a b : Word}
    (hr : op.eval f shifter a b = r) :
    (if i.setsFlags && op.isLogical then some (Nzcv.ofResult r.1 shifter f.v)
      else if i.setsFlags && !op.isLogical then some r.2 else none) =
      if i.setsFlags then some r.2 else none := by
  cases i.setsFlags with
  | false => rfl
  | true =>
    cases hl : op.isLogical with
    | false => rfl
    | true => exact congrArg some (hr ▸ eval_snd_logical hl f shifter a b).symm

theorem alu_delivers (hk : i.kind = .alu op rd rn o) {w : Guest.Written}
    (hw : i.written? (s.guest i.address) = some w) :
    Delivers ((aluOps i op rd rn o).2 ++ finishOps (aluOps i op rd rn o).1
      (i.setsFlags && op.isLogical) i.shifterCarry? rd.isPc) w s := by
  let σ := s.guest i.address
  let r := op.eval σ.flags (i.shifter σ o) (i.gprValue σ rn) (i.operandValue σ o)
  obtain ⟨s₁, hs₁, hcomputed⟩ := aluOps_computed (i := i) (r := r) rd rfl
  obtain ⟨t, ht, hdelivered⟩ := hcomputed.finish (operandTemps_lt i rn o)
    (i.setsFlags && op.isLogical) i.shifterCarry? (by
      intro hl
      rw [(Bool.and_eq_true_iff.mp hl).2, Bool.not_true, Bool.and_false]
      rfl)
  have hcarry : i.shifterCarry?.getD s.flags.c = i.shifter σ o :=
    shifterCarry_getD i σ (o := o) (by rw [hk]; cases o <;> rfl)
  rw [hcarry, aluFlags i (f := s.flags) (r := r) rfl] at hdelivered
  refine ⟨t, (execAll_append hs₁).trans ht, ?_⟩
  rw [Guest.Instr.written?, hk] at hw
  cases hw
  exact hdelivered

end Alu

/-! ### Moves -/

section Move

variable {c : Current} {negate : Bool}

theorem moveOps_exec (hc : c.pcValue = i.pcReadValue) {n : Nat} (hn : n < 9) (d : Host.Gpr)
    (o : Guest.Operand) (negate : Bool) (s : Host.State) :
    let value := i.operandValue (s.guest i.address) o
    ∃ s₁ k, UpToTemps s s₁ ∧ execAll (moveOps c n d o negate) s =
      some ((s₁.setLow d (if negate then ~~~value else value)).skip k) := by
  cases o with
  | imm value => exact ⟨s, _, .refl s, execAll_loadWord d _ s⟩
  | reg rm =>
    obtain ⟨s₁, hs₁, hlow⟩ := gpr_brings hn i rm s
    refine ⟨s₁, 1, hs₁.upToTemps hn, ?_⟩
    unfold moveOps
    rw [hc]
    refine (execAll_append hs₁.exec).trans (execAll_singleton ?_)
    cases negate with
    | false =>
      have hmov := exec_mov .w d (Source.gpr i.pcReadValue n rm).reg s₁
      rw [hlow] at hmov
      exact hmov
    | true =>
      have hmvn := exec_mvn d (Source.gpr i.pcReadValue n rm).reg s₁
      rw [hlow] at hmvn
      exact hmvn

theorem move_delivers (hc : c.pcValue = i.pcReadValue) (hk : i.kind = .move rd o negate)
    {w : Guest.Written} (hw : i.written? (s.guest i.address) = some w) :
    Delivers (moveOps c (if rd.isPc then 1 else 0) (target 0 rd) o negate ++
      finishOps (target 0 rd) i.setsFlags i.shifterCarry? rd.isPc) w s := by
  let σ := s.guest i.address
  let R := if negate then ~~~i.operandValue σ o else i.operandValue σ o
  have hn : (if rd.isPc then 1 else 0) < 9 := by split <;> omega
  obtain ⟨s₁, k, htemps, hexec⟩ := moveOps_exec hc hn (target 0 rd) o negate s
  have hcomputed : Computed s rd R none (target 0 rd) ((s₁.setLow (target 0 rd) R).skip k) :=
    computed_setLow (by omega) htemps R none k
  obtain ⟨t, ht, hdelivered⟩ := hcomputed.finish (by omega) i.setsFlags i.shifterCarry? fun _ => rfl
  refine ⟨t, (execAll_append hexec).trans ht, ?_⟩
  have hcarry : i.shifterCarry?.getD s.flags.c = i.shifter σ o :=
    shifterCarry_getD i σ (o := o) (by rw [hk]; cases o <;> rfl)
  rw [hcarry] at hdelivered
  rw [Guest.Instr.written?, hk] at hw
  cases hw
  exact hdelivered

/-- A register move with a condition of its own. -/
theorem select_delivers {rm : Guest.Gpr} (hk : i.kind = .move rd (.reg rm) negate)
    (ha : i.absorbsCondition = true) (cond : Cond) {w : Guest.Written}
    (hw : i.writtenUnder? cond (s.guest i.address) = some w) :
    Delivers [.csel (pinned rd) (pinned rm) (pinned rd) cond] w s := by
  cases negate with
  | true =>
    simp only [Guest.Instr.absorbsCondition, hk] at ha
    cases ha
  | false =>
    simp only [Guest.Instr.absorbsCondition, hk, Bool.and_eq_true, Bool.not_eq_true'] at ha
    obtain ⟨⟨hs, hrd⟩, hrm⟩ := ha
    simp only [Guest.Instr.writtenUnder?, Guest.Instr.written?, hk, hs, Guest.Instr.operandValue,
      Guest.Instr.gprValue, hrm, Bool.false_eq_true, if_false, Option.map_some] at hw
    cases hw
    refine ⟨_, execAll_singleton rfl, ?_⟩
    have hput : ∀ value, s.deliver { gpr := some (rd, value) } = s.setLow (pinned rd) value := by
      intro value
      rw [State.deliver_gpr, hrd]
      rfl
    have hflags : (s.guest i.address).flags = s.flags := rfl
    rw [low_pinned_guest s hrm i.address, low_pinned_guest s hrd i.address, hflags]
    cases cond.holds s.flags with
    | true =>
      rw [if_pos rfl, if_pos rfl, hput]
      exact .skip _ 1
    | false =>
      rw [if_neg Bool.false_ne_true, if_neg Bool.false_ne_true]
      exact hput ((s.guest i.address).r rd) ▸ .skip _ 1

end Move

/-! ### Compares -/

/-- The instructions of a compare behind its operands. -/
def compareOps (i : Guest.Instr) (op : Guest.CmpOp) (a b t : Host.Gpr) : List Host.Instr :=
  match op with
  | .cmp => [.data .subs .w .zr a b]
  | .cmn => [.data .adds .w .zr a b]
  | .tst => .data .and .w t a b :: flagOps t (flagTemp t) i.shifterCarry?
  | .teq => .data .eor .w t a b :: flagOps t (flagTemp t) i.shifterCarry?

/-- The flags of a logical result that is not kept. -/
theorem logicalCompare_exec {t : Host.Gpr} (ht : t.index < 9) (R : Word) {j : Host.Instr}
    (hj : j.exec s = some (((s.setLow t R).setFlags s.flags).skip 1)) (carry : Option Bool) :
    ∃ s', execAll (j :: flagOps t (flagTemp t) carry) s = some s' ∧
      UpToTemps (s.setFlags (.ofResult R (carry.getD s.flags.c) s.flags.v)) s' := by
  have hscratch : t ≠ .scratch := by
    rintro rfl
    exact absurd ht (by decide)
  have hzr : t ≠ .zr := by
    rintro rfl
    exact absurd ht (by decide)
  rw [State.setLow_setFlags_self] at hj
  obtain ⟨s', hs', -, htemps⟩ := flagOps_exec hscratch (index_flagTemp t) (flagTemp_ne t) carry
    ((s.setLow t R).skip 1)
  refine ⟨s', (execAll_cons hj).trans hs', ?_⟩
  have hset : UpToTemps s ((s.setLow t R).skip 1) :=
    (UpToTemps.set_spare s (Gpr.isSpare_iff.mpr (.inl ht)) _).trans (.skip _ 1)
  rw [State.low_skip, State.low_setLow_self s t hzr R, hset.flags] at htemps
  exact (hset.setFlags _).trans htemps

theorem compareOps_exec {op : Guest.CmpOp} {rn : Guest.Gpr} (hk : i.kind = .compare op rn o)
    {a b t : Host.Gpr} (ht : t.index < 9) :
    ∃ s', execAll (compareOps i op a b t) s = some s' ∧ UpToTemps (s.setFlags (op.eval s.flags
      (i.shifter (s.guest i.address) o) (s.low .w a) (s.low .w b))) s' := by
  have hcarry : i.shifterCarry?.getD s.flags.c = i.shifter (s.guest i.address) o :=
    shifterCarry_getD i (s.guest i.address) (o := o) (by rw [hk]; cases o <;> rfl)
  rw [← hcarry]
  cases op with
  | cmp => exact ⟨_, execAll_singleton rfl, .skip _ 1⟩
  | cmn => exact ⟨_, execAll_singleton rfl, .skip _ 1⟩
  | tst => exact logicalCompare_exec ht (s.low .w a &&& s.low .w b) rfl i.shifterCarry?
  | teq => exact logicalCompare_exec ht (s.low .w a ^^^ s.low .w b) rfl i.shifterCarry?

theorem compare_delivers {op : Guest.CmpOp} {rn : Guest.Gpr} (hk : i.kind = .compare op rn o)
    {w : Guest.Written} (hw : i.written? (s.guest i.address) = some w) :
    let a := Source.gpr i.pcReadValue 0 rn
    let b := Source.operand i.pcReadValue a.temps o
    Delivers (a.load ++ b.load ++ compareOps i op a.reg b.reg (temp (a.temps + b.temps))) w s := by
  intro a b
  obtain ⟨s₁, hs₁, htemps, hla, hlb⟩ := operands_bring i rn o s
  have hn : a.temps + b.temps < 9 := operandTemps_lt i rn o
  have ht : (temp (a.temps + b.temps)).index < 9 := by
    rw [index_temp hn]
    exact hn
  obtain ⟨t, hexec, hflags⟩ := compareOps_exec (s := s₁) hk (a := a.reg) (b := b.reg) ht
  refine ⟨t, (execAll_append hs₁).trans hexec, ?_⟩
  have hshifter : i.shifter (s₁.guest i.address) o = i.shifter (s.guest i.address) o :=
    shifter_congr htemps.flags o
  rw [hla, hlb, htemps.flags, hshifter] at hflags
  rw [Guest.Instr.written?, hk] at hw
  cases hw
  exact (htemps.setFlags _).trans hflags

/-! ### Moves of double registers -/

theorem vmove_delivers {dd dm : Guest.Dreg} (hk : i.kind = .vmove dd dm) {w : Guest.Written}
    (hw : i.written? (s.guest i.address) = some w) :
    ∃ is, vmoveItems dd dm = ops is ∧ Delivers is w s := by
  rw [Guest.Instr.written?, hk] at hw
  cases hw
  have hsource : (s.guest i.address).d dm = match pinnedVreg? dm with
      | some v => (s.v v).setWidth 64
      | none => s.mem.dword (s.x .context + BitVec.ofNat 64 (Record.dreg dm)) := rfl
  have hwide : ∀ x : DWord, (x.setWidth 128).setWidth 64 = x :=
    fun x => BitVec.setWidth_setWidth_of_le x (Nat.le_of_ble_eq_true rfl)
  have hplace : ∀ value, s.deliver { dreg := some (dd, value) } = match pinnedVreg? dd with
      | some v => s.setV v (value.setWidth 128)
      | none => s.store (s.x .context + BitVec.ofNat 64 (Record.dreg dd)) 8 value := fun _ => rfl
  unfold vmoveItems
  refine ⟨_, rfl, ?_⟩
  unfold Delivers
  rw [hplace, hsource]
  cases hd : pinnedVreg? dd with
  | some d =>
    cases hm : pinnedVreg? dm with
    | some m => exact ⟨_, execAll_singleton rfl, .skip _ 1⟩
    | none => exact ⟨_, execAll_singleton rfl, .skip _ 1⟩
  | none =>
    cases hm : pinnedVreg? dm with
    | some m => exact ⟨_, execAll_singleton rfl, .skip _ 1⟩
    | none =>
      let value : DWord := s.mem.dword (s.x .context + BitVec.ofNat 64 (Record.dreg dm))
      let s₁ := (s.setV ⟨0⟩ (value.setWidth 128)).skip 1
      have hload : (Host.Instr.ldrV .d ⟨0⟩ .context (Record.dreg dm)).exec s = some s₁ := rfl
      have hv : (s₁.v ⟨0⟩).setWidth 64 = value := hwide value
      have htemps : UpToTemps s s₁ :=
        (UpToTemps.setV_spare s (v := ⟨0⟩) (by decide) _).trans (.skip _ 1)
      refine ⟨_, (execAll_cons hload).trans (execAll_singleton rfl), ?_⟩
      refine (htemps.store (s.x .context + BitVec.ofNat 64 (Record.dreg dd)) 8 value).trans ?_
      show UpToTemps _ ((s₁.store _ 8 ((s₁.v ⟨0⟩).setWidth 64)).skip 1)
      rw [hv]
      exact .skip _ 1

/-! ### All data instructions -/

section Data

variable {config : Config} {c : Current}

theorem items_alu (hc : c.pcValue = i.pcReadValue) {op : Guest.AluOp} {rn : Guest.Gpr}
    (hk : i.kind = .alu op rd rn o) :
    items config c i = ops ((aluOps i op rd rn o).2 ++ finishOps (aluOps i op rd rn o).1
      (i.setsFlags && op.isLogical) i.shifterCarry? rd.isPc) ++ holeItems c i := by
  unfold items holeItems hole?
  rw [hk]
  dsimp only
  rw [aluItems, finishItems_eq, ← List.append_assoc, ← ops_append, hc]
  cases rd.isPc <;> rfl

theorem items_compare (hc : c.pcValue = i.pcReadValue) {op : Guest.CmpOp} {rn : Guest.Gpr}
    (hk : i.kind = .compare op rn o) :
    let a := Source.gpr i.pcReadValue 0 rn
    let b := Source.operand i.pcReadValue a.temps o
    items config c i =
      ops (a.load ++ b.load ++ compareOps i op a.reg b.reg (temp (a.temps + b.temps))) ++
        holeItems c i := by
  unfold items holeItems hole?
  rw [hk]
  dsimp only
  unfold compareItems
  rw [hc]
  exact (List.append_nil _).symm

/-- A move that neither leaves for a register nor has its condition in itself. -/
theorem items_move {negate : Bool} (hp : items config c i = plainMoveItems c i rd o negate)
    (hhole : hole? c i = if rd.isPc then some (.indirectBranch, .none) else none) :
    items config c i = ops (moveOps c (if rd.isPc then 1 else 0) (target 0 rd) o negate ++
      finishOps (target 0 rd) i.setsFlags i.shifterCarry? rd.isPc) ++ holeItems c i := by
  rw [hp, plainMoveItems, finishItems_eq, ← List.append_assoc, ← ops_append, holeItems, hhole]
  cases rd.isPc <;> rfl

/-- The move of a register to the program counter, which is left to a fixup. -/
def isRegisterJump (i : Guest.Instr) : Bool :=
  match i.kind with
  | .move rd (.reg _) negate => rd.isPc && !negate && !i.setsFlags
  | _ => false

theorem isRegisterJump_iff : isRegisterJump i = true ↔
    ∃ rd rm, i.kind = .move rd (.reg rm) false ∧ rd.isPc = true ∧ i.setsFlags = false := by
  constructor
  · intro h
    unfold isRegisterJump at h
    split at h
    · rename_i rd rm negate hk
      simp only [Bool.and_eq_true, Bool.not_eq_true'] at h
      obtain ⟨⟨hrd, rfl⟩, hs⟩ := h
      exact ⟨rd, rm, hk, hrd, hs⟩
    · cases h
  · rintro ⟨rd, rm, hk, hrd, hs⟩
    simp only [isRegisterJump, hk, hrd, hs, Bool.not_false, Bool.and_self]

/-- A new program counter is left for a fixup behind the instructions. -/
theorem hole_of_written (c : Current) (hjump : isRegisterJump i = false) {σ : Guest.State}
    {w : Guest.Written} (hw : i.written? σ = some w) :
    hole? c i = if w.writesPc then some (.indirectBranch, .none) else none := by
  unfold Guest.Instr.written? at hw
  unfold isRegisterJump at hjump
  unfold hole?
  cases hk : i.kind with
  | move rd o negate =>
    rw [hk] at hw hjump
    cases hw
    cases o with
    | imm value => rfl
    | reg rm =>
      dsimp only at hjump ⊢
      rw [hjump]
      rfl
  | alu | compare | vmove =>
    rw [hk] at hw
    cases hw
    rfl
  | _ =>
    rw [hk] at hw
    cases hw

theorem moveReg_delivers (hc : c.pcValue = i.pcReadValue) {rm : Guest.Gpr} {negate : Bool}
    (hk : i.kind = .move rd (.reg rm) negate) (hjump : isRegisterJump i = false)
    (hcond : i.absorbsCondition = false → c.cond.holds s.flags = true) {w : Guest.Written}
    (hw : i.writtenUnder? c.cond (s.guest i.address) = some w)
    (hplain : c.cond.holds s.flags = true → i.written? (s.guest i.address) = some w) :
    ∃ is, items config c i = ops is ++ holeItems c i ∧ Delivers is w s := by
  have hb : (rd.isPc && !negate && !i.setsFlags) = false := by
    simpa only [isRegisterJump, hk] using hjump
  have hhole : hole? c i = if rd.isPc then some (.indirectBranch, .none) else none := by
    simp only [hole?, hk, hb, Bool.false_eq_true, if_false]
  cases ha : i.absorbsCondition && !c.cond.isAlways with
  | true =>
    have hitems : items config c i = ops [.csel (pinned rd) (pinned rm) (pinned rd) c.cond] := by
      simp only [items, hk, moveItems, hb, ha, Bool.false_eq_true, if_false, if_true]
    have habsorbs := (Bool.and_eq_true_iff.mp ha).1
    have hrd : rd.isPc = false := by
      cases negate <;> simp_all [Guest.Instr.absorbsCondition]
    refine ⟨_, ?_, select_delivers hk habsorbs c.cond hw⟩
    rw [hitems, holeItems, hhole, hrd]
    exact (List.append_nil _).symm
  | false =>
    have hitems : items config c i = plainMoveItems c i rd (.reg rm) negate := by
      simp only [items, hk, moveItems, hb, ha, Bool.false_eq_true, if_false]
    have hholds : c.cond.holds s.flags = true := by
      cases habsorbs : i.absorbsCondition with
      | false => exact hcond habsorbs
      | true =>
        rw [habsorbs, Bool.true_and, Bool.not_eq_false', Cond.isAlways_iff] at ha
        rw [ha]
        rfl
    exact ⟨_, items_move hitems hhole, move_delivers hc hk (hplain hholds)⟩

/-- Whatever a data instruction writes under its condition is delivered by its instructions, unless
the write is left to a fixup. -/
theorem data_delivers (config : Config) (hc : c.pcValue = i.pcReadValue)
    (hjump : isRegisterJump i = false)
    (hcond : i.absorbsCondition = false → c.cond.holds s.flags = true) {w : Guest.Written}
    (hw : i.writtenUnder? c.cond (s.guest i.address) = some w) :
    ∃ is, items config c i = ops is ++ holeItems c i ∧ Delivers is w s := by
  have hplain : c.cond.holds s.flags = true → i.written? (s.guest i.address) = some w := by
    intro hholds
    obtain ⟨v, hv, rfl⟩ := Option.map_eq_some_iff.mp hw
    exact hv.trans (congrArg some (if_pos hholds).symm)
  cases hk : i.kind with
  | alu op rd rn o =>
    have hholds := hcond (by simp only [Guest.Instr.absorbsCondition, hk])
    exact ⟨_, items_alu hc hk, alu_delivers hk (hplain hholds)⟩
  | move rd o negate =>
    cases o with
    | reg rm => exact moveReg_delivers hc hk hjump hcond hw hplain
    | imm value =>
      have hholds := hcond (by simp only [Guest.Instr.absorbsCondition, hk])
      refine ⟨_, items_move ?_ ?_, move_delivers hc hk (hplain hholds)⟩
      · rw [items, hk]
        rfl
      · simp only [hole?, hk]
  | compare op rn o =>
    have hholds := hcond (by simp only [Guest.Instr.absorbsCondition, hk])
    exact ⟨_, items_compare hc hk, compare_delivers hk (hplain hholds)⟩
  | vmove dd dm =>
    have hholds := hcond (by simp only [Guest.Instr.absorbsCondition, hk])
    obtain ⟨is, his, hdelivers⟩ := vmove_delivers hk (hplain hholds)
    refine ⟨is, ?_, hdelivers⟩
    simp only [items, hk, his, holeItems, hole?]
    exact (List.append_nil _).symm
  | _ =>
    rw [Guest.Instr.writtenUnder?, Guest.Instr.written?, hk] at hw
    cases hw

end Data

end Dynarec.Simulation
