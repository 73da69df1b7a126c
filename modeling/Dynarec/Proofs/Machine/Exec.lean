import Dynarec.Host.Constant
import Dynarec.Proofs.Machine.Host
import Dynarec.Proofs.Placement

/-! # Execution of straight code

What a state is after an update, and after a list of instructions. In normal form the moves of the
program counter stand outermost. -/

namespace Dynarec.Host

namespace State

variable (s : State) (r q : Gpr) (value : DWord) (n k : Nat)

section Skip

@[simp] theorem pc_skip : (s.skip n).pc = s.pc + n := rfl

@[simp] theorem x_skip : (s.skip n).x = s.x := rfl

@[simp] theorem v_skip : (s.skip n).v = s.v := rfl

@[simp] theorem flags_skip : (s.skip n).flags = s.flags := rfl

@[simp] theorem mem_skip : (s.skip n).mem = s.mem := rfl

@[simp] theorem reg_skip : (s.skip n).reg = s.reg := rfl

@[simp] theorem low_skip (width : Width) : (s.skip n).low width r = s.low width r := rfl

@[simp] theorem skip_skip : (s.skip n).skip k = s.skip (n + k) := by
  rw [skip, skip, skip, Nat.add_assoc]

@[simp] theorem skip_zero : s.skip 0 = s := rfl

@[simp] theorem setBase_skip : (s.skip n).setBase r value = (s.setBase r value).skip n := rfl

@[simp] theorem set_skip : (s.skip n).set r value = (s.set r value).skip n := by
  unfold set
  split <;> rfl

@[simp] theorem setLow_skip (w : BitVec k) : (s.skip n).setLow r w = (s.setLow r w).skip n :=
  set_skip s r _ n

@[simp] theorem setV_skip (v : Vreg) (w : BitVec 128) :
    (s.skip n).setV v w = (s.setV v w).skip n := rfl

@[simp] theorem setFlags_skip (f : Nzcv) : (s.skip n).setFlags f = (s.setFlags f).skip n := rfl

@[simp] theorem store_skip (a : DWord) (w : BitVec (8 * k)) :
    (s.skip n).store a k w = (s.store a k w).skip n := rfl

end Skip

section Read

@[simp] theorem pc_set : (s.set r value).pc = s.pc := by
  unfold set
  split <;> rfl

@[simp] theorem v_set : (s.set r value).v = s.v := by
  unfold set
  split <;> rfl

@[simp] theorem flags_set : (s.set r value).flags = s.flags := by
  unfold set
  split <;> rfl

@[simp] theorem mem_set : (s.set r value).mem = s.mem := by
  unfold set
  split <;> rfl

theorem x_setBase_self : (s.setBase r value).x r = value := by
  show (if r = r then value else s.x r) = value
  rw [if_pos rfl]

theorem x_setBase_of_ne (h : q ≠ r) : (s.setBase r value).x q = s.x q := if_neg h

theorem x_set_self (h : r ≠ .zr) : (s.set r value).x r = value := by
  rw [set, if_neg h]
  exact if_pos rfl

theorem x_set_of_ne (h : q ≠ r) : (s.set r value).x q = s.x q := by
  unfold set
  split
  · rfl
  · exact if_neg h

theorem set_set (value' : DWord) : (s.set r value).set r value' = s.set r value' := by
  unfold set
  split
  · rfl
  · have hx : (fun q => if q = r then value' else if q = r then value else s.x q) =
        fun q => if q = r then value' else s.x q := by
      funext q
      split <;> rfl
    rw [setBase, setBase, setBase, hx]

theorem set_self : s.set r (s.x r) = s := by
  unfold set
  split
  · rfl
  · have hx : (fun q => if q = r then s.x r else s.x q) = s.x := by
      funext q
      split
      · rename_i hq
        rw [hq]
      · rfl
    rw [setBase, hx]

theorem set_comm {r q : Gpr} (h : q ≠ r) (value value' : DWord) :
    (s.set r value).set q value' = (s.set q value').set r value := by
  unfold set
  split
  · split <;> rfl
  · split
    · rfl
    · have hx : (fun p => if p = q then value' else if p = r then value else s.x p) =
          fun p => if p = r then value else if p = q then value' else s.x p := by
        funext p
        by_cases hp : p = q
        · rw [if_pos hp, if_neg fun hr => h (hp.symm.trans hr), if_pos hp]
        · rw [if_neg hp, if_neg hp]
      show State.mk _ _ _ _ _ = State.mk _ _ _ _ _
      exact congrArg (State.mk s.pc · s.v s.flags s.mem) hx

theorem reg_set_self (h : r ≠ .zr) : (s.set r value).reg r = value := by
  rw [reg, if_neg h]
  exact x_set_self s r value h

theorem reg_set_of_ne (h : q ≠ r) : (s.set r value).reg q = s.reg q := by
  unfold reg
  rw [x_set_of_ne s r q value h]

theorem low_setLow_self (h : r ≠ .zr) (w : Word) : (s.setLow r w).low .w r = w := by
  unfold low setLow
  rw [reg_set_self s r _ h]
  exact BitVec.setWidth_setWidth_of_le w (Nat.le_of_ble_eq_true rfl)

@[simp] theorem low_zr (width : Width) : s.low width .zr = 0 := by
  unfold low reg
  rw [if_pos rfl]
  exact BitVec.setWidth_zero _ _

@[simp] theorem set_setFlags (f : Nzcv) :
    (s.setFlags f).set r value = (s.set r value).setFlags f := by
  unfold set
  split <;> rfl

theorem setFlags_self {s : State} {f : Nzcv} (h : s.flags = f) : s.setFlags f = s := by
  rw [← h]
  rfl

theorem setLow_setFlags_self {k : Nat} (w : BitVec k) :
    (s.setLow r w).setFlags s.flags = s.setLow r w :=
  setFlags_self (flags_set s r _)

@[simp] theorem low_setFlags (f : Nzcv) (width : Width) :
    (s.setFlags f).low width r = s.low width r := rfl

end Read

end State

/-! ### Lists of instructions -/

def execAll : List Instr → State → Option State
  | [], s => some s
  | i :: is, s => (i.exec s).bind (execAll is)

@[simp] theorem execAll_nil (s : State) : execAll [] s = some s := rfl

theorem execAll_cons {i : Instr} {is : List Instr} {s s' : State} (h : i.exec s = some s') :
    execAll (i :: is) s = execAll is s' := by
  rw [execAll, h]
  rfl

theorem execAll_append {is js : List Instr} {s s' : State} (h : execAll is s = some s') :
    execAll (is ++ js) s = execAll js s' := by
  induction is generalizing s with
  | nil =>
    cases h
    rfl
  | cons i is ih =>
    obtain ⟨t, ht, hs'⟩ := Option.bind_eq_some_iff.mp h
    rw [List.cons_append, execAll_cons ht]
    exact ih hs'

theorem execAll_singleton {i : Instr} {s s' : State} (h : i.exec s = some s') :
    execAll [i] s = some s' :=
  execAll_cons h

/-- An instruction that is no branch goes on to the next one. -/
theorem Instr.pc_exec {i : Instr} (hdisp : i.disp? = none) {s s' : State}
    (h : i.exec s = some s') : s'.pc = s.pc + 1 := by
  cases i with
  | b | bCond | cbz | cbnz => cases hdisp
  | bl | br | blr | ret | brk => cases h
  | _ =>
    cases h
    simp only [State.pc_skip, State.setLow, State.setBase, State.setFlags, State.store, State.setV,
      State.pc_set]

theorem exec_mov (width : Width) (d r : Gpr) (s : State) :
    (Instr.mov width d r).exec s = some ((s.setLow d (s.low width r)).skip 1) := by
  show some (((s.setLow d (s.low width .zr ||| s.low width r)).setFlags s.flags).skip 1) = _
  rw [State.setLow_setFlags_self, State.low_zr]
  exact congrArg (fun w => some ((s.setLow d w).skip 1)) BitVec.zero_or

theorem exec_mvn (d r : Gpr) (s : State) :
    (Instr.mvn d r).exec s = some ((s.setLow d (~~~s.low .w r)).skip 1) := by
  show some (((s.setLow d (s.low .w .zr ||| ~~~s.low .w r)).setFlags s.flags).skip 1) = _
  rw [State.setLow_setFlags_self, State.low_zr]
  exact congrArg (fun w => some ((s.setLow d w).skip 1)) BitVec.zero_or

/-! ### Runs without calls -/

/-- The state `t` is reached from `s` by `n` instructions, none of them a call. -/
def Execs (fetch : Nat → Option Instr) : Nat → State → State → Prop
  | 0, s, t => s = t
  | n + 1, s, t => ∃ i s', fetch s.pc = some i ∧ i.exec s = some s' ∧ Execs fetch n s' t

section Runs

variable {fetch : Nat → Option Instr} {call : State → State → Prop} {n k : Nat} {s s' t : State}

theorem Execs.single {i : Instr} (hi : fetch s.pc = some i) (hs : i.exec s = some t) :
    Execs fetch 1 s t :=
  ⟨i, t, hi, hs, rfl⟩

theorem Execs.trans (h : Execs fetch n s s') (h' : Execs fetch k s' t) :
    Execs fetch (n + k) s t := by
  induction n generalizing s with
  | zero =>
    cases h
    rw [Nat.zero_add]
    exact h'
  | succ n ih =>
    obtain ⟨i, s₁, hi, hs, hrest⟩ := h
    rw [Nat.add_right_comm]
    exact ⟨i, s₁, hi, hs, ih hrest⟩

theorem Execs.run (h : Execs fetch n s t) : Run fetch call n s t := by
  induction n generalizing s with
  | zero =>
    cases h
    exact .refl _
  | succ n ih =>
    obtain ⟨i, s₁, hi, hs, hrest⟩ := h
    exact .step (.exec hi hs) (ih hrest)

/-- The state after `n` instructions, none of them a call. -/
def advance (fetch : Nat → Option Instr) : Nat → State → Option State
  | 0, s => some s
  | n + 1, s => (fetch s.pc).bind fun i => (i.exec s).bind (advance fetch n)

theorem execs_iff_advance : Execs fetch n s t ↔ advance fetch n s = some t := by
  induction n generalizing s with
  | zero => exact (Option.some_inj (a := s)).symm
  | succ n ih =>
    simp only [Execs, advance, Option.bind_eq_some_iff, ih, exists_and_left]

theorem Run.trans (h : Run fetch call n s s') (h' : Run fetch call k s' t) :
    Run fetch call (n + k) s t := by
  induction h with
  | refl s =>
    rw [Nat.zero_add]
    exact h'
  | step hstep hrun ih =>
    rw [Nat.add_right_comm]
    exact .step hstep (ih h')

/-- Instructions other than calls and final jumps have one outcome, so a run to a final jump goes
through it. -/
theorem Run.after_execs {r : Gpr} (hrun : Run fetch call n s t) (hstop : fetch t.pc = some (.br r))
    (h : Execs fetch k s s') : ∃ m, n = k + m ∧ Run fetch call m s' t := by
  induction k generalizing n s with
  | zero =>
    cases h
    exact ⟨n, (Nat.zero_add n).symm, hrun⟩
  | succ k ih =>
    obtain ⟨i, s₁, hi, hs, hrest⟩ := h
    cases hrun with
    | refl =>
      rw [hi] at hstop
      cases hstop
      cases hs
    | step hstep hrun =>
      cases hstep with
      | exec hi' hs' =>
        rw [hi] at hi'
        cases hi'
        rw [hs] at hs'
        cases hs'
        obtain ⟨m, rfl, hm⟩ := ih hrun hrest
        exact ⟨m, Nat.add_right_comm k m 1, hm⟩
      | call hi' =>
        rw [hi] at hi'
        cases hi'
        cases hs

end Runs

/-- The instructions are found from index `k` on. -/
def Found (fetch : Nat → Option Instr) : Nat → List Instr → Prop :=
  Compile.AllFrom fun k i => fetch k = some i

/-- Control goes from `s` through the instructions at the indices of a list, one after the other,
and comes to `t`. -/
def Visits (fetch : Nat → Option Instr) : List Nat → State → State → Prop
  | [], s, t => s = t
  | k :: ks, s, t =>
    s.pc = k ∧ ∃ i s', fetch k = some i ∧ i.exec s = some s' ∧ Visits fetch ks s' t

section Visits

variable {fetch : Nat → Option Instr} {ks ls : List Nat} {k : Nat} {s s' t : State}

theorem Visits.single {i : Instr} (hs : s.pc = k) (hi : fetch k = some i) (ht : i.exec s = some t) :
    Visits fetch [k] s t :=
  ⟨hs, i, t, hi, ht, rfl⟩

theorem Visits.trans (h : Visits fetch ks s s') (h' : Visits fetch ls s' t) :
    Visits fetch (ks ++ ls) s t := by
  induction ks generalizing s with
  | nil =>
    cases h
    exact h'
  | cons k ks ih =>
    obtain ⟨hk, i, s₁, hi, hs, hrest⟩ := h
    exact ⟨hk, i, s₁, hi, hs, ih hrest⟩

theorem Visits.execs (h : Visits fetch ks s t) : Execs fetch ks.length s t := by
  induction ks generalizing s with
  | nil => exact h
  | cons k ks ih =>
    obtain ⟨rfl, i, s₁, hi, hs, hrest⟩ := h
    exact ⟨i, s₁, hi, hs, ih hrest⟩

/-- Straight code is run through from front to back. -/
theorem visits_of_execAll {is : List Instr} (hat : Found fetch s.pc is) (hs : Straight is)
    (h : execAll is s = some t) :
    Visits fetch (List.range' s.pc is.length) s t ∧ t.pc = s.pc + is.length := by
  induction is generalizing s with
  | nil =>
    cases h
    exact ⟨rfl, rfl⟩
  | cons i is ih =>
    obtain ⟨s₁, hs₁, hrest⟩ := Option.bind_eq_some_iff.mp h
    obtain ⟨hi, his⟩ := straight_cons.mp hs
    obtain ⟨hfirst, hat⟩ := Compile.allFrom_cons.mp hat
    have hpc := Instr.pc_exec (isStraight_iff.mp hi).2.1 hs₁
    rw [← hpc] at hat
    obtain ⟨hrun, hend⟩ := ih hat his hrest
    rw [hpc] at hrun
    refine ⟨⟨rfl, i, s₁, hfirst, hs₁, hrun⟩, ?_⟩
    rw [hend, hpc, List.length_cons, Nat.add_assoc, Nat.add_comm 1]

theorem execs_of_execAll {is : List Instr} (hat : Found fetch s.pc is) (hs : Straight is)
    (h : execAll is s = some t) : Execs fetch is.length s t ∧ t.pc = s.pc + is.length := by
  obtain ⟨hrun, hpc⟩ := visits_of_execAll hat hs h
  have hexecs := hrun.execs
  rw [List.length_range'] at hexecs
  exact ⟨hexecs, hpc⟩

end Visits

/-! ### Constants -/

theorem getLsbD_insertField {n : Nat} (old new : BitVec n) (lsb width i : Nat) (hi : i < n) :
    (insertField old new lsb width).getLsbD i =
      if lsb ≤ i ∧ i < lsb + width then new.getLsbD (i - lsb) else old.getLsbD i := by
  simp only [insertField, BitVec.getLsbD_or, BitVec.getLsbD_and, BitVec.getLsbD_not,
    BitVec.getLsbD_shiftLeft, BitVec.getLsbD_setWidth, BitVec.getLsbD_allOnes, hi, decide_true,
    Bool.true_and]
  by_cases hl : i < lsb
  · have hn : ¬(lsb ≤ i ∧ i < lsb + width) := fun h => by omega
    simp only [hl, decide_true, Bool.not_true, Bool.false_and, Bool.not_false, Bool.and_true,
      Bool.or_false, hn, if_false]
  · by_cases hw : i - lsb < width
    · have hp : lsb ≤ i ∧ i < lsb + width := by omega
      have hn : i - lsb < n := by omega
      simp only [hl, hw, hn, hp, decide_true, decide_false, Bool.not_true, Bool.not_false,
        Bool.true_and, Bool.and_false, Bool.and_true, Bool.false_or, and_self, if_true]
    · have hn : ¬(lsb ≤ i ∧ i < lsb + width) := fun h => by omega
      simp only [hw, hn, decide_false, Bool.and_false, Bool.not_false, Bool.and_true,
        Bool.or_false, if_false]

/-- A word whose high half is zero is its low half. -/
theorem low_half_eq {v : Word} (h : v.extractLsb' 16 16 = 0) :
    (v.extractLsb' 0 16).setWidth 32 <<< 0 = v := by
  have hv := congrArg BitVec.toNat h
  have hzero : (0 : BitVec 16).toNat = 0 := rfl
  refine BitVec.eq_of_toNat_eq ?_
  simp only [BitVec.extractLsb'_toNat, BitVec.toNat_setWidth, BitVec.toNat_shiftLeft,
    Nat.shiftLeft_eq, Nat.shiftRight_eq_div_pow, hzero] at hv ⊢
  omega

theorem high_half_eq {v : Word} (h : v.extractLsb' 0 16 = 0) :
    (v.extractLsb' 16 16).setWidth 32 <<< 16 = v := by
  have hv := congrArg BitVec.toNat h
  have hzero : (0 : BitVec 16).toNat = 0 := rfl
  refine BitVec.eq_of_toNat_eq ?_
  simp only [BitVec.extractLsb'_toNat, BitVec.toNat_setWidth, BitVec.toNat_shiftLeft,
    Nat.shiftLeft_eq, Nat.shiftRight_eq_div_pow, hzero] at hv ⊢
  omega

/-- A word is its low half with its high half inserted. -/
theorem insertField_halves (v : Word) :
    insertField ((v.extractLsb' 0 16).setWidth 32 <<< 0) ((v.extractLsb' 16 16).setWidth 32) 16 16 =
      v := by
  refine BitVec.eq_of_getLsbD_eq fun i hi => ?_
  rw [getLsbD_insertField _ _ _ _ _ hi]
  split
  · have hlow : i - 16 < 16 := by omega
    have hsum : 16 + (i - 16) = i := by omega
    simp only [BitVec.getLsbD_setWidth, BitVec.getLsbD_extractLsb', hlow, decide_true,
      Bool.true_and, hsum, Nat.lt_of_lt_of_le hlow (Nat.le_of_ble_eq_true rfl : 16 ≤ 32)]
  · have hlow : i < 16 := by omega
    simp only [BitVec.shiftLeft_zero, BitVec.getLsbD_setWidth, BitVec.getLsbD_extractLsb', hlow, hi,
      decide_true, Bool.true_and, Nat.zero_add]

theorem execAll_loadWord (x : Gpr) (v : Word) (s : State) :
    execAll (loadWord x v) s = some ((s.setLow x v).skip (loadWord x v).length) := by
  unfold loadWord
  dsimp only
  split
  · rename_i h
    have hv := low_half_eq (beq_iff_eq.mp h)
    refine execAll_singleton ?_
    show some ((s.setLow x ((v.extractLsb' 0 16).setWidth 32 <<< 0)).skip 1) = _
    rw [hv]
    rfl
  · split
    · rename_i h
      have hv := high_half_eq (beq_iff_eq.mp h)
      refine execAll_singleton ?_
      show some ((s.setLow x ((v.extractLsb' 16 16).setWidth 32 <<< 16)).skip 1) = _
      rw [hv]
      rfl
    · let lo : Word := (v.extractLsb' 0 16).setWidth 32 <<< 0
      have hfirst : (Instr.movz .w x (v.extractLsb' 0 16) 0).exec s =
          some ((s.setLow x lo).skip 1) := rfl
      rw [execAll_cons hfirst]
      refine execAll_singleton ?_
      show some ((State.setLow _ x (insertField (State.low _ .w x) _ 16 16)).skip 1) = _
      rw [State.setLow_skip, State.low_skip, State.skip_skip]
      by_cases hx : x = .zr
      · subst hx
        rfl
      · rw [State.low_setLow_self s x hx lo]
        show some ((State.set (s.set x _) x _).skip 2) = _
        rw [State.set_set]
        exact congrArg (fun w : Word => some ((s.setLow x w).skip 2)) (insertField_halves v)

/-- The value with sixteen-bit parts inserted at their places. -/
def insertParts (w : DWord) (parts : List (BitVec 2 × BitVec 16)) : DWord :=
  parts.foldl (fun w p => insertField w (p.2.setWidth 64) (16 * p.1.toNat) 16) w

theorem getLsbD_zero_lit {n : Nat} (i : Nat) : (0 : BitVec n).getLsbD i = false := BitVec.getLsbD_zero

theorem insertField_zero (part : BitVec 16) (lsb : Nat) :
    insertField (0 : DWord) (part.setWidth 64) lsb 16 = part.setWidth 64 <<< lsb := by
  refine BitVec.eq_of_getLsbD_eq fun i hi => ?_
  rw [getLsbD_insertField _ _ _ _ _ hi, BitVec.getLsbD_shiftLeft, getLsbD_zero_lit]
  by_cases hl : i < lsb
  · have hn : ¬(lsb ≤ i ∧ i < lsb + 16) := fun h => by omega
    simp only [hl, hn, if_false, decide_true, Bool.not_true, Bool.and_false, Bool.false_and]
  · by_cases hw : i < lsb + 16
    · have hp : lsb ≤ i ∧ i < lsb + 16 := by omega
      simp only [hl, hi, hp, if_true, and_self, decide_true, decide_false, Bool.not_false,
        Bool.true_and]
    · have hn : ¬(lsb ≤ i ∧ i < lsb + 16) := fun h => by omega
      have hout : part.getLsbD (i - lsb) = false := BitVec.getLsbD_of_ge _ _ (by omega)
      simp only [hn, if_false, BitVec.getLsbD_setWidth, hout, Bool.and_false]

/-- Parts that are inserted where a value has been cleared give the value. -/
theorem insertParts_eq {v : DWord} {ps : List (BitVec 2)} (hps : ps.Nodup) {w : DWord}
    (h : ∀ i < 64, w.getLsbD i = (v.getLsbD i && decide (∀ p ∈ ps, i / 16 ≠ p.toNat))) :
    insertParts w (ps.filterMap fun p =>
      let part := v.extractLsb' (16 * p.toNat) 16
      if part == 0 then none else some (p, part)) = v := by
  induction ps generalizing w with
  | nil =>
    refine BitVec.eq_of_getLsbD_eq fun i hi => ?_
    have hall : ∀ p ∈ ([] : List (BitVec 2)), i / 16 ≠ p.toNat := fun p hp => nomatch hp
    show w.getLsbD i = _
    rw [h i hi, decide_eq_true hall, Bool.and_true]
  | cons p ps ih =>
    obtain ⟨hp, hps⟩ := List.nodup_cons.mp hps
    have hbit : ∀ i < 64, i / 16 = p.toNat →
        v.getLsbD i = (v.extractLsb' (16 * p.toNat) 16).getLsbD (i - 16 * p.toNat) := by
      intro i hi hip
      have hlow : i - 16 * p.toNat < 16 := by omega
      have hsum : 16 * p.toNat + (i - 16 * p.toNat) = i := by omega
      rw [BitVec.getLsbD_extractLsb', decide_eq_true hlow, Bool.true_and, hsum]
    have hfresh : ∀ i, i / 16 = p.toNat → ∀ q ∈ ps, i / 16 ≠ q.toNat := by
      intro i hip q hq hiq
      have hpq : p = q := BitVec.eq_of_toNat_eq (hip.symm.trans hiq)
      exact hp (hpq ▸ hq)
    rw [List.filterMap_cons]
    dsimp only
    cases hz : (v.extractLsb' (16 * p.toNat) 16 == 0) with
    | true =>
      refine ih hps fun i hi => ?_
      rw [h i hi]
      by_cases hip : i / 16 = p.toNat
      · rw [hbit i hi hip, beq_iff_eq.mp hz, getLsbD_zero_lit, Bool.false_and, Bool.false_and]
      · simp only [List.forall_mem_cons, ne_eq, hip, not_false_eq_true, true_and]
    | false =>
      refine ih hps fun i hi => ?_
      rw [getLsbD_insertField _ _ _ _ _ hi]
      by_cases hip : i / 16 = p.toNat
      · have hrange : 16 * p.toNat ≤ i ∧ i < 16 * p.toNat + 16 := by omega
        have hlow : i - 16 * p.toNat < 64 := by omega
        rw [if_pos hrange, decide_eq_true (hfresh i hip), Bool.and_true, BitVec.getLsbD_setWidth,
          decide_eq_true hlow, Bool.true_and, hbit i hi hip]
      · have hrange : ¬(16 * p.toNat ≤ i ∧ i < 16 * p.toNat + 16) := fun hr => hip (by omega)
        rw [if_neg hrange, h i hi]
        simp only [List.forall_mem_cons, ne_eq, hip, not_false_eq_true, true_and]

theorem insertParts_nonzeroParts (v : DWord) : insertParts 0 (nonzeroParts v) = v := by
  refine insertParts_eq (by decide) fun i hi => ?_
  have hsome : ¬∀ p ∈ ([0, 1, 2, 3] : List (BitVec 2)), i / 16 ≠ p.toNat := by
    have h4 : i / 16 < 4 := by omega
    intro hall
    refine hall (BitVec.ofNat 2 (i / 16)) ?_ ?_
    · have hcases : i / 16 = 0 ∨ i / 16 = 1 ∨ i / 16 = 2 ∨ i / 16 = 3 := by omega
      rcases hcases with h | h | h | h <;> rw [h] <;> decide
    · rw [BitVec.toNat_ofNat]
      omega
  rw [getLsbD_zero_lit, decide_eq_false hsome, Bool.and_false]

theorem execAll_insertParts (x : Gpr) (parts : List (BitVec 2 × BitVec 16)) (s : State)
    (w : DWord) :
    execAll (parts.map fun (q, part) => .movk .x x part q) (s.set x w) =
      some ((s.set x (insertParts w parts)).skip parts.length) := by
  induction parts generalizing s w with
  | nil => rfl
  | cons part parts ih =>
    let w' := insertField w (part.2.setWidth 64) (16 * part.1.toNat) 16
    have hfirst : (Instr.movk .x x part.2 part.1).exec (s.set x w) =
        some ((s.skip 1).set x w') := by
      show some ((State.set (s.set x w) x _).skip 1) = _
      rw [State.set_set, State.set_skip]
      by_cases hx : x = .zr
      · subst hx
        rfl
      · rw [State.low, State.reg_set_self s x w hx, BitVec.setWidth_eq, BitVec.setWidth_eq]
    rw [List.map_cons, execAll_cons hfirst, ih, State.set_skip, State.skip_skip, List.length_cons,
      Nat.add_comm 1]
    rfl

theorem execAll_loadDWord (x : Gpr) (v : DWord) (s : State) :
    execAll (loadDWord x v) s = some ((s.set x v).skip (loadDWord x v).length) := by
  have hv := insertParts_nonzeroParts v
  unfold loadDWord
  split
  · rename_i hnil
    rw [hnil] at hv
    rw [← hv]
    rfl
  · rename_i p part rest hparts
    rw [hparts] at hv
    have hfirst : (Instr.movz .x x part p).exec s =
        some ((s.skip 1).set x (insertField 0 (part.setWidth 64) (16 * p.toNat) 16)) := by
      rw [State.set_skip, insertField_zero]
      show some ((State.set s x _).skip 1) = _
      rw [BitVec.setWidth_eq]
    rw [execAll_cons hfirst, execAll_insertParts, State.set_skip, State.skip_skip, List.length_cons,
      List.length_map, Nat.add_comm 1]
    exact congrArg (fun w => some ((s.set x w).skip (rest.length + 1))) hv

end Dynarec.Host
