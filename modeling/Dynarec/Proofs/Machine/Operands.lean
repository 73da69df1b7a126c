import Dynarec.Proofs.Machine.Guard

/-! # Operands

The registers, flags and bytes of memory that an instruction names. Execution changes nothing but
what an instruction writes, and what it leaves there depends on nothing but what it reads. -/

namespace Dynarec.Host

/-- A register as an operand of an instruction to which number 31 is not a register. -/
def Gpr.operand (r : Gpr) : List Gpr := if r = .zr then [] else [r]

theorem Gpr.mem_operand {r q : Gpr} : q ∈ r.operand ↔ q = r ∧ r ≠ .zr := by
  unfold operand
  split
  · rename_i hr
    exact ⟨fun h => absurd h List.not_mem_nil, fun h => absurd hr h.2⟩
  · rename_i hr
    rw [List.mem_singleton]
    exact ⟨fun h => ⟨h, hr⟩, And.left⟩

def DataOp.readsFlags : DataOp → Bool
  | adc | adcs | sbc | sbcs => true
  | _ => false

namespace Instr

/-- The general registers that the instruction reads. Number 31 is the stack pointer. -/
def reads : Instr → List Gpr
  | cbz rt _ | cbnz rt _ | msrFlags rt => rt.operand
  | br rn | blr rn | lsrW _ rn _ | lsrX _ rn _ => rn.operand
  | ret => [.lr]
  | movk _ rd _ _ => rd.operand
  | addImm _ _ rn _ | subImm _ _ rn _ | ldr _ _ rn _ | ldrV _ _ rn _ | strV _ _ rn _ | ldp _ _ rn _
  | ldpPost _ _ rn _ | ldrPost _ rn _ | strVPre _ rn _ | ldrVPost _ rn _ => [rn]
  | data _ _ _ rn rm | csel _ rn rm _ => rn.operand ++ rm.operand
  | bfi rd rn _ _ => rd.operand ++ rn.operand
  | str _ rt rn _ | strPre rt rn _ => rn :: rt.operand
  | stp rt rt2 rn _ | stpPre rt rt2 rn _ => rn :: (rt.operand ++ rt2.operand)
  | b _ | bl _ | bCond _ _ | nop | brk _ | movz .. | mrsFlags _ | fmov _ _ => []

/-- The general registers that the instruction writes. -/
def writes : Instr → List Gpr
  | bl _ | blr _ => [.lr]
  | movz _ rd _ _ | movk _ rd _ _ | data _ _ rd _ _ | csel rd _ _ _ | lsrW rd _ _ | lsrX rd _ _
  | bfi rd _ _ _ => rd.operand
  | mrsFlags rt | ldr _ rt _ _ => rt.operand
  | addImm _ rd _ _ | subImm _ rd _ _ => [rd]
  | ldp rt rt2 _ _ => rt.operand ++ rt2.operand
  | stpPre _ _ rn _ | strPre _ rn _ | strVPre _ rn _ | ldrVPost _ rn _ => [rn]
  | ldpPost rt rt2 rn _ => rn :: (rt.operand ++ rt2.operand)
  | ldrPost rt rn _ => rn :: rt.operand
  | b _ | bCond _ _ | cbz _ _ | cbnz _ _ | br _ | ret | nop | brk _ | msrFlags _ | str .. | ldrV ..
  | strV .. | stp .. | fmov _ _ => []

/-- The vector registers that the instruction reads. -/
def vreads : Instr → List Vreg
  | strV _ rt _ _ | strVPre rt _ _ => [rt]
  | fmov _ rn => [rn]
  | _ => []

/-- The vector registers that the instruction writes. -/
def vwrites : Instr → List Vreg
  | ldrV _ rt _ _ | ldrVPost rt _ _ => [rt]
  | fmov rd _ => [rd]
  | _ => []

def readsFlags : Instr → Bool
  | bCond _ _ | csel .. | mrsFlags _ => true
  | data op .. => op.readsFlags
  | _ => false

def writesFlags : Instr → Bool
  | data op .. => op.setsFlags
  | msrFlags _ => true
  | _ => false

/-- The memory that the instruction loads or stores: a base register, how far the first byte is
from it, and the number of bytes. -/
def access? : Instr → Option (Gpr × Int × Nat)
  | ldr width _ rn offset | str width _ rn offset => some (rn, offset, width.bytes)
  | ldrV width _ rn offset | strV width _ rn offset => some (rn, offset, width.bytes)
  | stp _ _ rn offset | ldp _ _ rn offset | stpPre _ _ rn offset => some (rn, offset, 16)
  | strPre _ rn offset | strVPre _ rn offset => some (rn, offset, 8)
  | ldpPost _ _ rn _ => some (rn, 0, 16)
  | ldrPost _ rn _ | ldrVPost _ rn _ => some (rn, 0, 8)
  | _ => none

end Instr

namespace State

variable (s : State) {r q : Gpr} (value : DWord)

theorem x_set_of_not_mem (h : q ∉ r.operand) : (s.set r value).x q = s.x q := by
  unfold set
  split
  · rfl
  · rename_i hr
    exact x_setBase_of_ne s r q value fun hq => h (Gpr.mem_operand.mpr ⟨hq, hr⟩)

theorem x_set_of_mem (h : q ∈ r.operand) : (s.set r value).x q = value := by
  obtain ⟨rfl, hq⟩ := Gpr.mem_operand.mp h
  exact x_set_self s q value hq

theorem x_set_congr {s s' : State} {l : List Gpr} (h : ∀ q ∈ l, s'.x q = s.x q) :
    ∀ q ∈ l ++ r.operand, (s'.set r value).x q = (s.set r value).x q := by
  intro q hq
  by_cases hr : q ∈ r.operand
  · rw [x_set_of_mem s' value hr, x_set_of_mem s value hr]
  · rw [x_set_of_not_mem s' value hr, x_set_of_not_mem s value hr]
    exact h q ((List.mem_append.mp hq).resolve_right hr)

/-- Operands are equal if the registers are. -/
theorem reg_congr {s s' : State} (h : ∀ q ∈ r.operand, s'.x q = s.x q) : s'.reg r = s.reg r := by
  unfold reg
  split
  · rfl
  · rename_i hr
    exact h r (Gpr.mem_operand.mpr ⟨rfl, hr⟩)

theorem low_congr {s s' : State} (h : ∀ q ∈ r.operand, s'.x q = s.x q) (width : Width) :
    s'.low width r = s.low width r := by
  rw [low, low, reg_congr h]

end State

theorem DataOp.eval_congr {op : DataOp} {f g : Nzcv} (h : op.readsFlags = true → g = f) {n : Nat}
    (a b : BitVec n) : (op.eval g a b).1 = (op.eval f a b).1 ∧
      (op.setsFlags = true → (op.eval g a b).2 = (op.eval f a b).2) := by
  cases op with
  | adc | adcs | sbc | sbcs =>
    rw [h rfl]
    exact ⟨rfl, fun _ => rfl⟩
  | adds | subs | ands => exact ⟨rfl, fun _ => rfl⟩
  | add | sub | and | orr | orn | eor | bic => exact ⟨rfl, fun hs => by cases hs⟩

namespace Instr

variable {i : Instr} {s t : State}

theorem x_jump {d : Int} (h : s.jump d = some t) : t.x = s.x ∧ t.v = s.v ∧ t.mem = s.mem := by
  unfold State.jump at h
  split at h
  · cases h
    exact ⟨rfl, rfl, rfl⟩
  · cases h

/-- A register that an instruction does not write stays. -/
theorem x_exec (h : i.exec s = some t) {q : Gpr} (hq : q ∉ i.writes) : t.x q = s.x q := by
  cases hd : i.disp? with
  | some d =>
    rcases exec_branch hd h with hjump | rfl
    · rw [(x_jump hjump).1]
    · rfl
  | none =>
    cases i with
    | b | bCond | cbz | cbnz => cases hd
    | bl | br | blr | ret | brk => cases h
    | movz _ rd | movk _ rd | data _ _ rd | csel rd | lsrW rd | lsrX rd | bfi rd | mrsFlags rd
    | ldr _ rd =>
      cases h
      exact State.x_set_of_not_mem s _ hq
    | addImm _ rd | subImm _ rd =>
      cases h
      exact State.x_setBase_of_ne s _ q _ (List.ne_of_not_mem_cons hq)
    | ldp rt rt2 =>
      cases h
      rw [writes, List.mem_append, not_or] at hq
      exact (State.x_set_of_not_mem _ _ hq.2).trans (State.x_set_of_not_mem s _ hq.1)
    | stpPre | strPre | strVPre | ldrVPost =>
      cases h
      exact State.x_setBase_of_ne _ _ q _ (List.ne_of_not_mem_cons hq)
    | ldpPost rt rt2 rn =>
      cases h
      rw [writes, List.mem_cons, List.mem_append, not_or, not_or] at hq
      exact (State.x_set_of_not_mem _ _ hq.2.2).trans
        ((State.x_set_of_not_mem _ _ hq.2.1).trans (State.x_setBase_of_ne s _ q _ hq.1))
    | ldrPost rt rn =>
      cases h
      rw [writes, List.mem_cons, not_or] at hq
      exact (State.x_set_of_not_mem _ _ hq.2).trans (State.x_setBase_of_ne s _ q _ hq.1)
    | nop | msrFlags | str | ldrV | strV | stp | fmov =>
      cases h
      rfl

theorem v_exec (h : i.exec s = some t) {q : Vreg} (hq : q ∉ i.vwrites) : t.v q = s.v q := by
  cases hd : i.disp? with
  | some d =>
    rcases exec_branch hd h with hjump | rfl
    · rw [(x_jump hjump).2.1]
    · rfl
  | none =>
    cases i with
    | b | bCond | cbz | cbnz => cases hd
    | bl | br | blr | ret | brk => cases h
    | ldrV | ldrVPost | fmov =>
      cases h
      exact if_neg (List.ne_of_not_mem_cons hq)
    | _ =>
      cases h
      simp only [State.v_skip, State.setLow, State.setBase, State.store, State.setFlags, State.v_set]

theorem flags_exec_of_not_writes (h : i.exec s = some t) (hi : i.writesFlags = false) :
    t.flags = s.flags := by
  refine flags_exec ?_ h
  cases i with
  | data op => exact congrArg not hi
  | msrFlags => cases hi
  | bl | blr => cases h
  | _ => rfl

/-- A byte that an instruction does not access stays. -/
theorem mem_exec (h : i.exec s = some t) {a : DWord}
    (ha : ∀ rn offset n, i.access? = some (rn, offset, n) →
      Mem.Outside (s.x rn + BitVec.ofInt 64 offset) n a) : t.mem a = s.mem a := by
  have hpair : ∀ {base : DWord}, Mem.Outside base 16 a →
      Mem.Outside base 8 a ∧ Mem.Outside (base + 8) 8 a :=
    fun h => ⟨h.mono (Nat.le_of_ble_eq_true rfl), h.part (o := 8) (Nat.le_refl _)⟩
  cases hd : i.disp? with
  | some d =>
    rcases exec_branch hd h with hjump | rfl
    · rw [(x_jump hjump).2.2]
    · rfl
  | none =>
    cases i with
    | b | bCond | cbz | cbnz => cases hd
    | bl | br | blr | ret | brk => cases h
    | str | strV | strPre | strVPre =>
      cases h
      exact Mem.write_of_outside (ha _ _ _ rfl) _
    | stp | stpPre =>
      cases h
      obtain ⟨hlow, hhigh⟩ := hpair (ha _ _ _ rfl)
      exact (Mem.write_of_outside hhigh _).trans (Mem.write_of_outside hlow _)
    | _ =>
      cases h
      simp only [State.mem_skip, State.setLow, State.setBase, State.setV, State.setFlags,
        State.mem_set]

/-- Two states agree on what the instruction reads. -/
structure Agree (i : Instr) (s s' : State) : Prop where
  pc : s'.pc = s.pc
  mem : s'.mem = s.mem
  x : ∀ q ∈ i.reads, s'.x q = s.x q
  v : ∀ q ∈ i.vreads, s'.v q = s.v q
  flags : i.readsFlags = true → s'.flags = s.flags

/-- What the instruction leaves in two states is the same. -/
structure Same (i : Instr) (t t' : State) : Prop where
  pc : t'.pc = t.pc
  mem : t'.mem = t.mem
  x : ∀ q ∈ i.writes, t'.x q = t.x q
  v : ∀ q ∈ i.vwrites, t'.v q = t.v q
  flags : i.writesFlags = true → t'.flags = t.flags

section Same

variable {s' : State} (hpc : s'.pc = s.pc) (hmem : s'.mem = s.mem)

include hpc hmem

theorem same_jump {d : Int} (hw : i.writes = []) (hv : i.vwrites = []) (hf : i.writesFlags = false)
    (h : s.jump d = some t) : ∃ t', s'.jump d = some t' ∧ i.Same t t' := by
  unfold State.jump at h ⊢
  split at h
  · rename_i hd
    cases h
    rw [hpc, if_pos hd]
    exact ⟨_, rfl, rfl, hmem, by simp [hw], by simp [hv], by simp [hf]⟩
  · cases h

theorem same_skip (hw : i.writes = []) (hv : i.vwrites = []) (hf : i.writesFlags = false) :
    i.Same (s.skip 1) (s'.skip 1) :=
  ⟨congrArg (· + 1) hpc, hmem, by simp [hw], by simp [hv], by simp [hf]⟩

theorem same_set {r : Gpr} {value value' : DWord} (hvalue : value' = value)
    (hw : i.writes = r.operand) (hv : i.vwrites = []) (hf : i.writesFlags = false) :
    i.Same ((s.set r value).skip 1) ((s'.set r value').skip 1) := by
  subst hvalue
  refine ⟨?_, ?_, fun q hq => ?_, by simp [hv], by simp [hf]⟩
  · simp only [State.pc_skip, State.pc_set, hpc]
  · simp only [State.mem_skip, State.mem_set, hmem]
  · rw [hw] at hq
    exact (State.x_set_of_mem s' _ hq).trans (State.x_set_of_mem s _ hq).symm

theorem same_setBase {r : Gpr} {value value' : DWord} (hvalue : value' = value)
    (hw : i.writes = [r]) (hv : i.vwrites = []) (hf : i.writesFlags = false) :
    i.Same ((s.setBase r value).skip 1) ((s'.setBase r value').skip 1) := by
  subst hvalue
  refine ⟨congrArg (· + 1) hpc, hmem, fun q hq => ?_, by simp [hv], by simp [hf]⟩
  rw [hw] at hq
  rw [List.mem_singleton.mp hq]
  exact (State.x_setBase_self s' r _).trans (State.x_setBase_self s r _).symm

theorem same_setV {r : Vreg} {value value' : BitVec 128} (hvalue : value' = value)
    (hw : i.writes = []) (hv : i.vwrites = [r]) (hf : i.writesFlags = false) :
    i.Same ((s.setV r value).skip 1) ((s'.setV r value').skip 1) := by
  subst hvalue
  refine ⟨congrArg (· + 1) hpc, hmem, by simp [hw], fun q hq => ?_, by simp [hf]⟩
  rw [hv] at hq
  rw [List.mem_singleton.mp hq]
  exact (if_pos rfl).trans (if_pos rfl).symm

end Same

/-- What an instruction leaves depends on nothing but what it reads. -/
theorem exec_congr {s' : State} (ha : i.Agree s s') (h : i.exec s = some t) :
    ∃ t', i.exec s' = some t' ∧ i.Same t t' := by
  obtain ⟨hpc, hmem, hx, hv, hflags⟩ := ha
  cases i with
  | b => exact same_jump hpc hmem rfl rfl rfl h
  | bCond c =>
    simp only [exec, hflags rfl] at h ⊢
    by_cases hc : c.holds s.flags = true
    · rw [if_pos hc] at h ⊢
      exact same_jump hpc hmem rfl rfl rfl h
    · rw [if_neg hc] at h ⊢
      cases h
      exact ⟨_, rfl, same_skip hpc hmem rfl rfl rfl⟩
  | cbz rt =>
    simp only [exec, State.low_congr hx] at h ⊢
    by_cases hz : s.low .w rt = 0
    · rw [if_pos hz] at h ⊢
      exact same_jump hpc hmem rfl rfl rfl h
    · rw [if_neg hz] at h ⊢
      cases h
      exact ⟨_, rfl, same_skip hpc hmem rfl rfl rfl⟩
  | cbnz rt =>
    simp only [exec, State.low_congr hx] at h ⊢
    by_cases hz : s.low .w rt = 0
    · rw [if_pos hz] at h ⊢
      cases h
      exact ⟨_, rfl, same_skip hpc hmem rfl rfl rfl⟩
    · rw [if_neg hz] at h ⊢
      exact same_jump hpc hmem rfl rfl rfl h
  | bl | br | blr | ret | brk => cases h
  | nop =>
    cases h
    exact ⟨_, rfl, same_skip hpc hmem rfl rfl rfl⟩
  | movz =>
    cases h
    exact ⟨_, rfl, same_set hpc hmem rfl rfl rfl rfl⟩
  | movk | lsrW | lsrX =>
    cases h
    refine ⟨_, rfl, same_set hpc hmem ?_ rfl rfl rfl⟩
    rw [State.low_congr hx]
  | csel rd rn rm =>
    cases h
    refine ⟨_, rfl, same_set hpc hmem ?_ rfl rfl rfl⟩
    rw [hflags rfl, State.low_congr fun q hq => hx q (List.mem_append_left _ hq),
      State.low_congr fun q hq => hx q (List.mem_append_right _ hq)]
  | bfi rd rn =>
    cases h
    refine ⟨_, rfl, same_set hpc hmem ?_ rfl rfl rfl⟩
    rw [State.low_congr fun q hq => hx q (List.mem_append_left _ hq),
      State.low_congr fun q hq => hx q (List.mem_append_right _ hq)]
  | mrsFlags =>
    cases h
    refine ⟨_, rfl, same_set hpc hmem ?_ rfl rfl rfl⟩
    rw [hflags rfl]
  | ldr width rt rn =>
    cases h
    refine ⟨_, rfl, same_set hpc hmem ?_ rfl rfl rfl⟩
    rw [hmem, hx rn List.mem_cons_self]
  | addImm width rd rn | subImm width rd rn =>
    cases h
    refine ⟨_, rfl, same_setBase hpc hmem ?_ rfl rfl rfl⟩
    rw [hx rn List.mem_cons_self]
  | ldrV width rt rn =>
    cases h
    refine ⟨_, rfl, same_setV hpc hmem ?_ rfl rfl rfl⟩
    rw [hmem, hx rn List.mem_cons_self]
  | fmov rd rn =>
    cases h
    refine ⟨_, rfl, same_setV hpc hmem ?_ rfl rfl rfl⟩
    rw [hv rn List.mem_cons_self]
  | msrFlags rt =>
    cases h
    refine ⟨_, rfl, congrArg (· + 1) hpc, hmem, fun q hq => absurd hq List.not_mem_nil,
      fun q hq => absurd hq List.not_mem_nil, fun _ => ?_⟩
    exact congrArg Nzcv.ofWord (State.low_congr hx .w)
  | data op width rd rn rm =>
    have hn := State.low_congr (fun q hq => hx q (List.mem_append_left _ hq)) width
    have hm := State.low_congr (fun q hq => hx q (List.mem_append_right _ hq)) width
    obtain ⟨hresult, hset⟩ := DataOp.eval_congr hflags (s.low width rn) (s.low width rm)
    rw [← hn, ← hm] at hresult hset
    cases h
    refine ⟨_, rfl, ?_, ?_, fun q hq => ?_, fun q hq => absurd hq List.not_mem_nil, fun hs => ?_⟩
    · simp only [State.pc_skip, State.setLow, State.setFlags, State.pc_set, hpc]
    · simp only [State.mem_skip, State.setLow, State.setFlags, State.mem_set, hmem]
    · refine (State.x_set_of_mem s' _ hq).trans ((State.x_set_of_mem s _ hq).trans ?_).symm
      rw [hresult, hn, hm]
    · rw [← hn, ← hm]
      exact hset hs
  | str width rt rn =>
    cases h
    refine ⟨_, rfl, same_skip hpc ?_ rfl rfl rfl⟩
    simp only [State.store, hmem, hx rn List.mem_cons_self,
      State.reg_congr fun q hq => hx q (List.mem_cons_of_mem _ hq)]
  | strV width rt rn =>
    cases h
    refine ⟨_, rfl, same_skip hpc ?_ rfl rfl rfl⟩
    simp only [State.store, hmem, hx rn List.mem_cons_self, hv rt List.mem_cons_self]
  | stp rt rt2 rn =>
    cases h
    refine ⟨_, rfl, same_skip hpc ?_ rfl rfl rfl⟩
    simp only [State.store, hmem, hx rn List.mem_cons_self,
      State.reg_congr fun q hq => hx q (List.mem_cons_of_mem _ (List.mem_append_left _ hq)),
      State.reg_congr fun q hq => hx q (List.mem_cons_of_mem _ (List.mem_append_right _ hq))]
  | stpPre rt rt2 rn =>
    cases h
    refine ⟨_, rfl, same_setBase ?_ ?_ ?_ rfl rfl rfl⟩
    · exact hpc
    · simp only [State.store, hmem, hx rn List.mem_cons_self,
        State.reg_congr fun q hq => hx q (List.mem_cons_of_mem _ (List.mem_append_left _ hq)),
        State.reg_congr fun q hq => hx q (List.mem_cons_of_mem _ (List.mem_append_right _ hq))]
    · rw [hx rn List.mem_cons_self]
  | strPre rt rn =>
    cases h
    refine ⟨_, rfl, same_setBase ?_ ?_ ?_ rfl rfl rfl⟩
    · exact hpc
    · simp only [State.store, hmem, hx rn List.mem_cons_self,
        State.reg_congr fun q hq => hx q (List.mem_cons_of_mem _ hq)]
    · rw [hx rn List.mem_cons_self]
  | strVPre rt rn =>
    cases h
    refine ⟨_, rfl, same_setBase ?_ ?_ ?_ rfl rfl rfl⟩
    · exact hpc
    · simp only [State.store, hmem, hx rn List.mem_cons_self, hv rt List.mem_cons_self]
    · rw [hx rn List.mem_cons_self]
  | ldp rt rt2 rn =>
    cases h
    refine ⟨_, rfl, ?_, ?_, ?_, fun q hq => absurd hq List.not_mem_nil, fun hf => by cases hf⟩
    · simp only [State.pc_skip, State.pc_set, hpc]
    · simp only [State.mem_skip, State.mem_set, hmem]
    · rw [hmem, hx rn List.mem_cons_self]
      exact State.x_set_congr _ (State.x_set_congr (l := []) _ fun q hq => absurd hq List.not_mem_nil)
  | ldpPost rt rt2 rn =>
    cases h
    refine ⟨_, rfl, ?_, ?_, ?_, fun q hq => absurd hq List.not_mem_nil, fun hf => by cases hf⟩
    · simp only [State.pc_skip, State.pc_set, State.setBase, hpc]
    · simp only [State.mem_skip, State.mem_set, State.setBase, hmem]
    · rw [hmem, hx rn List.mem_cons_self, writes, ← List.singleton_append, ← List.append_assoc]
      refine State.x_set_congr _ (State.x_set_congr _ fun q hq => ?_)
      rw [List.mem_singleton.mp hq, State.x_setBase_self, State.x_setBase_self]
  | ldrPost rt rn =>
    cases h
    refine ⟨_, rfl, ?_, ?_, ?_, fun q hq => absurd hq List.not_mem_nil, fun hf => by cases hf⟩
    · simp only [State.pc_skip, State.pc_set, State.setBase, hpc]
    · simp only [State.mem_skip, State.mem_set, State.setBase, hmem]
    · rw [hmem, hx rn List.mem_cons_self, writes, ← List.singleton_append]
      refine State.x_set_congr _ fun q hq => ?_
      rw [List.mem_singleton.mp hq, State.x_setBase_self, State.x_setBase_self]
  | ldrVPost rt rn =>
    cases h
    refine ⟨_, rfl, congrArg (· + 1) hpc, hmem, fun q hq => ?_, fun q hq => ?_,
      fun hf => by cases hf⟩
    · rw [List.mem_singleton.mp hq, hx rn List.mem_cons_self]
      exact (State.x_setBase_self s' rn _).trans (State.x_setBase_self s rn _).symm
    · rw [List.mem_singleton.mp hq, hmem, hx rn List.mem_cons_self]
      exact (if_pos rfl).trans (if_pos rfl).symm

end Instr

end Dynarec.Host
