import Dynarec.Proofs.Run.Call

/-! # Sequences out of line

What a placeholder leads to if a routine of the host is called for it: the routine finds the whole
guest state in the record, and its answer decides whether the guest goes on behind the placeholder
or leaves the unit. -/

namespace Dynarec.Emit

open Dynarec.Host Dynarec.Simulation

/-! ### Guest states -/

namespace Record

/-- The guest state that the record at an address holds. -/
def guest (m : Mem) (record : DWord) : Guest.State where
  r r := m.word (record + BitVec.ofNat 64 (gpr r))
  d d := m.dword (record + BitVec.ofNat 64 (dreg d))
  flags := .ofWord (m.word (record + BitVec.ofNat 64 nzcv))
  pc := m.word (record + BitVec.ofNat 64 dispatchAddress)

theorem holds_guest (m : Mem) (record : DWord) : Holds m record (guest m record) :=
  ⟨fun _ _ => rfl, fun _ => rfl, rfl⟩

variable {m : Mem} {record : DWord} {σ : Guest.State}

/-- What stands behind the flags is no part of the guest state. -/
theorem read_write_status {o n : Nat} (ho : nzcv + 4 ≤ o) (hs : o + n ≤ size)
    (value : BitVec (8 * n)) : ∀ o' k, o' + k ≤ nzcv + 4 →
      (m.write (record + BitVec.ofNat 64 o) n value).read (record + BitVec.ofNat 64 o') k =
        m.read (record + BitVec.ofNat 64 o') k := by
  intro o' k hk
  have hsize : nzcv + 4 ≤ size := Nat.le_of_ble_eq_true rfl
  exact read_write (.inr (Nat.le_trans hk ho)) hs (Nat.le_trans hk hsize) value

theorem Holds.writeGpr (h : Holds m record σ) {r : Guest.Gpr} (value : Word) :
    Holds (m.write (n := 4) (record + BitVec.ofNat 64 (gpr r)) value) record (σ.setGpr r value) := by
  have hsize : Record.dregs ≤ size := Nat.le_of_ble_eq_true rfl
  have hnzcv : nzcv + 4 ≤ size := Nat.le_of_ble_eq_true rfl
  have hr := gpr_le r
  refine ⟨fun q hq => ?_, fun d => ?_, ?_⟩
  · by_cases hqr : q = r
    · subst hqr
      refine Eq.trans ?_ (if_pos rfl).symm
      exact Mem.read_write_self (n := 4) m _ value (Nat.le_of_ble_eq_true rfl)
    · have hne : r ≠ q := fun he => hqr he.symm
      refine (read_write (n := 4) (k := 4) (gpr_apart hne) (Nat.le_trans hr hsize)
        (Nat.le_trans (gpr_le q) hsize) value).trans ?_
      exact (h.gprs q hq).trans (if_neg hqr).symm
  · obtain ⟨hlo, hhi⟩ := dreg_bounds d
    refine (read_write (n := 4) (k := 8) (.inl (Nat.le_trans hr hlo)) (Nat.le_trans hr hsize) ?_
      value).trans (h.dregs d)
    exact Nat.le_trans (Nat.le_trans hhi (Nat.le_add_right _ 4)) hnzcv
  · refine Eq.trans (congrArg Nzcv.ofWord ?_) h.flags
    exact read_write (n := 4) (k := 4) (.inl (Nat.le_trans hr (Nat.le_of_ble_eq_true rfl)))
      (Nat.le_trans hr hsize) hnzcv value

end Record

/-- The host state has the guest state in it: registers in use are pinned, all others stand in the
record. -/
structure Carries (u : RegisterUse) (record : DWord) (s : Host.State) (σ : Guest.State) : Prop where
  gprs : ∀ r : Guest.Gpr, r.isPc = false → u.Holds r → (s.x (pinned r)).setWidth 32 = σ.r r
  gprsLeft : ∀ r : Guest.Gpr, r.isPc = false → ¬u.Holds r →
    s.mem.word (record + BitVec.ofNat 64 (Record.gpr r)) = σ.r r
  dregs : ∀ d v, u.HasD d v → (s.v v).setWidth 64 = σ.d d
  dregsLeft : ∀ d, (∀ v, ¬u.HasD d v) →
    s.mem.dword (record + BitVec.ofNat 64 (Record.dreg d)) = σ.d d
  flags : u.usesFlags = true → s.flags = σ.flags
  flagsLeft : u.usesFlags = false →
    Nzcv.ofWord (s.mem.word (record + BitVec.ofNat 64 Record.nzcv)) = σ.flags

/-- The guest state that a host state has in it. -/
def carried (u : RegisterUse) (record : DWord) (s : Host.State) : Guest.State where
  r r := if u.usedGprs.contains (pinned r).code then (s.x (pinned r)).setWidth 32
    else s.mem.word (record + BitVec.ofNat 64 (Record.gpr r))
  d d := ((pinnedVreg? d).filter fun v => u.usedVregs.contains v.code).elim
    (s.mem.dword (record + BitVec.ofNat 64 (Record.dreg d))) fun v => (s.v v).setWidth 64
  flags := if u.usesFlags then s.flags
    else .ofWord (s.mem.word (record + BitVec.ofNat 64 Record.nzcv))
  pc := s.mem.word (record + BitVec.ofNat 64 Record.dispatchAddress)

theorem carries_carried (u : RegisterUse) (record : DWord) (s : Host.State) :
    Carries u record s (carried u record s) := by
  refine ⟨fun r _ hu => (if_pos hu).symm, fun r _ hu => (if_neg hu).symm, fun d v hd => ?_,
    fun d hd => ?_, fun hu => (if_pos hu).symm, fun hu => ?_⟩
  · have hown : (pinnedVreg? d).filter (fun v => u.usedVregs.contains v.code) = some v :=
      Option.filter_eq_some_iff.mpr hd
    simp [carried, hown]
  · have hfree : (pinnedVreg? d).filter (fun v => u.usedVregs.contains v.code) = none := by
      refine Option.filter_eq_none_iff.mpr fun v hv hu => ?_
      exact hd v ⟨hv, hu⟩
    simp [carried, hfree]
  · simp [carried, hu]

/-- From `s` to `t` nothing has changed that belongs to the guest: only the two registers that code
out of line may use at any time, and what stands in the record behind the flags. -/
structure Spared (record : DWord) (s t : Host.State) : Prop where
  x : ∀ q, q ≠ .scratch → q ≠ .dispatch → t.x q = s.x q
  v : t.v = s.v
  flags : t.flags = s.flags
  low : ∀ o n, o + n ≤ Record.nzcv + 4 →
    t.mem.read (record + BitVec.ofNat 64 o) n = s.mem.read (record + BitVec.ofNat 64 o) n
  mem : ∀ a, Mem.Outside record Record.size a → t.mem a = s.mem a

section Spared

variable {u : RegisterUse} {record : DWord} {s s' t : Host.State} {σ : Guest.State}

theorem Spared.trans (h : Spared record s s') (h' : Spared record s' t) : Spared record s t := by
  refine ⟨fun q hq hq' => (h'.x q hq hq').trans (h.x q hq hq'), h'.v.trans h.v,
    h'.flags.trans h.flags, fun o n ho => (h'.low o n ho).trans (h.low o n ho), fun a ha => ?_⟩
  exact (h'.mem a ha).trans (h.mem a ha)

theorem spared_of_mem (hx : ∀ q, q ≠ .scratch → q ≠ .dispatch → t.x q = s.x q) (hv : t.v = s.v)
    (hf : t.flags = s.flags) (hm : t.mem = s.mem) : Spared record s t := by
  refine ⟨hx, hv, hf, fun o n _ => ?_, fun a _ => congrFun hm a⟩
  rw [hm]

theorem Spared.goto (h : Spared record s t) (k : Nat) : Spared record s (t.goto k) :=
  ⟨h.x, h.v, h.flags, h.low, h.mem⟩

theorem spared_set_dispatch (s : Host.State) (value : DWord) :
    Spared record s (s.set .dispatch value) :=
  spared_of_mem (fun q _ hq => State.x_set_of_ne s .dispatch q value hq) (State.v_set ..)
    (State.flags_set ..) (State.mem_set ..)

theorem spared_set_scratch (s : Host.State) (value : DWord) :
    Spared record s (s.set .scratch value) :=
  spared_of_mem (fun q hq _ => State.x_set_of_ne s .scratch q value hq) (State.v_set ..)
    (State.flags_set ..) (State.mem_set ..)

theorem mem_writeNext (s : Host.State) (a : Word) : (writeNext s a).mem =
    s.mem.write (n := 4) (s.x .context + BitVec.ofNat 64 Record.dispatchAddress) a := by
  simp only [writeNext, State.store, State.setLow, State.mem_set]

theorem spared_writeNext (hs : s.x .context = record) (a : Word) :
    Spared record s (writeNext s a) := by
  subst hs
  have hsize : Record.dispatchAddress + 4 ≤ Record.size := Nat.le_of_ble_eq_true rfl
  refine ⟨fun q hq _ => State.x_set_of_ne s .scratch q (a.setWidth 64) hq,
    State.v_set s .scratch (a.setWidth 64), State.flags_set s .scratch (a.setWidth 64), ?_,
    fun b hb => ?_⟩
  · rw [mem_writeNext]
    exact Record.read_write_status (n := 4) (Nat.le_of_ble_eq_true rfl) hsize a
  · rw [mem_writeNext]
    exact Record.write_of_outside (n := 4) hb hsize a

theorem Carries.spared (h : Carries u record s σ) (hs : Spared record s t) :
    Carries u record t σ := by
  have hlow : Record.dregs ≤ Record.nzcv + 4 := Nat.le_of_ble_eq_true rfl
  have hx : ∀ r : Guest.Gpr, r.isPc = false → t.x (pinned r) = s.x (pinned r) := by
    intro r hr
    exact hs.x _ (ne_of_isSpare rfl (isSpare_pinned hr)) (ne_of_isSpare rfl (isSpare_pinned hr))
  refine ⟨fun r hr hu => ?_, fun r hr hu => ?_, fun d v hd => ?_, fun d hd => ?_, fun hu => ?_,
    fun hu => ?_⟩
  · rw [hx r hr]
    exact h.gprs r hr hu
  · exact (hs.low _ 4 (Nat.le_trans (Record.gpr_le r) hlow)).trans (h.gprsLeft r hr hu)
  · rw [hs.v]
    exact h.dregs d v hd
  · refine (hs.low _ 8 ?_).trans (h.dregsLeft d hd)
    exact Nat.le_trans (Record.dreg_bounds d).2 (Nat.le_add_right _ 4)
  · exact hs.flags.trans (h.flags hu)
  · exact (congrArg Nzcv.ofWord (hs.low _ 4 (Nat.le_refl _))).trans (h.flagsLeft hu)

end Spared

section Guests

variable {u : RegisterUse} {area : Nat} {tier : CallTier} {callee : Callee} {args : List CallArg}
  {s t : Host.State} {σ : Guest.State}

/-- At a call the record holds the whole guest state. -/
theorem AtCall.holds (h : AtCall u area tier callee args s t) (hσ : Carries u (s.x .context) s σ)
    (hapart : ∀ a, ¬Mem.Outside (s.x .context) Record.size a → Mem.Outside (s.x .sp) area a) :
    Record.Holds t.mem (s.x .context) σ := by
  have hkept := h.slotsKept hapart
  refine ⟨fun r hr => ?_, fun d => ?_, ?_⟩
  · by_cases hu : u.Holds r
    · exact (h.gprs r hr hu).trans (hσ.gprs r hr hu)
    · exact (hkept.gprs r (.inr hu)).trans (hσ.gprsLeft r hr hu)
  · by_cases hu : ∃ v, u.HasD d v
    · obtain ⟨v, hv⟩ := hu
      exact (h.dregs d v hv).trans (hσ.dregs d v hv)
    · have hu : ∀ v, ¬u.HasD d v := fun v hv => hu ⟨v, hv⟩
      exact (hkept.dregs d hu).trans (hσ.dregsLeft d hu)
  · cases hu : u.usesFlags with
    | true => rw [h.nzcv hu, Nzcv.ofWord_toWord, hσ.flags hu]
    | false => rw [hkept.nzcv hu, hσ.flagsLeft hu]

/-- Behind a call the guest goes on with what the record holds. -/
theorem Returned.carries {answer : Answer} (h : Returned u answer s t)
    (hσ : Record.Holds (answer.write (s.x .context) (s.x (.ofNat 0)) s.mem) (s.x .context) σ) :
    Carries u (s.x .context) t σ := by
  rw [← h.mem] at hσ
  refine ⟨fun r hr hu => ?_, fun r hr _ => hσ.gprs r hr, fun d v hd => ?_, fun d _ => hσ.dregs d,
    fun hu => ?_, fun _ => hσ.flags⟩
  · rw [h.gprs r hr hu, BitVec.setWidth_setWidth_of_le _ (by decide), BitVec.setWidth_eq]
    exact hσ.gprs r hr
  · rw [h.dregs d v hd, BitVec.setWidth_setWidth_of_le _ (by decide), BitVec.setWidth_eq]
    exact hσ.dregs d
  · rw [h.flags, if_pos hu]
    exact hσ.flags

/-- The guest state with an answer taken. -/
def Answer.guest (v : DWord) (σ : Guest.State) : Answer → Guest.State
  | next | keep => σ
  | split lo hi => (σ.setGpr lo (v.setWidth 32)).setGpr hi ((v >>> 32).setWidth 32)

theorem Answer.holds_write (answer : Answer) {m : Mem} {record : DWord}
    (h : Record.Holds m record σ) (v : DWord) :
    Record.Holds (answer.write record v m) record (answer.guest v σ) := by
  cases answer with
  | next =>
    exact h.congr (Record.read_write_status (n := 4) (Nat.le_of_ble_eq_true rfl)
      (Nat.le_of_ble_eq_true rfl) _)
  | keep => exact h
  | split lo hi => exact (h.writeGpr _).writeGpr _

end Guests

end Dynarec.Emit

namespace Dynarec.Resolve

open Dynarec.Emit Dynarec.Host Dynarec.Compile

/-! ### Behind the call -/

section Behind

variable {fetch : Nat → Option Host.Instr} {e : Setting} {s t : Host.State} {k finish : Nat}
  {record : DWord}

/-- Straight code, and then the unit is left if the scratch register is not zero. -/
theorem leads_then_leaveNonzero {is : List Host.Instr}
    (hat : Found fetch k (closeItems finish k (ops is ++ leaveNonzeroItems e)))
    (hst : Straight is) (hs : s.pc = k) (hexec : execAll is s = some t) :
    Leads fetch s ((t.set .dispatch e.config.helpers.fallbackDispatcher).goto
      (if t.low .w .scratch = 0 then k + (ops is ++ leaveNonzeroItems e).length else finish)) := by
  subst hs
  rw [closeItems_append, closeItems_ops, length_ops] at hat
  obtain ⟨his, hrest⟩ := allFrom_append.mp hat
  obtain ⟨hrun, hpc⟩ := leads_of_execAll his hst hexec
  have hleave := leads_leaveNonzeroItems hrest hpc
  rw [Nat.add_assoc] at hleave
  rw [List.length_append, length_ops]
  exact hrun.trans hleave

/-- Compares the next guest address with the expected one, without the flags. -/
def compareOps (expected : Word) : List Host.Instr :=
  [.ldr .w .scratch .context Record.dispatchAddress] ++ loadWord .dispatch expected ++
    [.data .eor .w .scratch .scratch .dispatch]

theorem straight_compareOps (expected : Word) : Straight (compareOps expected) :=
  (straight_cons.mpr ⟨rfl, straight_loadWord .dispatch expected⟩).append rfl

theorem compareOps_run (record : DWord) (expected : Word) (s : Host.State) :
    ∃ t, execAll (compareOps expected) s = some t ∧ Spared record s t ∧ t.mem = s.mem ∧
      t.low .w .scratch =
        s.mem.word (s.x .context + BitVec.ofNat 64 Record.dispatchAddress) ^^^ expected := by
  let w := s.mem.word (s.x .context + BitVec.ofNat 64 Record.dispatchAddress)
  let n := (loadWord .dispatch expected).length
  let s₁ := s.setLow .scratch w
  let s₂ := s₁.setLow .dispatch expected
  let s₃ := s₂.setLow .scratch (w ^^^ expected)
  have hload : (Host.Instr.ldr .w .scratch .context Record.dispatchAddress).exec s =
      some (s₁.skip 1) := rfl
  have hconst : execAll (loadWord .dispatch expected) (s₁.skip 1) = some (s₂.skip (1 + n)) := by
    rw [execAll_loadWord, State.setLow_skip, State.skip_skip]
  have hw : s₂.low .w .scratch = w := by
    have hreg : s₂.reg .scratch = s₁.reg .scratch :=
      State.reg_set_of_ne s₁ .dispatch .scratch (expected.setWidth 64) (by decide)
    exact (congrArg (BitVec.setWidth 32) hreg).trans (State.low_setLow_self s .scratch (by decide) w)
  have hexpected : s₂.low .w .dispatch = expected :=
    State.low_setLow_self s₁ .dispatch (by decide) expected
  have hxor : (Host.Instr.data .eor .w .scratch .scratch .dispatch).exec (s₂.skip (1 + n)) =
      some (s₃.skip (1 + n + 1)) := by
    show some (State.skip (State.setFlags (State.setLow (s₂.skip _) .scratch
      (s₂.low .w .scratch ^^^ s₂.low .w .dispatch)) s₂.flags) 1) = _
    rw [hw, hexpected, State.setLow_skip, State.setFlags_skip, State.setLow_setFlags_self,
      State.skip_skip]
  have hfront := (execAll_append (execAll_singleton hload)).trans hconst
  refine ⟨_, (execAll_append hfront).trans (execAll_singleton hxor), ?_, ?_, ?_⟩
  · have h₁ : Spared record s s₁ := spared_set_scratch s (w.setWidth 64)
    have h₂ : Spared record s₁ s₂ := spared_set_dispatch s₁ (expected.setWidth 64)
    have h₃ : Spared record s₂ s₃ := spared_set_scratch s₂ ((w ^^^ expected).setWidth 64)
    exact ((h₁.trans h₂).trans h₃).goto _
  · show s₃.mem = s.mem
    simp only [s₃, s₂, s₁, State.setLow, State.mem_set]
  · exact State.low_setLow_self s₂ .scratch (by decide) (w ^^^ expected)

/-- The guest goes on behind the check if its next address is the expected one. -/
theorem leads_continuationItems (record : DWord) {expected : Word}
    (hat : Found fetch k (closeItems finish k (continuationItems e expected))) (hs : s.pc = k) :
    ∃ t, Leads fetch s t ∧ Spared record s t ∧ t.mem = s.mem ∧
      t.x .dispatch = e.config.helpers.fallbackDispatcher ∧
      t.pc = if s.mem.word (s.x .context + BitVec.ofNat 64 Record.dispatchAddress) = expected then
        k + (continuationItems e expected).length else finish := by
  obtain ⟨t, hexec, hspared, hmem, hlow⟩ := compareOps_run record expected s
  have hrun := leads_then_leaveNonzero hat (straight_compareOps expected) hs hexec
  refine ⟨_, hrun, hspared.trans ((spared_set_dispatch t _).goto _), ?_, ?_, ?_⟩
  · exact (State.mem_set t .dispatch e.config.helpers.fallbackDispatcher).trans hmem
  · exact State.x_set_self t .dispatch e.config.helpers.fallbackDispatcher (by decide)
  · show (if t.low .w .scratch = 0 then _ else finish) = _
    rw [hlow]
    by_cases hnext : s.mem.word (s.x .context + BitVec.ofNat 64 Record.dispatchAddress) = expected
    · rw [if_pos hnext, hnext]
      exact if_pos BitVec.xor_self
    · rw [if_neg hnext]
      exact if_neg fun hz => hnext (BitVec.xor_eq_zero_iff.mp hz)

/-- What stands behind the call of a sync point: the unit is left for `pc` unless the low half of
the kept answer is zero. -/
def syncTail (e : Setting) (pc : Word) : List Item :=
  ops (addressOps pc ++ [.mov .w .scratch .dispatch]) ++ leaveNonzeroItems e

theorem leads_syncTail {pc : Word} (hat : Found fetch k (closeItems finish k (syncTail e pc)))
    (hs : s.pc = k) (hrecord : s.x .context = record) :
    ∃ t, Leads fetch s t ∧ Spared record s t ∧
      t.mem.word (record + BitVec.ofNat 64 Record.dispatchAddress) = pc ∧
      t.x .dispatch = e.config.helpers.fallbackDispatcher ∧
      t.pc = if (s.x .dispatch).setWidth 32 = (0 : Word) then k + (syncTail e pc).length
        else finish := by
  subst hrecord
  let s₁ := writeNext s pc
  let w : Word := (s.x .dispatch).setWidth 32
  let s₂ := s₁.setLow .scratch w
  have hlow : s₁.low .w .dispatch = w := by
    have hreg : s₁.reg .dispatch = s.x .dispatch :=
      State.reg_set_of_ne s .scratch .dispatch (pc.setWidth 64) (by decide)
    exact congrArg (BitVec.setWidth 32) hreg
  have hmove : (Host.Instr.mov .w .scratch .dispatch).exec (s₁.skip (addressOps pc).length) =
      some (s₂.skip ((addressOps pc).length + 1)) := by
    rw [exec_mov, State.low_skip, hlow, State.setLow_skip, State.skip_skip]
  have hexec := (execAll_append (execAll_addressOps pc s)).trans (execAll_singleton hmove)
  have hrun := leads_then_leaveNonzero hat ((straight_addressOps pc).append rfl) hs hexec
  have h₁ : Spared (s.x .context) s s₁ := spared_writeNext rfl pc
  have h₂ : Spared (s.x .context) s₁ s₂ := spared_set_scratch s₁ (w.setWidth 64)
  refine ⟨_, hrun, (h₁.trans h₂).trans ((spared_set_dispatch s₂ _).goto _), ?_, ?_, ?_⟩
  · have hmem : (s₂.set .dispatch e.config.helpers.fallbackDispatcher).mem = s₁.mem := by
      simp only [s₂, State.setLow, State.mem_set]
    show Mem.word (s₂.set .dispatch e.config.helpers.fallbackDispatcher).mem _ = pc
    rw [hmem, mem_writeNext]
    exact Mem.read_write_self (n := 4) s.mem _ pc (Nat.le_of_ble_eq_true rfl)
  · exact State.x_set_self s₂ .dispatch e.config.helpers.fallbackDispatcher (by decide)
  · show (if s₂.low .w .scratch = 0 then _ else finish) = _
    rw [State.low_setLow_self s₁ .scratch (by decide) w]
    rfl

end Behind

end Dynarec.Resolve

namespace Dynarec.Emit

open Dynarec.Host Dynarec.Compile Dynarec.Resolve

/-! ### What is asked, and what follows -/

/-- Whether a routine of the host is called for the transfer. -/
def FixupKind.asks : FixupKind → Bool
  | branch | condBranch _ | indirectBranch => false
  | _ => true

namespace Fixup

/-- The routine that is called if control is at the placeholder in `s`. -/
def callee (e : Setting) (f : Fixup) (s : Host.State) : DWord :=
  match f.kind, f.target with
  | .call, .address a => e.codeAddress (some a) (writeNext s a).mem
  | .tableBranch _, _ => e.config.helpers.tableBranch
  | .syncPoint, _ => e.config.helpers.syncCheck
  | .softwareInterrupt _, _ => e.config.helpers.softwareInterrupt
  | .exception .., _ => e.config.helpers.exception
  | .timerRead, _ => e.config.helpers.timerRead
  | _, _ => e.config.helpers.fallbackDispatcher

/-- The arguments of the routine. -/
def args (f : Fixup) (s : Host.State) : List DWord :=
  match f.kind, f.target with
  | .softwareInterrupt imm, _ => [s.x .context, imm.setWidth 64, f.nextPc.setWidth 64]
  | .exception kind imm, _ => [s.x .context, kind.number, f.pc.setWidth 64, imm.setWidth 64]
  | .tableBranch halfword, .registers rn rm =>
    [s.x .context, (argOf rn f.pcValue).value s, (argOf rm f.pcValue).value s,
      if halfword then 1 else 0, f.pcValue.setWidth 64]
  | .syncPoint, _ | .timerRead, _ => [s.x .context]
  | _, _ => [s.x .context, s.x .pageTable]

/-- The guest address in the record when the routine is called, if it was `a` before. -/
def announced (f : Fixup) (a : Word) : Word :=
  match f.kind, f.target with
  | .call, .address b => b
  | _, _ => a

/-- Whether the guest goes on behind the placeholder after the answer `v`. -/
def goesOn (f : Fixup) (v : DWord) : Bool :=
  match f.kind with
  | .timerRead => true
  | .tableBranch _ => false
  | .syncPoint => v.setWidth 32 == (0 : Word)
  | _ => v.setWidth 32 == f.nextPc

/-- Where the guest goes on after the answer `v` if it leaves the unit. -/
def leavesFor (f : Fixup) (v : DWord) : Word :=
  match f.kind with
  | .syncPoint => f.pc
  | _ => v.setWidth 32

/-- The guest state with the answer `v` in it. -/
def delivered (f : Fixup) (v : DWord) (σ : Guest.State) : Guest.State :=
  match f.kind, f.target with
  | .timerRead, .registers rt rt2 =>
    (σ.setGpr rt (v.setWidth 32)).setGpr rt2 ((v >>> 32).setWidth 32)
  | _, _ => σ

end Fixup

/-- From `s`, with control at the placeholder and the guest state `σ`, to `t`, where the routine is
called. -/
structure Asked (e : Setting) (fetch : Nat → Option Host.Instr) (f : Fixup) (σ : Guest.State)
    (s t : Host.State) : Prop where
  callee : ∃ x, fetch t.pc = some (.blr x) ∧ t.reg x = f.callee e s
  args : ∀ i w, (f.args s)[i]? = some w → t.x (.ofNat i) = w
  holds : Record.Holds t.mem (s.x .context) σ
  next : t.mem.word (s.x .context + BitVec.ofNat 64 Record.dispatchAddress) =
    f.announced (s.mem.word (s.x .context + BitVec.ofNat 64 Record.dispatchAddress))

/-- From `s`, where the routine came back, to `t` its answer has been followed. -/
structure Followed (e : Setting) (u : RegisterUse) (trailer : Option Nat) (f : Fixup)
    (s t : Host.State) : Prop where
  goesOn : t.pc = f.site + 1 ↔ f.goesOn (s.x (.ofNat 0)) = true
  leaves : f.goesOn (s.x (.ofNat 0)) = false → trailer = some t.pc ∧
    t.x .dispatch = e.config.helpers.fallbackDispatcher ∧
    t.mem.word (s.x .context + BitVec.ofNat 64 Record.dispatchAddress) =
      f.leavesFor (s.x (.ofNat 0))
  carries : Carries u (s.x .context) t
    (f.delivered (s.x (.ofNat 0)) (Record.guest s.mem (s.x .context)))
  flags : u.usesFlags = false → t.flags = s.flags
  x : ∀ q, q ≠ .scratch → q ≠ .dispatch →
    (∀ r : Guest.Gpr, r.isPc = false → u.Holds r → q ≠ pinned r) → t.x q = s.x q
  mem : ∀ a, Mem.Outside (s.x .context) Record.size a → t.mem a = s.mem a

/-- With control at the placeholder in `m` a routine is asked, and whatever a routine that keeps to
the convention answers is followed. -/
def Obeys (e : Setting) (u : RegisterUse) (fetch : Nat → Option Host.Instr) (trailer : Option Nat)
    (area : Nat) (f : Fixup) (m : Host.State) : Prop :=
  ∀ σ, Carries u (m.x .context) m σ →
    ∃ m₁, Leads fetch m m₁ ∧ Asked e fetch f σ m m₁ ∧
      ∀ m₂, Conforms area m₁ m₂ → m₂.pc = m₁.pc + 1 →
        ∃ m₃, Leads fetch m₂ m₃ ∧ Followed e u trailer f m₂ m₃

end Dynarec.Emit

namespace Dynarec.Resolve

open Dynarec.Emit Dynarec.Host Dynarec.Compile

section Stub

variable {fetch : Nat → Option Host.Instr} {e : Setting} {u : RegisterUse} {trailer : Option Nat}
  {f : Fixup} {n k finish area : Nat} {tier : CallTier} {callee : Callee} {args : List CallArg}
  {answer : Answer} {m s t : Host.State}

theorem followed_of_returned (h : Returned u answer m s) (hst : Spared (m.x .context) s t)
    (hapart : trailer ≠ some (f.site + 1)) (hdelivered : ∀ v σ, f.delivered v σ = answer.guest v σ)
    (hgo : f.goesOn (m.x (.ofNat 0)) = true → t.pc = f.site + 1)
    (hleave : f.goesOn (m.x (.ofNat 0)) = false → trailer = some t.pc ∧
      t.x .dispatch = e.config.helpers.fallbackDispatcher ∧
      t.mem.word (m.x .context + BitVec.ofNat 64 Record.dispatchAddress) =
        f.leavesFor (m.x (.ofNat 0))) :
    Followed e u trailer f m t := by
  refine ⟨⟨fun hpc => ?_, hgo⟩, hleave, ?_, fun hu => ?_, fun q hq hq' hr => ?_, fun a ha => ?_⟩
  · refine eq_true_of_ne_false fun hn => hapart ?_
    rw [(hleave hn).1, hpc]
  · rw [hdelivered]
    refine (h.carries ?_).spared hst
    exact answer.holds_write (Record.holds_guest m.mem (m.x .context)) _
  · rw [hst.flags, h.flags, if_neg (by rw [hu]; exact Bool.false_ne_true)]
  · exact (hst.x q hq hq').trans (h.x q hq hq' hr)
  · rw [hst.mem a ha, h.mem, Answer.write_of_outside ha]

/-- The way back from a sequence out of line. -/
def backItem (f : Fixup) (k : Nat) : Item := .op (.b (displacement k (f.site + 1)))

theorem leads_back {xs : List Item}
    (hat : Found fetch k (closeItems finish k (xs ++ [backItem f (k + xs.length)]))) :
    Found fetch k (closeItems finish k xs) ∧
      ∀ s : Host.State, s.pc = k + xs.length → Leads fetch s (s.goto (f.site + 1)) := by
  rw [closeItems_append] at hat
  obtain ⟨hxs, hb⟩ := allFrom_append.mp hat
  rw [length_closeItems] at hb
  exact ⟨hxs, fun s hs => leads_b (allFrom_singleton.mp hb) hs⟩

/-- The routine answers where the guest goes on, and that is all. -/
structure AnswersNext (f : Fixup) : Prop where
  goesOn : ∀ v, f.goesOn v = (v.setWidth 32 == f.nextPc)
  leavesFor : ∀ v, f.leavesFor v = v.setWidth 32
  delivered : ∀ v σ, f.delivered v σ = σ

/-- A word that was answered has been compared with the one for which the guest goes on behind the
placeholder. Either way the answer is followed. -/
theorem follow_compared {expected : Word} (h : Returned u answer m s) (hrun : Leads fetch s t)
    (hst : Spared (m.x .context) s t)
    (hpc : t.pc = if (m.x (.ofNat 0)).setWidth 32 = expected then n else finish)
    (hback : ∀ s : Host.State, s.pc = n → Leads fetch s (s.goto (f.site + 1)))
    (htrailer : trailer = some finish) (hapart : trailer ≠ some (f.site + 1))
    (hdelivered : ∀ v σ, f.delivered v σ = answer.guest v σ)
    (hgo : ∀ v, f.goesOn v = (v.setWidth 32 == expected))
    (hdispatch : t.x .dispatch = e.config.helpers.fallbackDispatcher)
    (hleave : t.mem.word (m.x .context + BitVec.ofNat 64 Record.dispatchAddress) =
      f.leavesFor (m.x (.ofNat 0))) :
    ∃ t, Leads fetch s t ∧ Followed e u trailer f m t := by
  by_cases hanswer : (m.x (.ofNat 0)).setWidth 32 = expected
  · rw [if_pos hanswer] at hpc
    refine ⟨_, hrun.trans (hback t hpc), followed_of_returned h (hst.goto _) hapart hdelivered
      (fun _ => rfl) fun hn => ?_⟩
    rw [hgo, beq_eq_false_iff_ne] at hn
    exact absurd hanswer hn
  · rw [if_neg hanswer] at hpc
    refine ⟨t, hrun, followed_of_returned h hst hapart hdelivered (fun hg => ?_) fun _ => ?_⟩
    · rw [hgo, beq_iff_eq] at hg
      exact absurd hg hanswer
    · exact ⟨htrailer.trans (congrArg some hpc.symm), hdispatch, hleave⟩

/-- The answer of a call or a trap is followed. -/
theorem follow_next (hat : Found fetch k (closeItems finish k
      (continuationItems e f.nextPc ++ [backItem f (k + (continuationItems e f.nextPc).length)])))
    (h : Returned u .next m s) (hs : s.pc = k) (htrailer : trailer = some finish)
    (hapart : trailer ≠ some (f.site + 1)) (hnext : AnswersNext f) :
    ∃ t, Leads fetch s t ∧ Followed e u trailer f m t := by
  obtain ⟨hcheck, hback⟩ := leads_back hat
  obtain ⟨t, hrun, hspared, hmem, hdispatch, hpc⟩ :=
    leads_continuationItems (m.x .context) hcheck hs
  have hcontext : s.x .context = m.x .context :=
    h.x .context (by decide) (by decide) fun r hr _ => ne_pinned hr (by decide)
  have hslot : s.mem.word (m.x .context + BitVec.ofNat 64 Record.dispatchAddress) =
      (m.x (.ofNat 0)).setWidth 32 := by
    rw [h.mem]
    exact Mem.read_write_self (n := 4) m.mem _ _ (Nat.le_of_ble_eq_true rfl)
  rw [hcontext, hslot] at hpc
  refine follow_compared h hrun hspared hpc hback htrailer hapart hnext.delivered hnext.goesOn
    hdispatch ?_
  rw [hmem, hslot, hnext.leavesFor]

/-- The answer at a sync point is followed. -/
theorem follow_sync (hat : Found fetch k (closeItems finish k
      (syncTail e f.pc ++ [backItem f (k + (syncTail e f.pc).length)])))
    (h : Returned u .keep m s) (hs : s.pc = k) (htrailer : trailer = some finish)
    (hapart : trailer ≠ some (f.site + 1)) (hkind : f.kind = .syncPoint) :
    ∃ t, Leads fetch s t ∧ Followed e u trailer f m t := by
  obtain ⟨hcheck, hback⟩ := leads_back hat
  have hcontext : s.x .context = m.x .context :=
    h.x .context (by decide) (by decide) fun r hr _ => ne_pinned hr (by decide)
  obtain ⟨t, hrun, hspared, hslot, hdispatch, hpc⟩ := leads_syncTail hcheck hs hcontext
  rw [h.kept rfl] at hpc
  refine follow_compared h hrun hspared hpc hback htrailer hapart (fun v σ => ?_) (fun v => ?_)
    hdispatch (hslot.trans ?_)
  · simp only [Fixup.delivered, hkind, Answer.guest]
  · simp only [Fixup.goesOn, hkind]
  · simp only [Fixup.leavesFor, hkind]

/-- The answer of the timer is followed. -/
theorem follow_timer {rt rt2 : Guest.Gpr} (hat : Found fetch k (closeItems finish k [backItem f k]))
    (h : Returned u (.split rt rt2) m s) (hs : s.pc = k)
    (hapart : trailer ≠ some (f.site + 1)) (hkind : f.kind = .timerRead)
    (htarget : f.target = .registers rt rt2) :
    ∃ t, Leads fetch s t ∧ Followed e u trailer f m t := by
  have hspared : Spared (m.x .context) s (s.goto (f.site + 1)) :=
    spared_of_mem (fun _ _ _ => rfl) rfl rfl rfl
  refine ⟨_, leads_b (allFrom_singleton.mp hat) hs,
    followed_of_returned h hspared hapart (fun v σ => ?_) (fun _ => rfl) fun hn => ?_⟩
  · simp only [Fixup.delivered, hkind, htarget, Answer.guest]
  · simp only [Fixup.goesOn, hkind, reduceCtorEq] at hn

/-- The answer of a table is followed. -/
theorem follow_table {halfword : Bool} (hat : Found fetch k (closeItems finish k (leaveItems e)))
    (h : Returned u .next m s) (hs : s.pc = k) (htrailer : trailer = some finish)
    (hapart : trailer ≠ some (f.site + 1)) (hkind : f.kind = .tableBranch halfword) :
    ∃ t, Leads fetch s t ∧ Followed e u trailer f m t := by
  refine ⟨_, leads_leaveItems hat hs, followed_of_returned h ((spared_set_dispatch s _).goto _)
    hapart (fun v σ => ?_) (fun hg => ?_) fun _ => ⟨htrailer, ?_, ?_⟩⟩
  · simp only [Fixup.delivered, hkind, Answer.guest]
  · simp only [Fixup.goesOn, hkind, reduceCtorEq] at hg
  · exact State.x_set_self s .dispatch e.config.helpers.fallbackDispatcher (by decide)
  · have hmem : (s.set .dispatch e.config.helpers.fallbackDispatcher).mem = s.mem :=
      State.mem_set ..
    show Mem.word (s.set .dispatch e.config.helpers.fallbackDispatcher).mem _ = _
    rw [hmem, h.mem]
    simp only [Fixup.leavesFor, hkind]
    exact Mem.read_write_self (n := 4) m.mem _ _ (Nat.le_of_ble_eq_true rfl)

end Stub

/-! ### The parts of a sequence -/

/-- A sequence out of line: what is done before the call, the call, and what is done behind it
before control goes back, if it does. -/
structure Stub where
  before : List Host.Instr := []
  tier : CallTier
  callee : Callee
  args : List CallArg
  answer : Answer
  behind : List Item
  returns : Bool := true

namespace Stub

variable (st : Stub) (e : Setting) (u : RegisterUse) (f : Fixup)

def calling : List Host.Instr :=
  st.before ++ hostCallOps e.shape u st.tier st.callee st.args st.answer.ops

/-- What stands behind the call, from index `k` on. -/
def rest (k : Nat) : List Item :=
  st.behind ++ if st.returns then [backItem f (k + st.behind.length)] else []

def items (n : Nat) : List Item :=
  ops (st.calling e u) ++ st.rest f (n + (st.calling e u).length)

/-- The sequence does what its fixup stands for. -/
structure Serves : Prop where
  straight : Straight st.before
  enter : ∀ s : Host.State, ∃ t, execAll st.before s = some t ∧ Spared (s.x .context) s t ∧
    st.callee.value t = f.callee e s ∧ st.args.map (·.value t) = f.args s ∧
    t.mem.word (s.x .context + BitVec.ofNat 64 Record.dispatchAddress) =
      f.announced (s.mem.word (s.x .context + BitVec.ofNat 64 Record.dispatchAddress))
  fits : CallFits st.callee st.args
  args : .reg .scratch ∉ st.args
  callee : st.callee ≠ .register .scratch
  reads : ∀ x ∈ st.behind, itemReads x = true
  follow : ∀ {fetch : Nat → Option Host.Instr} {k finish : Nat} {trailer : Option Nat}
    {m s : Host.State}, Found fetch k (closeItems finish k (st.rest f k)) →
    Returned u st.answer m s → s.pc = k →
    (exitsFrom k st.behind ≠ [] → trailer = some finish) → trailer ≠ some (f.site + 1) →
    ∃ t, Leads fetch s t ∧ Followed e u trailer f m t

theorem length_items_pos (n : Nat) : 0 < (st.items e u f n).length := by
  rw [items, List.length_append, length_ops, calling, List.length_append, hostCallOps,
    List.length_append, List.length_append, List.length_append, List.length_cons]
  omega

variable {st e u f}

theorem Serves.itemReads (h : st.Serves e u f) {n : Nat}
    (hb : st.returns = true → fits26 (displacement
      (n + (st.calling e u).length + st.behind.length) (f.site + 1)) = true) :
    ∀ x ∈ st.items e u f n, itemReads x = true := by
  refine List.forall_mem_append.mpr ⟨itemReads_ops ?_, List.forall_mem_append.mpr ⟨h.reads, ?_⟩⟩
  · exact h.straight.append (straight_hostCallOps _ _ _ _ _ st.answer.straight_ops)
  · split
    · rename_i hreturns
      exact fun x hx => List.mem_singleton.mp hx ▸ hb hreturns
    · exact fun x hx => nomatch hx

theorem exitsFrom_items (n : Nat) :
    exitsFrom n (st.items e u f n) = exitsFrom (n + (st.calling e u).length) st.behind := by
  have hback : ∀ i, exitsFrom i (if st.returns then [backItem f (n + (st.calling e u).length +
      st.behind.length)] else []) = [] := by
    intro i
    split <;> rfl
  rw [items, rest, exitsFrom_append, exitsFrom_append, exitsFrom_ops, length_ops, hback,
    List.nil_append, List.append_nil]

/-- A sequence that serves its fixup asks the routine and follows its answer. -/
theorem Serves.obeys (h : st.Serves e u f) {fetch : Nat → Option Host.Instr} {n finish area : Nat}
    {trailer : Option Nat} {m : Host.State}
    (hp : fetch f.site = some (.b (displacement f.site n)))
    (hat : Found fetch n (closeItems finish n (st.items e u f n)))
    (ht : exitsFrom n (st.items e u f n) ≠ [] → trailer = some finish)
    (hways : trailer ≠ some (f.site + 1)) (hm : m.pc = f.site)
    (hfull : (SpillLayout.compute u e.shape).used ≤ area) (hskip : SpillLayout.skipBytes ≤ area)
    (hapart : ∀ a, ¬Mem.Outside (m.x .context) Record.size a → Mem.Outside (m.x .sp) area a) :
    Obeys e u fetch trailer area f m := by
  intro σ hσ
  obtain ⟨m₀, hexec, hspared, hcallee, hargs, hnext⟩ := h.enter (m.goto n)
  have hcontext : m₀.x .context = m.x .context := hspared.x .context (by decide) (by decide)
  have hsp : m₀.x .sp = m.x .sp := hspared.x .sp (by decide) (by decide)
  have hapart₀ : ∀ a, ¬Mem.Outside (m₀.x .context) Record.size a →
      Mem.Outside (m₀.x .sp) area a := by
    rw [hcontext, hsp]
    exact hapart
  rw [items, closeItems_append, closeItems_ops, length_ops] at hat
  rw [exitsFrom_items] at ht
  obtain ⟨hcalling, hrest⟩ := allFrom_append.mp hat
  obtain ⟨hbefore, hcall⟩ := allFrom_append.mp hcalling
  have henter : Leads fetch m (m.goto n) := leads_b hp hm
  obtain ⟨hrun₀, hpc₀⟩ := leads_of_execAll (s := m.goto n) hbefore h.straight hexec
  obtain ⟨m₁, hrun₁, hblr, h₁, hback⟩ :=
    call_leads hcall hpc₀ h.fits h.args h.callee hfull (fun _ => hskip) hapart₀
  refine ⟨m₁, (henter.trans hrun₀).trans hrun₁, ⟨⟨_, hblr, h₁.callee.trans hcallee⟩, ?_, ?_, ?_⟩,
    fun m₂ h₂ hpc₂ => ?_⟩
  · intro i w hw
    have hw : (f.args (m.goto n))[i]? = some w := hw
    rw [← hargs, List.getElem?_map] at hw
    obtain ⟨a, ha, rfl⟩ := Option.map_eq_some_iff.mp hw
    exact h₁.args i a ha
  · have hσ₀ : Carries u (m.x .context) m₀ σ := by
      have hgoto : Carries u (m.x .context) (m.goto n) σ :=
        ⟨hσ.gprs, hσ.gprsLeft, hσ.dregs, hσ.dregsLeft, hσ.flags, hσ.flagsLeft⟩
      exact hgoto.spared hspared
    rw [← hcontext] at hσ₀ ⊢
    exact h₁.holds hσ₀ hapart₀
  · rw [← hcontext]
    refine Eq.trans (h₁.read_eq (n := 4) hapart₀ (Nat.le_of_ble_eq_true rfl) ?_) ?_
    · exact RegisterUse.not_owns_status (Nat.le_of_ble_eq_true rfl)
        (fun _ => Nat.le_of_ble_eq_true rfl) (Nat.le_of_ble_eq_true rfl)
    · rw [hcontext]
      exact hnext
  · obtain ⟨s, hrun, hpc, hs⟩ := hback m₂ h₂ hpc₂
    have hend : s.pc = n + (st.calling e u).length := by
      rw [hpc, calling, List.length_append, Nat.add_assoc]
    obtain ⟨t, hrun', hfollowed⟩ := h.follow hrest hs hend ht hways
    exact ⟨t, hrun.trans hrun', hfollowed⟩

end Stub

end Dynarec.Resolve
