import Dynarec.Proofs.Run.Answer
import Dynarec.Proofs.Simulation.Operand
import Dynarec.Proofs.Usage.Words

/-! # What the items of a unit touch

Instructions, regions and the sequences behind fixups keep within the registers in use and the
spill area. -/

namespace Dynarec.Emit

open Host

/-- All finished instructions among the items keep within what the unit has. -/
def ItemsConfined (u : RegisterUse) (bytes : Nat) (xs : List Item) : Prop :=
  ∀ i, .op i ∈ xs → i.Confined u bytes

section Items

variable {u : RegisterUse} {bytes : Nat} {is : List Host.Instr} {xs ys : List Item}

theorem itemsConfined_ops (h : Confined u bytes is) : ItemsConfined u bytes (ops is) := by
  intro i hi
  obtain ⟨j, hj, heq⟩ := List.mem_map.mp hi
  cases heq
  exact h i hj

theorem ItemsConfined.append (h : ItemsConfined u bytes xs) (h' : ItemsConfined u bytes ys) :
    ItemsConfined u bytes (xs ++ ys) := by
  intro i hi
  exact (List.mem_append.mp hi).elim (h i) (h' i)

theorem itemsConfined_hole (kind : FixupKind) (target : FixupTarget) (c : Current) :
    ItemsConfined u bytes [.hole kind target c] := by
  intro i hi
  cases List.mem_singleton.mp hi

theorem itemsConfined_exit (c : ExitCondition) : ItemsConfined u bytes [.exit c] := by
  intro i hi
  cases List.mem_singleton.mp hi

theorem itemsConfined_exitItems (e : Setting) (guest : Word) :
    ItemsConfined u bytes (exitItems e guest) :=
  (itemsConfined_ops ((confined_addressOps guest).append (confined_dispatchOps e _))).append
    (itemsConfined_exit _)

end Items

/-- How much a call for a fixup keeps on the stack, if there is one. -/
def FixupKind.tier? : FixupKind → Option CallTier
  | call | indirectCall | syncPoint => some .full
  | tableBranch _ | softwareInterrupt _ | exception .. | timerRead => some .skipContext
  | branch | condBranch _ | indirectBranch => none

/-- What a fixup needs is in use, and its call has room on the stack. -/
structure Fixup.Provided (u : RegisterUse) (shape : Shape) (bytes : Nat) (f : Fixup) : Prop where
  regs : ∀ r ∈ f.target.regs, r.isPc = false → u.Holds r
  flags : ∀ c, f.kind = .condBranch c → u.usesFlags = true
  tier : ∀ tier, f.kind.tier? = some tier → tier.needs shape u ≤ bytes

end Dynarec.Emit

namespace Dynarec.Resolve

open Dynarec.Emit Dynarec.Host Dynarec.Compile

variable {e : Setting} {u : RegisterUse} {bytes : Nat}

/-! ### Sequences -/

theorem itemsConfined_leaveItems (e : Setting) : ItemsConfined u bytes (leaveItems e) :=
  (itemsConfined_ops (confined_dispatchOps e none)).append (itemsConfined_exit _)

theorem itemsConfined_leaveNonzeroItems (e : Setting) :
    ItemsConfined u bytes (leaveNonzeroItems e) := by
  have hcbz : (Host.Instr.cbz .scratch 2).Confined u bytes :=
    confined_plain (sees_operand (sees_of_isSpare rfl)) nothing_of_nil rfl rfl rfl
  exact (itemsConfined_ops ((confined_dispatchOps e none).append
    (confined_singleton.mpr hcbz))).append (itemsConfined_exit _)

theorem itemsConfined_continuationItems (e : Setting) (expected : Word) :
    ItemsConfined u bytes (continuationItems e expected) := by
  refine (itemsConfined_ops ((Confined.append ?_ ?_).append ?_)).append
    (itemsConfined_leaveNonzeroItems e)
  · exact confined_singleton.mpr (confined_ldr (takes_of_isSpare rfl) spares_dispatchAddress)
  · exact confined_loadWord (takes_of_isSpare rfl) expected
  · exact confined_singleton.mpr (confined_data (.inl (takes_of_isSpare rfl)) (sees_of_isSpare rfl)
      (sees_of_isSpare rfl) nofun)

theorem sees_contextArgs : ∀ x, .reg x ∈ contextArgs → u.Sees x := by
  intro x hx
  rcases List.mem_cons.mp hx with heq | hx
  · cases heq
    exact sees_context
  · cases List.mem_singleton.mp hx
    exact .inr (Nat.le_of_ble_eq_true rfl)

/-- The record and constants as arguments. -/
theorem sees_context_imms (values : List DWord) :
    ∀ x, CallArg.reg x ∈ .reg .context :: values.map .imm → u.Sees x := by
  intro x hx
  rcases List.mem_cons.mp hx with heq | hx
  · cases heq
    exact sees_context
  · obtain ⟨v, -, hv⟩ := List.mem_map.mp hx
    cases hv

/-! ### Calls -/

/-- Behind a call that kept only the fixed pointers, they are taken back from the stack. -/
def reload : Host.Instr := .ldp .context .pageTable .sp 0

namespace Stub

variable {st : Stub} {f : Fixup} {n : Nat}

/-- Where the call of a sequence stands in it. -/
def callIndex (e : Setting) (u : RegisterUse) (st : Stub) : Nat :=
  (st.before ++ beforeCallOps e.shape u st.tier st.callee st.args).length

/-- The words of a sequence at index `n` that change registers which the unit does not have: the
call, and the reload of the fixed pointers. -/
inductive Clobbers (e : Setting) (u : RegisterUse) (st : Stub) (n : Nat) : Nat → Host.Instr → Prop
  | call : Clobbers e u st n (n + st.callIndex e u) (.blr st.callee.load.1)
  | reload (h : st.tier = .skipContext) :
      Clobbers e u st n (n + st.callIndex e u + (1 + st.answer.ops.length)) reload

/-- Everything around the call of a sequence keeps within what the unit has. -/
structure Confined (e : Setting) (u : RegisterUse) (bytes : Nat) (st : Stub) : Prop where
  before : Host.Confined u bytes st.before
  callee : st.callee.load.1.isSpare = true
  count : st.args.length ≤ maxCallArgs
  args : ∀ x, .reg x ∈ st.args → u.Sees x
  answer : Host.Confined u bytes st.answer.ops
  behind : ItemsConfined u bytes st.behind
  room : st.tier.needs e.shape u ≤ bytes

/-- The words of a sequence, from index `n` on. -/
theorem Confined.items (h : st.Confined e u bytes) :
    AllFrom (fun k x => ∀ i, x = .op i → i.Confined u bytes ∨ st.Clobbers e u n k i) n
      (st.items e u f n) := by
  have hin : ∀ {xs : List Item} {m : Nat}, ItemsConfined u bytes xs →
      AllFrom (fun k x => ∀ i, x = .op i → i.Confined u bytes ∨ st.Clobbers e u n k i) m xs := by
    intro xs m hxs j x hj i hi
    exact .inl (hxs i (hi ▸ List.mem_of_getElem? hj))
  have hops : ∀ {is : List Host.Instr} {m : Nat}, Host.Confined u bytes is →
      AllFrom (fun k x => ∀ i, x = .op i → i.Confined u bytes ∨ st.Clobbers e u n k i) m (ops is) :=
    fun his => hin (itemsConfined_ops his)
  have hfront := hops (m := n) (h.before.append
    (confined_beforeCallOps h.room st.callee h.count h.args))
  have hcall : ops (st.calling e u) =
      ops (st.before ++ beforeCallOps e.shape u st.tier st.callee st.args) ++
        (ops [.blr st.callee.load.1] ++ ops st.answer.ops ++
          (ops (st.tier.restore e.shape u) ++ ops u.loadFromRecord)) := by
    simp only [calling, hostCallOps, ← ops_append, List.append_assoc, List.cons_append,
      List.nil_append]
  rw [Stub.items, hcall]
  refine allFrom_append.mpr ⟨allFrom_append.mpr ⟨hfront, allFrom_append.mpr ⟨allFrom_append.mpr
    ⟨?_, hops h.answer⟩, allFrom_append.mpr ⟨?_, hops (confined_loadFromRecord u)⟩⟩⟩, ?_⟩
  · refine allFrom_singleton.mpr fun i hi => .inr ?_
    cases hi
    rw [length_ops]
    exact .call
  · cases htier : st.tier with
    | full =>
      have hused := h.room
      rw [htier] at hused
      exact hops (confined_refill hused)
    | skipContext =>
      refine allFrom_singleton.mpr fun i hi => .inr ?_
      cases hi
      have hlen : ([Host.Instr.blr st.callee.load.1] ++ st.answer.ops).length =
          1 + st.answer.ops.length :=
        List.length_append
      rw [← htier, length_ops, ← ops_append, length_ops, hlen]
      exact .reload htier
  · refine hin (h.behind.append ?_)
    split
    · exact itemsConfined_ops (confined_singleton.mpr (confined_b _))
    · exact itemsConfined_ops confined_nil

end Stub

theorem confined_callSequence (hb : CallTier.full.needs e.shape u ≤ bytes) (nextPc : Word)
    (target : Option Word) : (callSequence e nextPc target).Confined e u bytes where
  before := by
    refine Confined.append ?_ (confined_dispatchOps e target)
    cases target with
    | none => exact confined_nil
    | some a => exact confined_addressOps a
  callee := rfl
  count := Nat.le_of_ble_eq_true rfl
  args := sees_contextArgs
  answer := confined_singleton.mpr (confined_str (sees_of_isSpare rfl) spares_dispatchAddress)
  behind := itemsConfined_continuationItems e nextPc
  room := hb

theorem confined_trapSequence (hb : CallTier.skipContext.needs e.shape u ≤ bytes) (nextPc : Word)
    (helper : DWord) (values : List DWord) (hn : values.length < maxCallArgs) :
    (trapSequence e nextPc helper (.reg .context :: values.map .imm)).Confined e u bytes where
  before := confined_nil
  callee := rfl
  count := by
    show (CallArg.reg .context :: values.map .imm).length ≤ maxCallArgs
    rw [List.length_cons, List.length_map]
    exact hn
  args := sees_context_imms values
  answer := confined_singleton.mpr (confined_str (sees_of_isSpare rfl) spares_dispatchAddress)
  behind := itemsConfined_continuationItems e nextPc
  room := hb

theorem confined_syncSequence (hb : CallTier.full.needs e.shape u ≤ bytes) (pc : Word) :
    (syncSequence e pc).Confined e u bytes where
  before := confined_nil
  callee := rfl
  count := Nat.le_of_ble_eq_true rfl
  args := sees_context_imms []
  answer := confined_singleton.mpr (confined_mov (takes_of_isSpare rfl) (sees_of_isSpare rfl))
  behind := (itemsConfined_ops ((confined_addressOps pc).append (confined_singleton.mpr
    (confined_mov (takes_of_isSpare rfl) (sees_of_isSpare rfl))))).append
    (itemsConfined_leaveNonzeroItems e)
  room := hb

theorem confined_timerSequence (hb : CallTier.skipContext.needs e.shape u ≤ bytes)
    (rt rt2 : Guest.Gpr) : (timerSequence e rt rt2).Confined e u bytes where
  before := confined_nil
  callee := rfl
  count := Nat.le_of_ble_eq_true rfl
  args := sees_context_imms []
  answer := confined_cons.mpr ⟨confined_str (sees_of_isSpare rfl) (spares_gpr rt), confined_cons.mpr
    ⟨confined_plain (sees_operand (sees_of_isSpare rfl))
      (takes_operand (.inl (takes_of_isSpare rfl))) rfl rfl rfl,
      confined_singleton.mpr (confined_str (sees_of_isSpare rfl) (spares_gpr rt2))⟩⟩
  behind := itemsConfined_ops confined_nil
  room := hb

theorem confined_tableSequence (hb : CallTier.skipContext.needs e.shape u ≤ bytes)
    (pcValue : Word) {rn rm : Guest.Gpr} (hn : rn.isPc = false → u.Holds rn)
    (hm : rm.isPc = false → u.Holds rm) (halfword : Bool) :
    (tableSequence e pcValue rn rm halfword).Confined e u bytes where
  before := confined_nil
  callee := rfl
  count := Nat.le_of_ble_eq_true rfl
  args := by
    have harg : ∀ {r : Guest.Gpr} {x : Host.Gpr}, (r.isPc = false → u.Holds r) →
        .reg x = argOf r pcValue → u.Sees x := by
      intro r x hr hx
      unfold argOf at hx
      split at hx
      · cases hx
      · rename_i hpc
        cases hx
        exact .inl (takes_pinned (Bool.eq_false_iff.mpr hpc) (hr (Bool.eq_false_iff.mpr hpc)))
    intro x hx
    simp only [tableSequence, tableArgs, List.mem_cons, List.not_mem_nil, or_false, reduceCtorEq,
      CallArg.reg.injEq] at hx
    rcases hx with rfl | hx | hx
    · exact sees_context
    · exact harg hn hx
    · exact harg hm hx
  answer := confined_singleton.mpr (confined_str (sees_of_isSpare rfl) spares_dispatchAddress)
  behind := itemsConfined_leaveItems e
  room := hb

/-! ### Fixups -/

/-- What becomes of a fixup keeps within what the unit has, but for the call that it stands for. -/
structure Resolved.Confined (e : Setting) (u : RegisterUse) (bytes : Nat) (f : Fixup) (n : Nat)
    (r : Resolved) : Prop where
  patch : r.patch.Confined u bytes
  tail : ItemsConfined u bytes r.tail ∨ ∃ st : Stub, st.Confined e u bytes ∧
    f.kind.tier? = some st.tier ∧ r.tail = st.items e u f n

variable {targets : Word → Option Nat} {f : Fixup} {site n : Nat}

theorem confined_returning {st : Stub} (h : st.Confined e u bytes) (hr : st.returns = true)
    (ht : f.kind.tier? = some st.tier) :
    (returning f.site n (ops (st.calling e u) ++ st.behind)).Confined e u bytes f n :=
  ⟨confined_b _, .inr ⟨st, h, ht, tail_returning hr n⟩⟩

theorem Resolved.Confined.when {r : Resolved} (h : r.Confined e u bytes f n) (p : Prop) :
    (r.when p).Confined e u bytes f n := ⟨h.patch, h.tail⟩

theorem confined_leaving {xs : List Item} (h : ItemsConfined u bytes xs) :
    (leaving site n xs).Confined e u bytes f n := ⟨confined_b _, .inl h⟩

theorem itemsConfined_nil : ItemsConfined u bytes [] := fun _ hi => absurd hi List.not_mem_nil

theorem confined_directed (t : Word) : (directed e targets site n t).Confined e u bytes f n := by
  have htrampolined : (trampolined e site n t).Confined e u bytes f n :=
    ⟨confined_b _, .inl (itemsConfined_exitItems e t)⟩
  unfold directed
  split
  · exact htrampolined
  · split
    · exact ⟨confined_nop, .inl itemsConfined_nil⟩
    · split
      · exact ⟨confined_b _, .inl itemsConfined_nil⟩
      · exact htrampolined

theorem confined_condDirected (hu : u.usesFlags = true) (cond : Cond) (t : Word) :
    (condDirected e targets site n cond t).Confined e u bytes f n := by
  have hlong : ∀ index, (longDirected e site n cond t index).Confined e u bytes f n := by
    intro index
    refine ⟨confined_b _, .inl ((itemsConfined_ops (confined_cons.mpr ⟨confined_bCond hu,
      confined_singleton.mpr (confined_b _)⟩)).append ?_)⟩
    split
    · exact itemsConfined_ops (confined_singleton.mpr (confined_b _))
    · exact itemsConfined_exitItems e t
  unfold condDirected
  split
  · split
    · exact ⟨confined_nop, .inl itemsConfined_nil⟩
    · split
      · exact ⟨confined_bCond hu, .inl itemsConfined_nil⟩
      · exact hlong _
  · split
    · exact ⟨confined_bCond hu, .inl (itemsConfined_exitItems e t)⟩
    · exact hlong _

theorem confined_unusable : unusable.Confined e u bytes f n :=
  ⟨confined_nop, .inl itemsConfined_nil⟩

theorem confined_resolved (h : f.Provided u e.shape bytes) :
    (resolved e u targets f n).Confined e u bytes f n := by
  obtain ⟨hregs, hflags, hroom⟩ := h
  cases hk : f.kind with
  | branch =>
    cases ht : f.target with
    | address t =>
      simp only [resolved, hk, ht]
      exact confined_directed t
    | _ =>
      simp only [resolved, hk, ht]
      exact confined_unusable
  | condBranch cond =>
    cases ht : f.target with
    | address t =>
      simp only [resolved, hk, ht]
      exact confined_condDirected (hflags cond hk) cond t
    | _ =>
      simp only [resolved, hk, ht]
      exact confined_unusable
  | call =>
    have htier : f.kind.tier? = some .full := by rw [hk]; rfl
    cases ht : f.target with
    | address t =>
      simp only [resolved, hk, ht, callItems_eq]
      exact (confined_returning (confined_callSequence (hroom _ htier) f.nextPc (some t)) rfl
        htier).when _
    | _ =>
      simp only [resolved, hk, ht]
      exact confined_unusable
  | indirectCall =>
    have htier : f.kind.tier? = some .full := by rw [hk]; rfl
    simp only [resolved, hk, callItems_eq]
    exact confined_returning (confined_callSequence (hroom _ htier) f.nextPc none) rfl htier
  | indirectBranch =>
    cases ht : f.target with
    | register rm =>
      simp only [resolved, hk, ht]
      split
      · exact confined_directed _
      · rename_i hpc
        have hpc := Bool.eq_false_iff.mpr hpc
        have hr := hregs rm (ht ▸ List.mem_cons_self) hpc
        exact confined_leaving ((itemsConfined_ops (confined_singleton.mpr (confined_str
          (.inl (takes_pinned hpc hr)) spares_dispatchAddress))).append (itemsConfined_leaveItems e))
    | none =>
      simp only [resolved, hk, ht]
      exact confined_leaving (itemsConfined_leaveItems e)
    | _ =>
      simp only [resolved, hk, ht]
      exact confined_unusable
  | tableBranch halfword =>
    have htier : f.kind.tier? = some .skipContext := by rw [hk]; rfl
    cases ht : f.target with
    | registers rn rm =>
      rw [ht] at hregs
      simp only [resolved, hk, ht]
      have hseq := confined_tableSequence (hroom _ htier) f.pcValue (hregs rn List.mem_cons_self)
        (hregs rm (List.mem_cons_of_mem _ List.mem_cons_self)) halfword
      exact ⟨confined_b _, .inr ⟨_, hseq, htier, tableBranchItems_eq ..⟩⟩
    | _ =>
      simp only [resolved, hk, ht]
      exact confined_unusable
  | syncPoint =>
    have htier : f.kind.tier? = some .full := by rw [hk]; rfl
    simp only [resolved, hk, syncPointItems_eq]
    exact confined_returning (confined_syncSequence (hroom _ htier) f.pc) rfl htier
  | softwareInterrupt imm =>
    have htier : f.kind.tier? = some .skipContext := by rw [hk]; rfl
    simp only [resolved, hk, trapItems_eq]
    exact confined_returning (confined_trapSequence (hroom _ htier) f.nextPc _
      [imm.setWidth 64, f.nextPc.setWidth 64] (Nat.le_of_ble_eq_true rfl)) rfl htier
  | exception kind imm =>
    have htier : f.kind.tier? = some .skipContext := by rw [hk]; rfl
    simp only [resolved, hk, trapItems_eq]
    exact confined_returning (confined_trapSequence (hroom _ htier) f.nextPc _
      [kind.number, f.pc.setWidth 64, imm.setWidth 64] (Nat.le_of_ble_eq_true rfl)) rfl htier
  | timerRead =>
    have htier : f.kind.tier? = some .skipContext := by rw [hk]; rfl
    cases ht : f.target with
    | registers rt rt2 =>
      simp only [resolved, hk, ht, timerReadItems_eq]
      exact (confined_returning (confined_timerSequence (hroom _ htier) rt rt2) rfl htier).when _
    | _ =>
      simp only [resolved, hk, ht]
      exact confined_unusable

end Dynarec.Resolve

namespace Dynarec.Lower

open Dynarec.Emit Dynarec.Host Dynarec.Compile

variable {u : RegisterUse} {bytes : Nat}

/-! ### Instructions -/

/-- Where an operand is brought. -/
structure Source.Confined (u : RegisterUse) (bytes : Nat) (x : Source) : Prop where
  reg : u.Sees x.reg
  load : Host.Confined u bytes x.load

theorem takes_temp {n : Nat} (hn : n < 9) : u.Takes (temp n) := .inl (Simulation.isSpare_temp hn)

theorem confined_constant {n : Nat} (hn : n < 9) (value : Word) :
    (Source.constant n value).Confined u bytes := by
  unfold Source.constant
  split
  · exact ⟨.inr (Nat.le_of_ble_eq_true rfl), confined_nil⟩
  · exact ⟨.inl (takes_temp hn), confined_loadWord (takes_temp hn) value⟩

theorem confined_gpr {n : Nat} (hn : n < 9) (pcValue : Word) {r : Guest.Gpr}
    (hr : r.isPc = false → u.Holds r) : (Source.gpr pcValue n r).Confined u bytes := by
  unfold Source.gpr
  split
  · exact confined_constant hn pcValue
  · rename_i hpc
    have hpc := Bool.eq_false_iff.mpr hpc
    exact ⟨.inl (takes_pinned hpc (hr hpc)), confined_nil⟩

theorem confined_operand {n : Nat} (hn : n < 9) (pcValue : Word) {o : Guest.Operand}
    (ho : ∀ r ∈ operandGprs o, r.isPc = false → u.Holds r) :
    (Source.operand pcValue n o).Confined u bytes := by
  cases o with
  | reg r => exact confined_gpr hn pcValue (ho r List.mem_cons_self)
  | imm value => exact confined_constant hn value

theorem takes_target {n : Nat} (hn : n < 9) {r : Guest.Gpr} (hr : r.isPc = false → u.Holds r) :
    u.Takes (target n r) := by
  unfold target
  split
  · exact takes_temp hn
  · rename_i hpc
    have hpc := Bool.eq_false_iff.mpr hpc
    exact takes_pinned hpc (hr hpc)

theorem takes_flagTemp (result : Host.Gpr) : u.Takes (flagTemp result) := by
  unfold flagTemp
  split <;> exact takes_temp (Nat.le_of_ble_eq_true rfl)

theorem confined_flagOps {result t : Host.Gpr} (hr : u.Sees result) (ht : u.Takes t)
    (hu : u.usesFlags = true) (carry : Option Bool) : Confined u bytes (flagOps result t carry) := by
  have hlsr : ∀ shift, (Host.Instr.lsrW t t shift).Confined u bytes := fun shift =>
    confined_plain (sees_operand (.inl ht)) (takes_operand (.inl ht)) rfl rfl rfl
  have hbfi : ∀ lsb width, (Host.Instr.bfi .scratch t lsb width).Confined u bytes :=
    fun lsb width => confined_plain (sees_operands (sees_of_isSpare rfl) (.inl ht))
      (takes_operand (.inl (takes_of_isSpare rfl))) rfl rfl rfl
  have hadd : (Host.Instr.addImm .w t t 1).Confined u bytes :=
    confined_plain (List.forall_mem_singleton.mpr (.inl ht))
      (List.forall_mem_singleton.mpr ht) rfl rfl rfl
  unfold flagOps
  refine (Confined.append ?_ ?_).append ?_
  · exact confined_cons.mpr ⟨confined_mrs (takes_of_isSpare rfl) hu, confined_cons.mpr
      ⟨confined_data (.inr rfl) hr hr fun _ => hu, confined_singleton.mpr (confined_mrs ht hu)⟩⟩
  · split
    · exact confined_cons.mpr ⟨hlsr _, confined_singleton.mpr (hbfi _ _)⟩
    · exact confined_cons.mpr ⟨hlsr _, confined_singleton.mpr (hbfi _ _)⟩
    · exact confined_cons.mpr ⟨hlsr _, confined_cons.mpr ⟨hadd, confined_singleton.mpr (hbfi _ _)⟩⟩
  · exact confined_singleton.mpr (confined_msr (sees_of_isSpare rfl) hu)

theorem confined_aluInstr (op : Guest.AluOp) (sets : Bool) {d a b : Host.Gpr} (hd : u.Takes d)
    (ha : u.Sees a) (hb : u.Sees b) (hcarry : op.readsCarry = true → u.usesFlags = true)
    (hsets : sets = true → u.usesFlags = true) : (aluInstr op sets d a b).Confined u bytes := by
  cases op with
  | and | eor | orr | bic => exact confined_data (.inl hd) ha hb nofun
  | adc | sbc => exact confined_data (.inl hd) ha hb fun _ => hcarry rfl
  | add | sub =>
    refine confined_data (.inl hd) ha hb fun hf => hsets ?_
    cases sets with
    | true => rfl
    | false => cases hf
  | rsb =>
    refine confined_data (.inl hd) hb ha fun hf => hsets ?_
    cases sets with
    | true => rfl
    | false => cases hf

theorem itemsConfined_finishItems (c : Current) {d : Host.Gpr} (hd : u.Takes d) {logical : Bool}
    (hu : logical = true → u.usesFlags = true) (carry : Option Bool) (computed : Bool) :
    ItemsConfined u bytes (finishItems c d logical carry computed) := by
  unfold finishItems
  refine ItemsConfined.append ?_ ?_
  · split
    · rename_i hl
      exact itemsConfined_ops (confined_flagOps (.inl hd) (takes_flagTemp d) (hu hl) carry)
    · exact itemsConfined_ops confined_nil
  · split
    · exact (itemsConfined_ops (confined_singleton.mpr (confined_str (.inl hd)
        spares_dispatchAddress))).append (itemsConfined_hole _ _ c)
    · exact itemsConfined_ops confined_nil

/-- The two operands of an instruction and a register behind them. -/
theorem confined_operands (bytes : Nat) {rn : Guest.Gpr} {o : Guest.Operand}
    (hg : ∀ r ∈ rn :: operandGprs o, r.isPc = false → u.Holds r) (pcValue : Word) :
    (Source.gpr pcValue 0 rn).Confined u bytes ∧
      (Source.operand pcValue (Source.gpr pcValue 0 rn).temps o).Confined u bytes ∧
      (Source.gpr pcValue 0 rn).temps +
        (Source.operand pcValue (Source.gpr pcValue 0 rn).temps o).temps < 9 := by
  have ha := Source.temps_le (Source.gpr pcValue 0 rn)
  have hb := Source.temps_le (Source.operand pcValue (Source.gpr pcValue 0 rn).temps o)
  refine ⟨confined_gpr (by omega) pcValue (hg rn List.mem_cons_self),
    confined_operand (by omega) pcValue fun r hr => hg r (List.mem_cons_of_mem _ hr), by omega⟩

section Kinds

variable {c : Current} {i : Guest.Instr} (hu : InUse u i)

include hu

theorem itemsConfined_alu {op : Guest.AluOp} {rd rn : Guest.Gpr} {o : Guest.Operand}
    (hk : i.kind = .alu op rd rn o) : ItemsConfined u bytes (aluItems c i op rd rn o) := by
  have hcovers := hu.covers
  rw [hk] at hcovers
  obtain ⟨ha, hb, hn⟩ := confined_operands bytes
    (fun r hr => hcovers.gprs r (List.mem_cons_of_mem _ hr)) c.pcValue
  have hd := takes_target hn (hcovers.gprs rd List.mem_cons_self)
  refine (itemsConfined_ops ((ha.load.append hb.load).append (confined_singleton.mpr ?_))).append ?_
  · exact confined_aluInstr op i.setsFlags hd ha.reg hb.reg hcovers.carry hu.flags
  · exact itemsConfined_finishItems c hd (fun hl => hu.flags (Bool.and_eq_true_iff.mp hl).1) _ _

theorem itemsConfined_plainMove {rd : Guest.Gpr} {o : Guest.Operand} {negate : Bool}
    (hk : i.kind = .move rd o negate) :
    ItemsConfined u bytes (plainMoveItems c i rd o negate) := by
  have hcovers := hu.covers
  rw [hk] at hcovers
  have hd : u.Takes (target 0 rd) :=
    takes_target (Nat.le_of_ble_eq_true rfl) (hcovers.gprs rd List.mem_cons_self)
  refine (itemsConfined_ops ?_).append (itemsConfined_finishItems c hd hu.flags _ _)
  cases o with
  | imm value => exact confined_loadWord hd _
  | reg rm =>
    have hn : (if rd.isPc then 1 else 0) < 9 := by
      split <;> exact Nat.le_of_ble_eq_true rfl
    have ha : (Source.gpr c.pcValue (if rd.isPc then 1 else 0) rm).Confined u bytes :=
      confined_gpr hn c.pcValue (hcovers.gprs rm (List.mem_cons_of_mem _ List.mem_cons_self))
    refine ha.load.append (confined_singleton.mpr ?_)
    split
    · exact confined_data (.inl hd) (.inr (Nat.le_of_ble_eq_true rfl)) ha.reg nofun
    · exact confined_mov hd ha.reg

theorem itemsConfined_move {rd : Guest.Gpr} {o : Guest.Operand} {negate : Bool}
    (hk : i.kind = .move rd o negate) (hc : c.cond = i.cond) :
    ItemsConfined u bytes (moveItems c i rd o negate) := by
  cases o with
  | imm value => exact itemsConfined_plainMove hu hk
  | reg rm =>
    simp only [moveItems]
    split
    · exact itemsConfined_hole _ _ c
    · split
      · rename_i habsorbs
        rw [Bool.and_eq_true, Bool.not_eq_true'] at habsorbs
        have hplain : rd.isPc = false ∧ rm.isPc = false := by
          have habsorb := habsorbs.1
          cases negate with
          | true =>
            simp only [Guest.Instr.absorbsCondition, hk] at habsorb
            cases habsorb
          | false =>
            simp only [Guest.Instr.absorbsCondition, hk, Bool.and_eq_true,
              Bool.not_eq_true'] at habsorb
            exact ⟨habsorb.1.2, habsorb.2⟩
        have hcovers := hu.covers
        rw [hk] at hcovers
        have hd := takes_pinned hplain.1 (hcovers.gprs rd List.mem_cons_self hplain.1)
        have hm := takes_pinned hplain.2
          (hcovers.gprs rm (List.mem_cons_of_mem _ List.mem_cons_self) hplain.2)
        refine itemsConfined_ops (confined_singleton.mpr ⟨sees_operands (.inl hm) (.inl hd),
          takes_operand (.inl hd), nothing_of_nil, fun _ => hu.tested fun hal => ?_,
          fun _ _ ha => (by cases ha), fun _ _ ha => (by cases ha)⟩)
        rw [hc, hal] at habsorbs
        cases habsorbs.2
      · exact itemsConfined_plainMove hu hk

theorem itemsConfined_compare (hflags : u.usesFlags = true) {op : Guest.CmpOp} {rn : Guest.Gpr}
    {o : Guest.Operand} (hk : i.kind = .compare op rn o) :
    ItemsConfined u bytes (compareItems c i op rn o) := by
  have hcovers := hu.covers
  rw [hk] at hcovers
  obtain ⟨ha, hb, hn⟩ := confined_operands bytes hcovers.gprs c.pcValue
  refine itemsConfined_ops ((ha.load.append hb.load).append ?_)
  cases op with
  | cmp | cmn =>
    exact confined_singleton.mpr (confined_data (.inr rfl) ha.reg hb.reg fun _ => hflags)
  | tst | teq =>
    exact confined_cons.mpr ⟨confined_data (.inl (takes_temp hn)) ha.reg hb.reg nofun,
      confined_flagOps (.inl (takes_temp hn)) (takes_flagTemp _) hflags _⟩

theorem itemsConfined_vmove {dd dm : Guest.Dreg} (hk : i.kind = .vmove dd dm) :
    ItemsConfined u bytes (vmoveItems dd dm) := by
  have hcovers := hu.covers
  rw [hk] at hcovers
  have htakes : ∀ {d v}, d ∈ [dd, dm] → pinnedVreg? d = some v → u.TakesV v :=
    fun {d v} hd hv => .inr ⟨d, hv, hcovers.dregs d hd v hv⟩
  have hdd : dd ∈ [dd, dm] := List.mem_cons_self
  have hdm : dm ∈ [dd, dm] := List.mem_cons_of_mem _ List.mem_cons_self
  refine itemsConfined_ops ?_
  split
  · rename_i d m hd hm
    exact confined_singleton.mpr ⟨nothing_of_nil, nothing_of_nil, List.forall_mem_cons.mpr
      ⟨htakes hdm hm, List.forall_mem_singleton.mpr (htakes hdd hd)⟩, nofun, nofun, nofun⟩
  · rename_i d hd hm
    exact confined_singleton.mpr (confined_ldrV (htakes hdd hd) (spares_dreg dm))
  · rename_i m hd hm
    exact confined_singleton.mpr (confined_strV (htakes hdm hm) (spares_dreg dd))
  · exact confined_cons.mpr ⟨confined_ldrV (.inl rfl) (spares_dreg dm),
      confined_singleton.mpr (confined_strV (.inl rfl) (spares_dreg dd))⟩

/-- The items of an instruction in use. A comparison uses the flags. -/
theorem itemsConfined_instrItems
    (hflags : ∀ op rn o, i.kind = .compare op rn o → u.usesFlags = true) (config : Config) :
    ItemsConfined u bytes (instrItems config i) := by
  have hgprs := hu.covers.gprs
  have hlink : Guest.Gpr.lr ∈ kindGprs i.kind → Confined u bytes (linkOps config (currentOf i)) :=
    fun hlr => confined_loadWord (takes_pinned rfl (hgprs .lr hlr rfl)) _
  unfold instrItems items
  cases hk : i.kind with
  | alu op rd rn o => exact itemsConfined_alu hu hk
  | move rd o negate => exact itemsConfined_move hu hk rfl
  | compare op rn o => exact itemsConfined_compare hu (hflags op rn o hk) hk
  | vmove dd dm => exact itemsConfined_vmove hu hk
  | branch t | branchExchange rm | tableBranch rn rm halfword | supervisorCall imm | breakpoint imm
  | undefined | readTimer rt rt2 => exact itemsConfined_hole _ _ _
  | branchLink t =>
    exact (itemsConfined_ops (hlink (hk ▸ List.mem_cons_self))).append (itemsConfined_hole _ _ _)
  | branchLinkExchange rm =>
    refine (itemsConfined_ops (Confined.append ?_ (hlink ?_))).append (itemsConfined_hole _ _ _)
    · split
      · exact confined_addressOps _
      · rename_i hpc
        have hpc := Bool.eq_false_iff.mpr hpc
        exact confined_singleton.mpr (confined_str (.inl (takes_pinned hpc
          (hgprs rm (hk ▸ List.mem_cons_self) hpc))) spares_dispatchAddress)
    · rw [hk]
      exact List.mem_cons_of_mem _ List.mem_cons_self
  | ifThen firstcond mask => exact itemsConfined_ops confined_nil
  | nop => exact itemsConfined_ops confined_nil

end Kinds

/-! ### Fixups of instructions -/

/-- What the kind of a placeholder says about its instruction. -/
structure HoleKind (c : Current) (i : Guest.Instr) (kind : FixupKind) : Prop where
  full : kind.tier? = some .full → i.kind.isCall = true
  skip : kind.tier? = some .skipContext →
    i.kind.isHelped = true ∨ ∃ rn rm halfword, i.kind = .tableBranch rn rm halfword
  cond : ∀ d, kind = .condBranch d → c.cond.isAlways = false

theorem holeKind_indirectBranch (c : Current) (i : Guest.Instr) : HoleKind c i .indirectBranch :=
  ⟨nofun, nofun, nofun⟩

theorem holeKind_of_hole? {c : Current} {i : Guest.Instr} {kind : FixupKind} {target : FixupTarget}
    (h : hole? c i = some (kind, target)) : HoleKind c i kind := by
  cases hk : i.kind with
  | alu op rd rn o =>
    simp only [hole?, hk] at h
    split at h <;> cases h
    exact holeKind_indirectBranch c i
  | move rd o negate =>
    cases o with
    | imm v =>
      simp only [hole?, hk] at h
      split at h <;> cases h
      exact holeKind_indirectBranch c i
    | reg rm =>
      simp only [hole?, hk] at h
      split at h
      · cases h
        exact holeKind_indirectBranch c i
      · split at h <;> cases h
        exact holeKind_indirectBranch c i
  | branch t =>
    simp only [hole?, hk, Option.some.injEq, Prod.mk.injEq] at h
    rw [← h.1]
    cases hc : c.cond.isAlways with
    | true => exact ⟨fun ht => (by cases ht), fun ht => (by cases ht), fun _ hd => (by cases hd)⟩
    | false => exact ⟨fun ht => (by cases ht), fun ht => (by cases ht), fun _ _ => hc⟩
  | branchExchange rm =>
    simp only [hole?, hk] at h
    cases h
    exact holeKind_indirectBranch c i
  | branchLink | branchLinkExchange =>
    simp only [hole?, hk] at h
    cases h
    exact ⟨fun _ => by rw [hk]; rfl, fun ht => (by cases ht), fun _ hd => (by cases hd)⟩
  | tableBranch rn rm halfword =>
    simp only [hole?, hk] at h
    cases h
    exact ⟨fun ht => (by cases ht), fun _ => .inr ⟨rn, rm, halfword, hk⟩, fun _ hd => (by cases hd)⟩
  | supervisorCall | breakpoint | undefined | readTimer =>
    simp only [hole?, hk] at h
    cases h
    exact ⟨fun ht => (by cases ht), fun _ => .inl (by rw [hk]; rfl), fun _ hd => (by cases hd)⟩
  | compare | vmove | ifThen | nop =>
    simp only [hole?, hk] at h
    cases h

/-- The fixup of an instruction in use has what it needs, if its call has room on the stack. -/
theorem provided_of_hole? {i : Guest.Instr} (hu : InUse u i) {f : Fixup} {shape : Shape}
    (hhole : hole? (currentOf i) i = some (f.kind, f.target))
    (htier : ∀ tier, f.kind.tier? = some tier → tier.needs shape u ≤ bytes) :
    f.Provided u shape bytes := by
  refine ⟨fun r hr => hu.covers.gprs r (hole?_regs hhole r hr), fun cond hk => ?_, htier⟩
  have hcond := (holeKind_of_hole? hhole).cond cond hk
  refine hu.tested fun hal => ?_
  rw [show (currentOf i).cond = .al from hal] at hcond
  cases hcond

end Dynarec.Lower

namespace Dynarec.Compile

open Dynarec.Emit Dynarec.Host Dynarec.Lower

variable {u : RegisterUse} {bytes : Nat}

/-! ### Bodies -/

theorem itemsConfined_regionItems {c : Cond} {xs : List Item} (h : ItemsConfined u bytes xs)
    (hu : c ≠ .al → xs ≠ [] → u.usesFlags = true) : ItemsConfined u bytes (regionItems c xs) := by
  unfold regionItems
  split
  · exact h
  · rename_i hc
    rw [not_or] at hc
    exact (itemsConfined_ops (confined_singleton.mpr (confined_bCond (hu hc.1 hc.2)))).append h

/-- Instructions in use under one test. -/
theorem itemsConfined_run {config : Config} {c : Cond} {is : List Guest.Instr}
    (h : ∀ i ∈ is, i.Regular ∧ InUse u i) (huniform : Part.Uniform (.run c is)) :
    ItemsConfined u bytes (Part.items config (.run c is)) := by
  refine itemsConfined_regionItems (fun op hop => ?_) fun hc hne => ?_
  · obtain ⟨i, hi, hop⟩ := List.mem_flatMap.mp hop
    obtain ⟨hregular, huse⟩ := h i hi
    exact itemsConfined_instrItems huse
      (fun op rn o hk => huse.flags (hregular.compare op rn o hk)) config op hop
  · cases is with
    | nil => exact absurd rfl hne
    | cons i is =>
      refine (h i List.mem_cons_self).2.tested fun hal => hc ?_
      rw [← huniform.1 i List.mem_cons_self, lowered, hal, ite_self]

end Dynarec.Compile
