import Dynarec.Proofs.Run.Stub
import Dynarec.Proofs.Run.Branch

/-! # Answers in compiled units

Every placeholder for which a routine is called leads to a sequence that serves it. -/

namespace Dynarec.Resolve

open Dynarec.Emit Dynarec.Host Dynarec.Compile

/-! ### Sequences by kind -/

/-- A call of guest code. -/
def callSequence (e : Setting) (nextPc : Word) (target : Option Word) : Stub where
  before := target.elim [] addressOps ++ dispatchOps e target
  tier := .full
  callee := .register .dispatch
  args := contextArgs
  answer := .next
  behind := continuationItems e nextPc

/-- A call of a helper that answers where the guest goes on. -/
def trapSequence (e : Setting) (nextPc : Word) (helper : DWord) (args : List CallArg) : Stub where
  tier := .skipContext
  callee := .helper helper
  args
  answer := .next
  behind := continuationItems e nextPc

def syncSequence (e : Setting) (pc : Word) : Stub where
  tier := .full
  callee := .helper e.config.helpers.syncCheck
  args := [.reg .context]
  answer := .keep
  behind := syncTail e pc

def timerSequence (e : Setting) (rt rt2 : Guest.Gpr) : Stub where
  tier := .skipContext
  callee := .helper e.config.helpers.timerRead
  args := [.reg .context]
  answer := .split rt rt2
  behind := []

def tableSequence (e : Setting) (pcValue : Word) (rn rm : Guest.Gpr) (halfword : Bool) : Stub where
  tier := .skipContext
  callee := .helper e.config.helpers.tableBranch
  args := tableArgs pcValue rn rm halfword
  answer := .next
  behind := leaveItems e
  returns := false

section Items

variable (e : Setting) (u : RegisterUse)

theorem callItems_eq (nextPc : Word) (target : Option Word) : callItems e u nextPc target =
    ops ((callSequence e nextPc target).calling e u) ++ (callSequence e nextPc target).behind := rfl

theorem trapItems_eq (nextPc : Word) (helper : DWord) (args : List CallArg) :
    trapItems e u nextPc helper args = ops ((trapSequence e nextPc helper args).calling e u) ++
      (trapSequence e nextPc helper args).behind := rfl

theorem syncPointItems_eq (pc : Word) : syncPointItems e u pc =
    ops ((syncSequence e pc).calling e u) ++ (syncSequence e pc).behind := by
  simp only [syncPointItems, syncSequence, Stub.calling, syncTail, ops_append, List.append_assoc,
    List.nil_append]
  rfl

theorem timerReadItems_eq (rt rt2 : Guest.Gpr) : timerReadItems e u rt rt2 =
    ops ((timerSequence e rt rt2).calling e u) ++ (timerSequence e rt rt2).behind :=
  (List.append_nil _).symm

theorem tableBranchItems_eq (f : Fixup) (rn rm : Guest.Gpr) (halfword : Bool) (n : Nat) :
    tableBranchItems e u f.pcValue rn rm halfword =
      (tableSequence e f.pcValue rn rm halfword).items e u f n := by
  rw [Stub.items, Stub.rest]
  exact congrArg (_ ++ ·) (List.append_nil (leaveItems e)).symm

end Items

section Kinds

variable {e : Setting} {u : RegisterUse} {f : Fixup}

/-- Loads the code address of a target, and writes the target if it is known. -/
theorem enter_call (e : Setting) (target : Option Word) (s : Host.State) :
    ∃ t, execAll (target.elim [] addressOps ++ dispatchOps e target) s = some t ∧
      Spared (s.x .context) s t ∧
      t.x .dispatch = target.elim e.config.helpers.fallbackDispatcher
        (fun a => e.codeAddress (some a) (writeNext s a).mem) ∧
      t.mem.word (s.x .context + BitVec.ofNat 64 Record.dispatchAddress) =
        target.getD (s.mem.word (s.x .context + BitVec.ofNat 64 Record.dispatchAddress)) := by
  cases target with
  | none =>
    refine ⟨_, execAll_dispatchOps e none s, (spared_set_dispatch s _).goto _, ?_, ?_⟩
    · exact State.x_set_self s .dispatch e.config.helpers.fallbackDispatcher (by decide)
    · exact congrArg (fun m : Mem => m.word _)
        (State.mem_set s .dispatch e.config.helpers.fallbackDispatcher)
  | some a =>
    let c := e.codeAddress (some a) (writeNext s a).mem
    have hexec := (execAll_append (execAll_addressOps a s)).trans (execAll_dispatchOps e (some a) _)
    rw [State.set_skip, State.skip_skip] at hexec
    have hmem : ((writeNext s a).set .dispatch c).mem = (writeNext s a).mem := State.mem_set ..
    refine ⟨_, hexec, ?_, ?_, ?_⟩
    · exact ((spared_writeNext rfl a).trans (spared_set_dispatch (writeNext s a) c)).goto _
    · exact State.x_set_self (writeNext s a) .dispatch c (by decide)
    · show Mem.word ((writeNext s a).set .dispatch c).mem _ = a
      rw [hmem, mem_writeNext]
      exact Mem.read_write_self (n := 4) s.mem _ a (Nat.le_of_ble_eq_true rfl)

theorem reads_leaveNonzeroItems (e : Setting) : ∀ x ∈ leaveNonzeroItems e, itemReads x = true := by
  have hdispatch := itemReads_ops (straight_dispatchOps e none)
  rw [leaveNonzeroItems, ops_append]
  refine List.forall_mem_append.mpr ⟨List.forall_mem_append.mpr ⟨hdispatch, ?_⟩, ?_⟩
  · intro x hx
    obtain rfl : x = .op (.cbz .scratch 2) := List.mem_singleton.mp hx
    rfl
  · intro x hx
    obtain rfl : x = .exit (.nonzero .scratch) := List.mem_singleton.mp hx
    rfl

theorem reads_continuationItems (e : Setting) (expected : Word) :
    ∀ x ∈ continuationItems e expected, itemReads x = true :=
  List.forall_mem_append.mpr
    ⟨itemReads_ops (straight_compareOps expected), reads_leaveNonzeroItems e⟩

theorem reads_syncTail (e : Setting) (pc : Word) : ∀ x ∈ syncTail e pc, itemReads x = true :=
  List.forall_mem_append.mpr
    ⟨itemReads_ops ((straight_addressOps pc).append rfl), reads_leaveNonzeroItems e⟩

theorem exits_leaveNonzeroItems (e : Setting) (i : Nat) :
    exitsFrom i (leaveNonzeroItems e) ≠ [] := by
  rw [leaveNonzeroItems, exitsFrom_append, exitsFrom_ops]
  exact List.cons_ne_nil _ _

theorem exits_continuationItems (e : Setting) (expected : Word) (i : Nat) :
    exitsFrom i (continuationItems e expected) ≠ [] := by
  rw [continuationItems, exitsFrom_append, exitsFrom_ops]
  exact exits_leaveNonzeroItems e _

theorem exits_syncTail (e : Setting) (pc : Word) (i : Nat) : exitsFrom i (syncTail e pc) ≠ [] := by
  rw [syncTail, exitsFrom_append, exitsFrom_ops]
  exact exits_leaveNonzeroItems e _

theorem serves_call (target : Option Word)
    (hcallee : ∀ s, f.callee e s = target.elim e.config.helpers.fallbackDispatcher
      (fun a => e.codeAddress (some a) (writeNext s a).mem))
    (hargs : ∀ s, f.args s = [s.x .context, s.x .pageTable])
    (hannounced : ∀ a, f.announced a = target.getD a)
    (hnext : AnswersNext f) :
    (callSequence e f.nextPc target).Serves e u f where
  straight := by
    refine Straight.append ?_ (straight_dispatchOps e target)
    cases target with
    | none => rfl
    | some a => exact straight_addressOps a
  enter s := by
    obtain ⟨t, hexec, hspared, hdispatch, hslot⟩ := enter_call e target s
    refine ⟨t, hexec, hspared, hdispatch.trans (hcallee s).symm, ?_,
      hslot.trans (hannounced _).symm⟩
    have hx : ∀ q, q ≠ .scratch → q ≠ .dispatch → t.x q = s.x q := hspared.x
    rw [hargs, ← hx .context (by decide) (by decide), ← hx .pageTable (by decide) (by decide)]
    rfl
  fits := callFits_of_argsFit argsFit_contextArgs fun x hx => by
    obtain rfl : Host.Gpr.dispatch = x := Callee.register.inj hx
    exact (by decide : contextArgs.length ≤ Host.Gpr.dispatch.index)
  args := (by decide : CallArg.reg .scratch ∉ contextArgs)
  callee := (by decide : Callee.register .dispatch ≠ .register .scratch)
  reads := reads_continuationItems e f.nextPc
  follow hat h hs ht hways :=
    follow_next hat h hs (ht (exits_continuationItems e f.nextPc _)) hways hnext

theorem serves_trap {helper : DWord} {args : List CallArg} (hfit : ArgsFit args)
    (hfree : .reg .scratch ∉ args) (hcallee : ∀ s, f.callee e s = helper)
    (hargs : ∀ s, f.args s = args.map (·.value s)) (hannounced : ∀ a, f.announced a = a)
    (hnext : AnswersNext f) :
    (trapSequence e f.nextPc helper args).Serves e u f where
  straight := rfl
  enter s := ⟨s, rfl, spared_of_mem (fun _ _ _ => rfl) rfl rfl rfl, (hcallee s).symm,
    (hargs s).symm, (hannounced _).symm⟩
  fits := callFits_of_argsFit hfit nofun
  args := hfree
  callee := nofun
  reads := reads_continuationItems e f.nextPc
  follow hat h hs ht hways :=
    follow_next hat h hs (ht (exits_continuationItems e f.nextPc _)) hways hnext

theorem serves_sync (hkind : f.kind = .syncPoint) : (syncSequence e f.pc).Serves e u f where
  straight := rfl
  enter s := by
    refine ⟨s, rfl, spared_of_mem (fun _ _ _ => rfl) rfl rfl rfl, ?_, ?_, ?_⟩
    · simp only [Fixup.callee, hkind]
      rfl
    · simp only [Fixup.args, hkind]
      rfl
    · simp only [Fixup.announced, hkind]
  fits := callFits_of_argsFit argsFit_context_only nofun
  args := (by decide : CallArg.reg .scratch ∉ [CallArg.reg .context])
  callee := nofun
  reads := reads_syncTail e f.pc
  follow hat h hs ht hways := follow_sync hat h hs (ht (exits_syncTail e f.pc _)) hways hkind

theorem serves_timer {rt rt2 : Guest.Gpr} (hkind : f.kind = .timerRead)
    (htarget : f.target = .registers rt rt2) : (timerSequence e rt rt2).Serves e u f where
  straight := rfl
  enter s := by
    refine ⟨s, rfl, spared_of_mem (fun _ _ _ => rfl) rfl rfl rfl, ?_, ?_, ?_⟩
    · simp only [Fixup.callee, hkind]
      rfl
    · simp only [Fixup.args, hkind]
      rfl
    · simp only [Fixup.announced, hkind]
  fits := callFits_of_argsFit argsFit_context_only nofun
  args := (by decide : CallArg.reg .scratch ∉ [CallArg.reg .context])
  callee := nofun
  reads := fun x hx => nomatch hx
  follow hat h hs _ hways := follow_timer hat h hs hways hkind htarget

theorem scratch_not_mem_tableArgs (pcValue : Word) (rn rm : Guest.Gpr) (halfword : Bool) :
    .reg .scratch ∉ tableArgs pcValue rn rm halfword := by
  have harg : ∀ r : Guest.Gpr, CallArg.reg .scratch ≠ argOf r pcValue := by
    intro r
    unfold argOf
    cases hr : r.isPc with
    | true => exact nofun
    | false =>
      intro heq
      exact ne_of_isSpare (x := .scratch) rfl (isSpare_pinned hr) (CallArg.reg.inj heq).symm
  simp only [tableArgs, List.mem_cons, List.not_mem_nil, harg, reduceCtorEq, or_false,
    CallArg.reg.injEq]
  decide

theorem serves_table {rn rm : Guest.Gpr} {halfword : Bool} (hkind : f.kind = .tableBranch halfword)
    (htarget : f.target = .registers rn rm) :
    (tableSequence e f.pcValue rn rm halfword).Serves e u f where
  straight := rfl
  enter s := by
    refine ⟨s, rfl, spared_of_mem (fun _ _ _ => rfl) rfl rfl rfl, ?_, ?_, ?_⟩
    · simp only [Fixup.callee, hkind]
      rfl
    · simp only [Fixup.args, hkind, htarget]
      rfl
    · simp only [Fixup.announced, hkind]
  fits := callFits_of_argsFit (argsFit_tableArgs ..) nofun
  args := scratch_not_mem_tableArgs f.pcValue rn rm halfword
  callee := nofun
  reads := reads_leaveItems e
  follow hat h hs ht hways := by
    rw [Stub.rest, show (tableSequence e f.pcValue rn rm halfword).returns = false from rfl] at hat
    rw [if_neg Bool.false_ne_true, List.append_nil] at hat
    exact follow_table hat h hs (ht (exits_leaveItems e _)) hways hkind

/-- What becomes of the placeholder of a fixup for which a routine is called, if the code has `n`
words then. -/
structure Served (e : Setting) (u : RegisterUse) (f : Fixup) (n : Nat) (patch : Host.Instr)
    (tail : List Item) (st : Stub) : Prop where
  serves : st.Serves e u f
  patch : patch = .b (displacement f.site n)
  tail : tail = st.items e u f n
  reaches : fits26 (displacement f.site n) = true
  back : st.returns = true →
    fits26 (displacement (n + (st.calling e u).length + st.behind.length) (f.site + 1)) = true

theorem length_calling_behind (st : Stub) (n : Nat) :
    n + (ops (st.calling e u) ++ st.behind).length =
      n + (st.calling e u).length + st.behind.length := by
  rw [List.length_append, length_ops, Nat.add_assoc]

/-- A sequence that goes back to its placeholder. -/
theorem tail_returning {st : Stub} (hr : st.returns = true) (n : Nat) :
    (returning f.site n (ops (st.calling e u) ++ st.behind)).tail = st.items e u f n := by
  rw [returning, length_calling_behind, Stub.items, Stub.rest, if_pos hr, List.append_assoc]
  rfl

theorem served_returning {st : Stub} {n : Nat} (h : st.Serves e u f) (hr : st.returns = true)
    {xs : List Item} (hxs : xs = ops (st.calling e u) ++ st.behind)
    (hf : (returning f.site n xs).fits) :
    Served e u f n (returning f.site n xs).patch (returning f.site n xs).tail st := by
  subst hxs
  obtain ⟨hgo, hback⟩ := hf
  rw [length_calling_behind] at hback
  exact ⟨h, rfl, tail_returning hr n, hgo, fun _ => hback⟩

variable {targets : Word → Option Nat} {n : Nat}

theorem answersNext_of_call (h : f.kind = .call ∨ f.kind = .indirectCall) : AnswersNext f := by
  rcases h with hk | hk
  · constructor <;> intros <;> simp only [Fixup.goesOn, Fixup.leavesFor, Fixup.delivered, hk]
  · constructor <;> intros <;> simp only [Fixup.goesOn, Fixup.leavesFor, Fixup.delivered, hk]

theorem served_call (hk : f.kind = .call) (hf : (resolved e u targets f n).fits) :
    ∃ st, Served e u f n (resolved e u targets f n).patch (resolved e u targets f n).tail st := by
  cases ht : f.target with
  | address a =>
    have hnext := answersNext_of_call (f := f) (.inl hk)
    simp only [resolved, hk, ht] at hf ⊢
    refine ⟨callSequence e f.nextPc (some a), served_returning (serves_call (some a) ?_ ?_ ?_ hnext)
      rfl (callItems_eq ..) hf.2⟩
    · simp only [Fixup.callee, hk, ht, Option.elim_some, implies_true]
    · simp only [Fixup.args, hk, implies_true]
    · simp only [Fixup.announced, hk, ht, Option.getD_some, implies_true]
  | _ => simp only [resolved, hk, ht, unusable] at hf

theorem served_indirectCall (hk : f.kind = .indirectCall) (hf : (resolved e u targets f n).fits) :
    ∃ st, Served e u f n (resolved e u targets f n).patch (resolved e u targets f n).tail st := by
  have hnext := answersNext_of_call (f := f) (.inr hk)
  simp only [resolved, hk] at hf ⊢
  refine ⟨callSequence e f.nextPc none, served_returning (serves_call none ?_ ?_ ?_ hnext)
    rfl (callItems_eq ..) hf⟩
  · simp only [Fixup.callee, hk, Option.elim_none, implies_true]
  · simp only [Fixup.args, hk, implies_true]
  · simp only [Fixup.announced, hk, Option.getD_none, implies_true]

theorem served_trap {helper : DWord} (values : List DWord) (hlen : values.length < maxCallArgs)
    (hnext : AnswersNext f) (hcallee : ∀ s, f.callee e s = helper)
    (hargs : ∀ s, f.args s = s.x .context :: values) (hannounced : ∀ a, f.announced a = a)
    (hf : (returning f.site n
      (trapItems e u f.nextPc helper (.reg .context :: values.map .imm))).fits) :
    Served e u f n
      (returning f.site n (trapItems e u f.nextPc helper (.reg .context :: values.map .imm))).patch
      (returning f.site n (trapItems e u f.nextPc helper (.reg .context :: values.map .imm))).tail
      (trapSequence e f.nextPc helper (.reg .context :: values.map .imm)) := by
  refine served_returning (serves_trap (argsFit_context values hlen) (fun hmem => ?_) hcallee
    (fun s => ?_) hannounced hnext) rfl (trapItems_eq ..) hf
  · rcases List.mem_cons.mp hmem with heq | hmem
    · exact absurd (CallArg.reg.inj heq) (by decide)
    · obtain ⟨v, -, hv⟩ := List.mem_map.mp hmem
      cases hv
  · rw [hargs, List.map_cons, List.map_map]
    exact congrArg (s.x .context :: ·) (List.map_id values).symm

/-- Every fixup for which a routine is called has a sequence that serves it. -/
theorem served_resolved (hasks : f.kind.asks = true) (hf : (resolved e u targets f n).fits) :
    ∃ st, Served e u f n (resolved e u targets f n).patch (resolved e u targets f n).tail st := by
  cases hk : f.kind with
  | branch | condBranch | indirectBranch =>
    rw [hk] at hasks
    cases hasks
  | call => exact served_call hk hf
  | indirectCall => exact served_indirectCall hk hf
  | tableBranch halfword =>
    cases ht : f.target with
    | registers rn rm =>
      simp only [resolved, hk, ht] at hf ⊢
      refine ⟨tableSequence e f.pcValue rn rm halfword, serves_table hk ht, rfl,
        tableBranchItems_eq .., hf, fun hback => ?_⟩
      cases hback
    | _ => simp only [resolved, hk, ht, unusable] at hf
  | syncPoint =>
    simp only [resolved, hk] at hf ⊢
    exact ⟨syncSequence e f.pc, served_returning (serves_sync hk) rfl (syncPointItems_eq ..) hf⟩
  | softwareInterrupt imm =>
    have hnext : AnswersNext f := by
      constructor <;> intros <;> simp only [Fixup.goesOn, Fixup.leavesFor, Fixup.delivered, hk]
    simp only [resolved, hk] at hf ⊢
    refine ⟨_, served_trap [imm.setWidth 64, f.nextPc.setWidth 64]
      (Nat.le_of_ble_eq_true rfl) hnext ?_ ?_ ?_ hf⟩
    · simp only [Fixup.callee, hk, implies_true]
    · simp only [Fixup.args, hk, implies_true]
    · simp only [Fixup.announced, hk, implies_true]
  | exception kind imm =>
    have hnext : AnswersNext f := by
      constructor <;> intros <;> simp only [Fixup.goesOn, Fixup.leavesFor, Fixup.delivered, hk]
    simp only [resolved, hk] at hf ⊢
    refine ⟨_, served_trap [kind.number, f.pc.setWidth 64, imm.setWidth 64]
      (Nat.le_of_ble_eq_true rfl) hnext ?_ ?_ ?_ hf⟩
    · simp only [Fixup.callee, hk, implies_true]
    · simp only [Fixup.args, hk, implies_true]
    · simp only [Fixup.announced, hk, implies_true]
  | timerRead =>
    cases ht : f.target with
    | registers rt rt2 =>
      simp only [resolved, hk, ht] at hf ⊢
      exact ⟨timerSequence e rt rt2,
        served_returning (serves_timer hk ht) rfl (timerReadItems_eq ..) hf.2⟩
    | _ => simp only [resolved, hk, ht, unusable] at hf

end Kinds

end Dynarec.Resolve

namespace Dynarec.Compile

open Dynarec.Emit Dynarec.Lower Dynarec.Resolve Dynarec.Host

/-! ### Sync points -/

/-- No instruction has a sync point of its own. -/
theorem hole?_ne_syncPoint {c : Current} {i : Guest.Instr} {target : FixupTarget} :
    hole? c i ≠ some (.syncPoint, target) := by
  intro h
  cases hk : i.kind with
  | alu op rd rn operand =>
    simp only [hole?, hk] at h
    split at h <;> cases h
  | move rd operand negate =>
    cases operand with
    | imm v =>
      simp only [hole?, hk] at h
      split at h <;> cases h
    | reg rm =>
      simp only [hole?, hk] at h
      split at h
      · cases h
      · split at h <;> cases h
  | branch t =>
    simp only [hole?, hk, Option.some.injEq, Prod.mk.injEq] at h
    have hkind := h.1
    split at hkind <;> cases hkind
  | _ =>
    simp only [hole?, hk] at h
    cases h

theorem fixup_of_hole_mem {kind : FixupKind} {target : FixupTarget} {c : Current} {n : Nat}
    {xs : List Item} (h : .hole kind target c ∈ xs) :
    ∃ f ∈ fixupsFrom n xs, f.kind = kind ∧ f.target = target ∧ f.pc = c.pc := by
  induction xs generalizing n with
  | nil => exact absurd h List.not_mem_nil
  | cons x xs ih =>
    rcases List.mem_cons.mp h with rfl | h
    · exact ⟨_, List.mem_cons_self, rfl, rfl, rfl⟩
    · obtain ⟨f, hf, hkind⟩ := ih (n := n + 1) h
      exact ⟨f, List.mem_append_right _ hf, hkind⟩

theorem hole_mem_of_fixup {n : Nat} {xs : List Item} {f : Fixup} (h : f ∈ fixupsFrom n xs) :
    ∃ x ∈ xs, ∃ k, x.fixup? k = some f := by
  induction xs generalizing n with
  | nil => exact absurd h List.not_mem_nil
  | cons x xs ih =>
    rcases List.mem_append.mp h with h | h
    · exact ⟨x, List.mem_cons_self, n, Option.mem_toList.mp h⟩
    · obtain ⟨y, hy, hf⟩ := ih h
      exact ⟨y, List.mem_cons_of_mem _ hy, hf⟩

/-- Every sync point belongs to the last instruction of a loop. -/
theorem loopEnd_of_syncPoint {e : Setting} {n : Nat} {bs : List Guest.Block} {f : Fixup}
    (hf : f ∈ fixupsFrom n (bodyItems e bs)) (hk : f.kind = .syncPoint) :
    ∃ b ∈ bs, b.isLoopEnd = true ∧ ∃ i, b.instrs.toList.getLast? = some i ∧ f.pc = i.address := by
  obtain ⟨x, hx, k, hfix⟩ := hole_mem_of_fixup hf
  refine forall_bodyItems (Q := fun x => ∀ k f, x.fixup? k = some f → f.kind = .syncPoint →
    ∃ b ∈ bs, b.isLoopEnd = true ∧ ∃ i, b.instrs.toList.getLast? = some i ∧ f.pc = i.address)
    (fun i k f hf => nomatch hf) (fun c k f hf => nomatch hf) ?_ ?_ x hx k f hfix hk
  · intro b hb hloop i hi k f hf _
    cases hf
    exact ⟨b, hb, hloop, i, hi, rfl⟩
  · intro b hb i hi x hx k f hf hk
    have hhole := (hole?_of_mem hx hf).1
    rw [hk] at hhole
    exact absurd hhole hole?_ne_syncPoint

/-- Every loop has a sync point, which belongs to its last instruction. -/
theorem syncPoint_of_loopEnd {e : Setting} {n : Nat} {bs : List Guest.Block} {b : Guest.Block}
    (hb : b ∈ bs) (hloop : b.isLoopEnd = true) {i : Guest.Instr}
    (hi : b.instrs.toList.getLast? = some i) :
    ∃ f ∈ fixupsFrom n (bodyItems e bs), f.kind = .syncPoint ∧ f.pc = i.address := by
  have hcheck : .check i ∈ blockParts b := check_mem_parts.mpr ⟨hloop, hi⟩
  have hhole : .hole .syncPoint .none (currentOf i) ∈ bodyItems e bs :=
    (infix_blockItems e hb).subset
      (List.mem_flatMap.mpr ⟨_, hcheck, List.mem_append_right _ List.mem_cons_self⟩)
  obtain ⟨f, hf, hkind, -, hpc⟩ := fixup_of_hole_mem (n := n) hhole
  exact ⟨f, hf, hkind, hpc⟩

end Dynarec.Compile

namespace Dynarec.Guest

/-- A block among those spelled out, and the block that it comes from. -/
theorem mem_spelledBlocks {q : ItState} {bs : List Block} {b : Block} (h : b ∈ bs) :
    ∃ q', b.spelled q' ∈ spelledBlocks q bs := by
  induction bs generalizing q with
  | nil => exact absurd h List.not_mem_nil
  | cons c cs ih =>
    rcases List.mem_cons.mp h with rfl | h
    · exact ⟨q, List.mem_cons_self⟩
    · obtain ⟨q', hq'⟩ := ih (q := c.behind q) h
      exact ⟨q', List.mem_cons_of_mem _ hq'⟩

theorem exists_of_mem_spelledBlocks {q : ItState} {bs : List Block} {c : Block}
    (h : c ∈ spelledBlocks q bs) : ∃ b ∈ bs, ∃ q', c = b.spelled q' := by
  induction bs generalizing q with
  | nil => exact absurd h List.not_mem_nil
  | cons b bs ih =>
    rcases List.mem_cons.mp h with rfl | h
    · exact ⟨b, List.mem_cons_self, q, rfl⟩
    · obtain ⟨d, hd, hq⟩ := ih h
      exact ⟨d, List.mem_cons_of_mem _ hd, hq⟩

end Dynarec.Guest

namespace Dynarec.Compile

open Dynarec.Emit Dynarec.Lower Dynarec.Resolve Dynarec.Host

namespace Built

variable {config : Config} {dispatch : DispatchTable} {t : Guest.Trace} {c : Compiled} {p : Plan}
  {s : Emission} (h : Built config dispatch t c p s)

include h

theorem area_bounds {area : Nat} (harea : c.stats.spillBytes + 16 ≤ area) :
    (SpillLayout.compute p.use p.setting.shape).used ≤ area ∧ SpillLayout.skipBytes ≤ area := by
  have hspill : c.stats.spillBytes = (SpillLayout.compute p.use p.setting.shape).bytes := by
    rw [h.stats]
    rfl
  have hused := SpillLayout.used_compute_le p.use p.setting.shape
  have hskip : SpillLayout.skipBytes = 16 := rfl
  omega

theorem spillBytes_le : c.stats.spillBytes + 16 ≤ 4096 := by
  have hspill := Compile.spillBytes_le p.use p.setting.shape
  rw [h.stats]
  exact Nat.add_le_add_right hspill 16

/-- A loop has a sync point, unless its last instruction is an if-then instruction. -/
theorem syncPoint_of_loopEnd {b : Guest.Block} (hb : b ∈ t.blocks.toList)
    (hloop : b.isLoopEnd = true) {i : Guest.Instr} (hi : b.instrs.toList.getLast? = some i)
    (hk : i.kind.isIfThen = false) :
    ∃ f ∈ s.fixups.toList, f.kind = .syncPoint ∧ f.pc = i.address := by
  obtain ⟨q, hq⟩ := Guest.mem_spelledBlocks (q := {}) hb
  have hchecks : (b.spelled q).isLoopEnd = true := by
    show (b.isLoopEnd && !(b.instrs.toList.getLast?.map (·.kind.isIfThen)).getD false) = true
    rw [hloop, hi, Option.map_some, Option.getD_some, hk]
    rfl
  have hlast := Guest.getLast?_spelled (g := Guest.Instr.address) (fun _ _ => rfl) (fun _ => rfl) q
    b.instrs.toList
  rw [hi, Option.map_some] at hlast
  obtain ⟨j, hj, hji⟩ := Option.map_eq_some_iff.mp hlast
  rw [h.emitted.fixups, Plan.body, h.blocks, ← hji]
  exact Compile.syncPoint_of_loopEnd hq hchecks hj

/-- A sync point belongs to the last instruction of a loop. -/
theorem loopEnd_of_syncPoint {f : Fixup} (hf : f ∈ s.fixups.toList) (hk : f.kind = .syncPoint) :
    ∃ b ∈ t.blocks.toList, b.isLoopEnd = true ∧
      ∃ i, b.instrs.toList.getLast? = some i ∧ f.pc = i.address := by
  rw [h.emitted.fixups, Plan.body, h.blocks] at hf
  obtain ⟨d, hd, hloop, j, hj, hpc⟩ := Compile.loopEnd_of_syncPoint hf hk
  obtain ⟨b, hb, q, rfl⟩ := Guest.exists_of_mem_spelledBlocks hd
  have hlast := Guest.getLast?_spelled (g := Guest.Instr.address) (fun _ _ => rfl) (fun _ => rfl) q
    b.instrs.toList
  have hj : (Guest.spelled q b.instrs.toList).getLast? = some j := hj
  rw [hj, Option.map_some] at hlast
  obtain ⟨i, hi, hij⟩ := Option.map_eq_some_iff.mp hlast.symm
  exact ⟨b, hb, (Bool.and_eq_true_iff.mp hloop).1, i, hi, hpc.trans hij.symm⟩

/-- A routine that is called for a fixup is asked and obeyed. -/
theorem obeys {f : Fixup} (hf : f ∈ s.fixups.toList) (hasks : f.kind.asks = true) {area : Nat}
    {m : Host.State} (harea : c.stats.spillBytes + 16 ≤ area) (hm : m.pc = f.site)
    (hapart : ∀ a, ¬Mem.Outside (m.x .context) Record.size a → Mem.Outside (m.x .sp) area a) :
    Obeys p.setting s.regs (instrAt? c.code) c.stats.trailer area f m := by
  obtain ⟨pre, post, hsplit⟩ := List.append_of_mem hf
  obtain ⟨tally, s', hrun, -, hsize⟩ := h.each_run hsplit
  have hset := h.settled hsplit hrun
  obtain ⟨st, hserved⟩ := served_resolved hasks hset.fits
  have hreads := hserved.serves.itemReads hserved.back
  have hpatch := hset.patch
  have htail := hset.tail
  have hexits := hset.exits
  have hends := hset.ends
  rw [hserved.patch] at hpatch
  rw [hserved.tail] at htail hexits hends
  have htrailer : exitsFrom s'.code.size (st.items p.setting p.use f s'.code.size) ≠ [] →
      c.stats.trailer = some p.finish :=
    fun hne => h.trailer fun hnil => hne (List.eq_nil_of_subset_nil (hnil ▸ hexits))
  -- The trailer stands behind the sequence, which stands behind the body.
  have hways : c.stats.trailer ≠ some (f.site + 1) := by
    intro hfinish
    have hsite := h.site_lt hf
    have hlen := Stub.length_items_pos st p.setting p.use f s'.code.size
    rw [h.stats] at hfinish
    have hfinish : (if p.exits = [] then none else some p.finish) = some (f.site + 1) := hfinish
    split at hfinish
    · cases hfinish
    · have hfinish := Option.some.inj hfinish
      omega
  obtain ⟨hused, hskip⟩ := h.area_bounds harea
  rw [h.emitted.regs]
  refine hserved.serves.obeys ?_ (h.found_items htail hreads hexits) htrailer hways hm hused hskip
    hapart
  refine allFrom_singleton.mp (h.found hpatch fun i hi => ?_)
  rw [List.mem_singleton.mp hi]
  exact hserved.reaches

end Built

end Dynarec.Compile

namespace Dynarec

open Dynarec.Emit Dynarec.Compile Dynarec.Resolve Dynarec.Host

/-- Calls, traps, timer reads and table branches: the routine is asked as its kind says, and its
answer is followed, whatever it is. -/
theorem calls_obeyed {config : Config} {dispatch : DispatchTable} {t : Guest.Trace} {c : Compiled}
    (h : compile lower config dispatch t = .ok c) :
    ∃ s, (do reservePrologue; Compile.body lower t.blocks.toList : Emit Unit)
        { config, dispatch, shape := .ofTrace t } {} = .ok () s ∧
      ∀ f ∈ s.fixups.toList, f.kind.asks = true → f.kind ≠ .syncPoint →
        ∀ area m, c.stats.spillBytes + 16 ≤ area → m.pc = f.site →
          (∀ a, ¬Mem.Outside (m.x .context) Record.size a → Mem.Outside (m.x .sp) area a) →
          Obeys { config, dispatch, shape := .ofTrace t } s.regs (instrAt? c.code) c.stats.trailer
            area f m := by
  obtain ⟨p, s, h⟩ := compile_ok h
  refine ⟨s, h.setting ▸ h.body, fun f hf hasks _ area m harea hm hapart => ?_⟩
  rw [← h.setting]
  exact h.obeys hf hasks harea hm hapart

theorem read_restingState (a : DWord) (n : Nat) : restingState.mem.read a n = 0 := by
  induction n generalizing a with
  | zero => rfl
  | succ n ih =>
    show restingState.mem.read (a + 1) n ++ 0#8 = 0
    rw [ih]
    exact BitVec.zero_append_zero

/-- What a machine at rest holds of the guest. -/
theorem carries_restingState (u : RegisterUse) (k : Nat) :
    Carries u (restingState.x .context) (restingState.goto k) ⟨fun _ => 0, fun _ => 0, {}, 0⟩ := by
  refine ⟨fun r hr _ => ?_, fun r _ _ => read_restingState _ 4, fun d v _ => rfl,
    fun d _ => read_restingState _ 8, fun _ => rfl, fun _ => ?_⟩
  · have hcontext : pinned r ≠ .context := (ne_pinned hr (by decide)).symm
    have hsp : pinned r ≠ .sp := (ne_pinned hr (by decide)).symm
    show BitVec.setWidth 32 (if pinned r = .context then _ else if pinned r = .sp then _ else _) = _
    rw [if_neg hcontext, if_neg hsp]
    rfl
  · exact (congrArg Nzcv.ofWord (read_restingState _ 4)).trans (by decide)

/-- The image of a trap and a return, at 4096. -/
def trapImage : Guest.Image := ⟨0x1000, #[0x07, 0x00, 0x00, 0xEF, 0x1E, 0xFF, 0x2F, 0xE1]⟩

def trapTrace : Guest.Trace :=
  .ofBlocks #[{
    start := 0x1000
    instrs := #[Guest.decode 0xEF000007 0x1000, Guest.decode 0xE12FFF1E 0x1004] }]

theorem compile_trapTrace : ∃ c, compile lower {} DispatchTable.empty trapTrace = .ok c := by
  have htrace : Guest.Trace.collect {} trapImage 0x1000 = .ok trapTrace :=
    eq_ok_of_toOption (by decide +kernel)
  exact compile_of_aligned DispatchTable.empty_ne (by decide) (by decide) (by decide) (by decide)
    htrace

theorem fixups_trapTrace {c : Compiled} {p : Plan} {s : Emission}
    (h : Built {} DispatchTable.empty trapTrace c p s) :
    s.fixups.toList = [⟨.softwareInterrupt 7, .none, 64, 0x1000, 0x1004, 0x1008⟩,
      ⟨.indirectBranch, .register ⟨14⟩, 65, 0x1004, 0x1008, 0x100C⟩] := by
  rw [h.emitted.fixups, Plan.room, Plan.body, h.setting, h.blocks]
  rfl

/-- A trap passes its number and the address behind it. -/
theorem calls_obeyed_trap : ∃ (c : Compiled) (s : Emission) (m : Host.State),
    compile lower {} DispatchTable.empty trapTrace = .ok c ∧
    ⟨.softwareInterrupt 7, .none, 64, 0x1000, 0x1004, 0x1008⟩ ∈ s.fixups.toList ∧
    Leads (instrAt? c.code) (restingState.goto 64) m ∧ m.x (.ofNat 1) = 7 ∧
    m.x (.ofNat 2) = 0x1004 := by
  obtain ⟨c, hc⟩ := compile_trapTrace
  obtain ⟨s, hs, hobeys⟩ := calls_obeyed hc
  obtain ⟨p, s', hb⟩ := compile_ok hc
  have hbody := hs.symm.trans (hb.setting ▸ hb.body)
  cases hbody
  have hmem : ⟨.softwareInterrupt 7, .none, 64, 0x1000, 0x1004, 0x1008⟩ ∈ s.fixups.toList := by
    rw [fixups_trapTrace hb]
    exact List.mem_cons_self
  obtain ⟨m, hrun, hasked, -⟩ := hobeys _ hmem rfl nofun _ (restingState.goto 64) (Nat.le_refl _) rfl
    (restingState_apart hb.spillBytes_le) _ (carries_restingState s.regs 64)
  exact ⟨c, s, m, hc, hmem, hrun, hasked.args 1 _ rfl, hasked.args 2 _ rfl⟩

/-- From the emission `s` of the body of a unit to its final code `c`, each loop asks at its last
instruction whether to leave. -/
structure LoopsAsk (e : Setting) (t : Guest.Trace) (c : Compiled) (s : Emission) : Prop where
  body : (do reservePrologue; Compile.body lower t.blocks.toList : Emit Unit) e {} = .ok () s
  present : ∀ b ∈ t.blocks.toList, b.isLoopEnd = true → ∀ i, b.instrs.toList.getLast? = some i →
    i.kind.isIfThen = false → ∃ f ∈ s.fixups.toList, f.kind = .syncPoint ∧ f.pc = i.address
  belongs : ∀ f ∈ s.fixups.toList, f.kind = .syncPoint → ∃ b ∈ t.blocks.toList,
    b.isLoopEnd = true ∧ ∃ i, b.instrs.toList.getLast? = some i ∧ f.pc = i.address
  /-- Only the low half of the answer decides. -/
  decides : ∀ f ∈ s.fixups.toList, f.kind = .syncPoint →
    ∀ area m σ, c.stats.spillBytes + 16 ≤ area → m.pc = f.site →
      (∀ a, ¬Mem.Outside (m.x .context) Record.size a → Mem.Outside (m.x .sp) area a) →
      Carries s.regs (m.x .context) m σ →
      ∃ m₁, Leads (instrAt? c.code) m m₁ ∧ Asked e (instrAt? c.code) f σ m m₁ ∧
        ∀ m₂, Conforms area m₁ m₂ → m₂.pc = m₁.pc + 1 →
          ∃ m₃, Leads (instrAt? c.code) m₂ m₃ ∧
            Followed e s.regs c.stats.trailer f m₂ m₃ ∧
            (m₃.pc = f.site + 1 ↔ (m₂.x (.ofNat 0)).setWidth 32 = (0 : Word)) ∧
            ((m₂.x (.ofNat 0)).setWidth 32 ≠ (0 : Word) → c.stats.trailer = some m₃.pc ∧
              m₃.x .dispatch = e.config.helpers.fallbackDispatcher ∧
              m₃.mem.word (m₂.x .context + BitVec.ofNat 64 Record.dispatchAddress) = f.pc)

theorem loopsAsk {config : Config} {dispatch : DispatchTable} {t : Guest.Trace} {c : Compiled}
    (h : compile lower config dispatch t = .ok c) :
    ∃ s, LoopsAsk { config, dispatch, shape := .ofTrace t } t c s := by
  obtain ⟨p, s, h⟩ := compile_ok h
  refine ⟨s, h.setting ▸ h.body, fun b hb hloop i => h.syncPoint_of_loopEnd hb hloop,
    fun f => h.loopEnd_of_syncPoint, ?_⟩
  intro f hf hk area m σ harea hm hapart hσ
  have hasks : f.kind.asks = true := by
    rw [hk]
    rfl
  have hobeys := h.obeys hf hasks harea hm hapart
  rw [h.setting] at hobeys
  obtain ⟨m₁, hrun, hasked, hback⟩ := hobeys σ hσ
  refine ⟨m₁, hrun, hasked, fun m₂ h₂ hpc => ?_⟩
  obtain ⟨m₃, hrun₃, h₃⟩ := hback m₂ h₂ hpc
  have hgo : f.goesOn (m₂.x (.ofNat 0)) = ((m₂.x (.ofNat 0)).setWidth 32 == (0 : Word)) := by
    simp only [Fixup.goesOn, hk]
  have hleave : f.leavesFor (m₂.x (.ofNat 0)) = f.pc := by
    simp only [Fixup.leavesFor, hk]
  refine ⟨m₃, hrun₃, h₃, ?_, fun hne => ?_⟩
  · rw [h₃.goesOn, hgo, beq_iff_eq]
  · rw [← hleave]
    exact h₃.leaves (hgo.trans (beq_eq_false_iff_ne.mpr hne))

/-- A loop of one instruction goes on after the answer 2 ^ 32, which is not zero. -/
theorem loopsAsk_loop : ∃ (c : Compiled) (m₁ m₂ m₃ : Host.State),
    compile lower {} DispatchTable.empty loopTrace = .ok c ∧
    Leads (instrAt? c.code) (restingState.goto 68) m₁ ∧
    m₂ = (m₁.set (.ofNat 0) 0x100000000).skip 1 ∧ Leads (instrAt? c.code) m₂ m₃ ∧ m₃.pc = 69 := by
  obtain ⟨c, hc⟩ := compile_loopTrace
  obtain ⟨s, hs⟩ := loopsAsk hc
  obtain ⟨p, s', hb⟩ := compile_ok hc
  have hbody := hs.body.symm.trans (hb.setting ▸ hb.body)
  cases hbody
  have hmem : ⟨.syncPoint, .none, 68, 0x1000, 0x1004, 0x1008⟩ ∈ s.fixups.toList := by
    rw [fixups_loopTrace hb]
    exact List.mem_cons_self
  obtain ⟨m₁, hrun, -, hback⟩ := hs.decides _ hmem rfl _ (restingState.goto 68) _ (Nat.le_refl _) rfl
    (restingState_apart hb.spillBytes_le) (carries_restingState s.regs 68)
  have hconforms :
      Conforms (c.stats.spillBytes + 16) m₁ ((m₁.set (.ofNat 0) 0x100000000).skip 1) := by
    refine ⟨fun q hq _ => State.x_set_of_ne m₁ (.ofNat 0) q _ (Gpr.ne_of_index ?_), fun a _ => ?_⟩
    · rw [show (Host.Gpr.ofNat 0).index = 0 from rfl]
      omega
    · exact congrFun (State.mem_set m₁ (.ofNat 0) 0x100000000) a
  obtain ⟨m₃, hrun₃, -, hpc, -⟩ := hback _ hconforms (congrArg (· + 1) (State.pc_set ..))
  refine ⟨c, m₁, _, m₃, hc, hrun, rfl, hrun₃, hpc.mpr ?_⟩
  rw [show ((m₁.set (.ofNat 0) 0x100000000).skip 1).x (.ofNat 0) = 0x100000000 from
    State.x_set_self m₁ (.ofNat 0) 0x100000000 (by decide)]
  decide

end Dynarec
