import Dynarec.Proofs.Resolve.Listing

/-! # Running the resolution of fixups

Resolving a fixup writes over its placeholder and extends the code, as its listing says. The
registers that a fixup names are in use already, so the register use stays what it is. -/

namespace Dynarec.Emit.Emission

theorem size_write (s : Emission) (k : Nat) (i : Host.Instr) :
    (s.write k i).code.size = s.code.size := Array.size_setIfInBounds

/-- Words written in front do not change what is appended. -/
theorem write_extend {s : Emission} {k : Nat} (h : k < s.code.size) (i : Host.Instr)
    (xs : List Item) : (s.extend xs).write k i = (s.write k i).extend xs := by
  have hcode : (s.code ++ (xs.map Item.word).toArray).setIfInBounds k i.encode =
      s.code.setIfInBounds k i.encode ++ (xs.map Item.word).toArray := by
    apply Array.ext'
    simp only [Array.toList_setIfInBounds, Array.toList_append]
    rw [List.set_append_left _ _ (by rw [Array.length_toList]; exact h)]
  simp only [write, extend, hcode, Array.size_setIfInBounds]

end Dynarec.Emit.Emission

namespace Dynarec.Resolve

open Dynarec.Emit Dynarec.Emit.Emission

variable {e : Setting} {s : Emission} {site : Nat}

/-! ### Branches -/

theorem branchTo_yields (source target : Nat) :
    Yields (branchTo source target) e s (Host.fits26 (displacement source target) = true)
      (.b (displacement source target)) s := by
  have hrun : branchTo source target e s =
      if Host.fits26 (displacement source target) = true then .ok (.b (displacement source target)) s
      else .error (.error (.branchOutOfRange source target (displacement source target))) s := by
    unfold branchTo
    simp only [run_ite, run_pure, run_fail]
  exact .of_ite hrun

/-- A placeholder is pointed at what was appended behind the code. -/
theorem pointAt_yields (h : site < s.code.size) (xs : List Item) :
    Yields (pointAt site s.code.size) e (s.extend xs)
      (Host.fits26 (displacement site s.code.size) = true) ()
      ((s.write site (.b (displacement site s.code.size))).extend xs) := by
  rw [← write_extend h]
  exact (branchTo_yields site s.code.size).before
    (writeInstr_run rfl e (by rw [size_extend]; omega))

theorem branchBack_yields (site : Nat) :
    Yields (branchBack site) e s
      (Host.fits26 (displacement s.code.size (site + 1)) = true) ()
      (s.extend [.op (.b (displacement s.code.size (site + 1)))]) := by
  refine Yields.after (ip_run e s) ?_
  exact (branchTo_yields _ _).before
    (asm_run (show Encodable [.b (displacement s.code.size (site + 1))] from rfl) e s)

/-- The state behind one resolved fixup. -/
def settled (s : Emission) (site : Nat) (r : Resolved) : Emission :=
  (s.write site r.patch).extend r.tail

theorem trampoline_yields (f : Fixup) (h : f.site < s.code.size) (t : Word) :
    Yields (trampoline f t) e s (trampolined e f.site s.code.size t).fits .trampoline
      (settled s f.site (trampolined e f.site s.code.size t)) := by
  refine Yields.after (ip_run e s) ?_
  refine (emitExit_yields t).bind ?_
  exact (pointAt_yields h (exitItems e t)).before rfl

/-- A branch to the next word, which is not the last of the code, becomes a word without
effect. -/
theorem elide_run (h : site + 1 < s.code.size) : elide site e s = .ok () (s.write site .nop) := by
  have hne : ¬ site + 1 = s.code.size := by omega
  simp only [elide, run_bind, ip_run, hne, if_false]
  exact writeInstr_run rfl e (by omega)

theorem targetIndex?_run (t : Word) : targetIndex? t e s = .ok s.targets[t]? s := rfl

theorem directBranch_yields (f : Fixup) (h : f.site < s.code.size) (t : Word)
    (ht : ∀ k, s.targets[t]? = some k → k < s.code.size) :
    let r := directed e (fun a => s.targets[a]?) f.site s.code.size t
    Yields (directBranch f t) e s r.fits r.how (settled s f.site r) := by
  unfold directed directBranch
  dsimp only
  refine Yields.after (targetIndex?_run t) ?_
  cases hi : s.targets[t]? with
  | none => exact trampoline_yields f h t
  | some index =>
    have hlt := ht index hi
    simp only
    by_cases h1 : displacement f.site index = 1
    · have hnext : f.site + 1 < s.code.size := by
        unfold displacement at h1
        omega
      simp only [h1, beq_self_eq_true, if_true]
      refine Yields.after (elide_run hnext) (Yields.of_run ?_)
      exact congrArg (EStateM.Result.ok _) (extend_nil _).symm
    · have hne : (displacement f.site index == 1) = false := beq_eq_false_iff_ne.mpr h1
      simp only [h1, hne, Bool.false_eq_true, if_false]
      by_cases hf : Host.fits26 (displacement f.site index) = true
      · simp only [hf, if_true]
        refine Yields.after (writeInstr_run rfl e h) (Yields.of_run ?_)
        exact congrArg (EStateM.Result.ok _) (extend_nil _).symm
      · simp only [hf, Bool.false_eq_true, if_false]
        exact trampoline_yields f h t

theorem longBranch_yields (f : Fixup) (h : f.site < s.code.size) (cond : Cond) (t : Word)
    (index : Option Nat) :
    let r := longDirected e f.site s.code.size cond t index
    Yields (longBranch f cond t index) e s r.fits r.how (settled s f.site r) := by
  unfold longDirected longBranch
  dsimp only
  refine Yields.after (ip_run e s) ?_
  refine Yields.after (asm_run (show Encodable [.bCond cond 2] from rfl) e s) ?_
  refine (branchTo_yields (s.code.size + 1) (f.site + 1)).bind ?_
  refine Yields.after (asm_run (encodable_cons.mpr ⟨rfl, encodable_nil⟩) e _) ?_
  rw [extend_extend]
  have hnear : (index.map (displacement (s.code.size + 2))).filter Host.fits26 =
      nearBranch s.code.size index := rfl
  rw [hnear]
  -- Behind the two branches comes the rest of the tail, and then the placeholder is pointed at it.
  have hlast : ∀ xs : List Item, Yields (pointAt f.site s.code.size >>= fun _ =>
      pure (Resolution.longBranch (nearBranch s.code.size index).isNone)) e (s.extend xs)
      (Host.fits26 (displacement f.site s.code.size) = true)
      (.longBranch (nearBranch s.code.size index).isNone)
      ((s.write f.site (.b (displacement f.site s.code.size))).extend xs) := by
    intro xs
    exact (pointAt_yields h xs).before rfl
  cases hn : nearBranch s.code.size index with
  | some disp =>
    rw [hn] at hlast
    simp only [reduceCtorEq, false_implies, true_and]
    refine Yields.after (asm_run (show Encodable [.b disp] from rfl) e _) ?_
    rw [extend_extend]
    exact hlast _
  | none =>
    rw [hn] at hlast
    simp only [true_implies]
    refine (emitExit_yields t).bind ?_
    rw [extend_extend]
    exact hlast _

theorem condBranch_yields (f : Fixup) (h : f.site < s.code.size) (cond : Cond) (t : Word)
    (ht : ∀ k, s.targets[t]? = some k → k < s.code.size) :
    let r := condDirected e (fun a => s.targets[a]?) f.site s.code.size cond t
    Yields (condBranch f cond t) e s r.fits r.how (settled s f.site r) := by
  unfold condDirected condBranch
  dsimp only
  refine Yields.after (targetIndex?_run t) ?_
  cases hi : s.targets[t]? with
  | some index =>
    have hlt := ht index hi
    simp only
    by_cases h1 : displacement f.site index = 1
    · have hnext : f.site + 1 < s.code.size := by
        unfold displacement at h1
        omega
      simp only [h1, beq_self_eq_true, if_true]
      refine Yields.after (elide_run hnext) (Yields.of_run ?_)
      exact congrArg (EStateM.Result.ok _) (extend_nil _).symm
    · have hne : (displacement f.site index == 1) = false := beq_eq_false_iff_ne.mpr h1
      simp only [h1, hne, Bool.false_eq_true, if_false]
      by_cases hf : Host.fits19 (displacement f.site index) = true
      · simp only [hf, if_true]
        refine Yields.after (writeInstr_run rfl e h) (Yields.of_run ?_)
        exact congrArg (EStateM.Result.ok _) (extend_nil _).symm
      · simp only [hf, Bool.false_eq_true, if_false]
        exact longBranch_yields f h cond t (some index)
  | none =>
    simp only
    refine Yields.after (ip_run e s) ?_
    by_cases hf : Host.fits19 (displacement f.site s.code.size) = true
    · simp only [hf, if_true]
      refine (emitExit_yields t).before ?_
      refine (bind_run_ok (writeInstr_run rfl e (by rw [size_extend]; omega))).trans ?_
      rw [write_extend h]
      rfl
    · simp only [hf, Bool.false_eq_true, if_false]
      exact longBranch_yields f h cond t none

/-! ### Sequences out of line -/

theorem outOfLine_yields {p : Prop} {m : Emit Unit} {xs : List Item} (f : Fixup)
    (h : f.site < s.code.size) (hm : Yields m e s p () (s.extend xs)) :
    Yields (outOfLine f m) e s
      (p ∧ Host.fits26 (displacement f.site s.code.size) = true) .stub
      ((s.write f.site (.b (displacement f.site s.code.size))).extend xs) := by
  refine Yields.after (ip_run e s) (hm.bind ?_)
  exact (pointAt_yields h xs).before rfl

theorem leaving_yields {m : Emit Unit} {xs : List Item} (f : Fixup) (h : f.site < s.code.size)
    (hm : m e s = .ok () (s.extend xs)) :
    Yields (outOfLine f m) e s (leaving f.site s.code.size xs).fits .stub
      (settled s f.site (leaving f.site s.code.size xs)) :=
  (outOfLine_yields f h (Yields.of_run hm)).congr (and_iff_right trivial)

theorem returning_yields {m n : Emit Unit} {p : Prop} {xs : List Item} (f : Fixup)
    (h : f.site < s.code.size) (heq : n e s = (m >>= fun _ => branchBack f.site) e s)
    (hm : Yields m e s p () (s.extend xs)) :
    Yields (outOfLine f n) e s
      ((returning f.site s.code.size xs).when p).fits .stub
      (settled s f.site (returning f.site s.code.size xs)) := by
  have hback := branchBack_yields (e := e) (s := s.extend xs) f.site
  rw [extend_extend, size_extend] at hback
  refine (outOfLine_yields f h (Yields.of_eq heq (hm.bind hback))).congr ?_
  exact ⟨fun ⟨⟨hp, hb⟩, hs⟩ => ⟨hp, hs, hb⟩, fun ⟨hp, hs, hb⟩ => ⟨⟨hp, hb⟩, hs⟩⟩

theorem leaveItems_run :
    (loadDispatchTarget none >>= fun _ => registerExit .always >>= fun _ => pure ()) e s =
      .ok () (s.extend (leaveItems e)) := by
  refine (bind_run_ok loadDispatchTarget_none).trans ?_
  refine (bind_run_ok (registerExit_run always_ne_cond)).trans ?_
  rw [extend_extend]
  rfl

theorem nonzero_ne_cond : ExitCondition.nonzero .scratch ≠ .cond .al := nofun

theorem leaveNonzeroItems_run :
    (loadDispatchTarget none >>= fun _ => registerExit (.nonzero .scratch) >>= fun _ => pure ()) e s =
      .ok () (s.extend (leaveNonzeroItems e)) := by
  refine (bind_run_ok loadDispatchTarget_none).trans ?_
  refine (bind_run_ok (registerExit_run nonzero_ne_cond)).trans ?_
  rw [extend_extend, leaveNonzeroItems, ops_append, List.append_assoc]
  rfl

theorem exitUnlessContinuation_run (expected : Word) :
    exitUnlessContinuation expected e s = .ok () (s.extend (continuationItems e expected)) := by
  unfold exitUnlessContinuation continuationItems
  refine (bind_run_ok (asm_run (by rfl) e _)).trans ?_
  refine (bind_run_ok (asm_run (encodable_loadWord _ _) e _)).trans ?_
  refine (bind_run_ok (asm_run (by rfl) e _)).trans ?_
  refine leaveNonzeroItems_run.trans ?_
  simp only [extend_extend, ← ops_append]

/-- Every argument list of a sequence fits the argument registers. -/
theorem argsFit_contextArgs : ArgsFit contextArgs := by
  refine ⟨by decide, fun x hx => ?_⟩
  simp only [contextArgs, List.mem_cons, CallArg.reg.injEq, List.not_mem_nil, or_false] at hx
  rcases hx with rfl | rfl <;> decide

theorem argsFit_context (values : List DWord) (h : values.length < Host.maxCallArgs) :
    ArgsFit (.reg .context :: values.map .imm) := by
  refine ⟨by rw [List.length_cons, List.length_map]; omega, fun x hx => ?_⟩
  rcases List.mem_cons.mp hx with heq | hx
  · cases heq
    decide
  · obtain ⟨v, -, hv⟩ := List.mem_map.mp hx
    cases hv

theorem index_pinned_le {r : Guest.Gpr} (h : r.isPc = false) :
    Host.maxCallArgs ≤ (Host.pinned r).index := by
  obtain ⟨c⟩ := r
  revert c
  decide

theorem argsFit_tableArgs (pcValue : Word) (rn rm : Guest.Gpr) (halfword : Bool) :
    ArgsFit (tableArgs pcValue rn rm halfword) := by
  have harg : ∀ (r : Guest.Gpr) (x : Host.Gpr), .reg x = argOf r pcValue →
      Host.maxCallArgs ≤ x.index := by
    intro r x hx
    unfold argOf at hx
    cases hr : r.isPc with
    | true =>
      rw [hr] at hx
      cases hx
    | false =>
      rw [hr] at hx
      cases hx
      exact index_pinned_le hr
  refine ⟨by simp only [tableArgs, List.length_cons, List.length_nil]; decide, fun x hx => ?_⟩
  simp only [tableArgs, List.mem_cons, reduceCtorEq, List.not_mem_nil, or_false,
    CallArg.reg.injEq] at hx
  rcases hx with rfl | hx | hx
  · decide
  · exact harg rn x hx
  · exact harg rm x hx

theorem callStub_yields (f : Fixup) (target : Option Word) :
    Yields (do
      if let some t := target then writeDispatchAddress t
      loadDispatchTarget target
      hostCall .full (.register .dispatch) contextArgs storeAnswer
      exitUnlessContinuation f.nextPc) e s (e.lookup target ≠ .unaddressable) ()
      (s.extend (callItems e s.regs f.nextPc target)) := by
  have hload : ∀ t : Emission, Yields (loadDispatchTarget target) e t
      (e.lookup target ≠ .unaddressable) () (t.extend (ops (dispatchOps e target))) := by
    intro t
    have hrun := loadDispatchTarget_run (e := e) (s := t) target
    rw [← ite_not] at hrun
    exact .of_ite hrun
  have hcall : ∀ t : Emission, hostCall .full (.register .dispatch) contextArgs storeAnswer e t =
      .ok () (t.extend (ops (hostCallOps e.shape t.regs .full (.register .dispatch) contextArgs
        answerOps))) := by
    intro t
    exact hostCall_run .full argsFit_contextArgs
      (fun x hx => by cases hx; decide) (show Encodable answerOps from rfl)
  have hrest : ∀ xs : List Item, Yields (loadDispatchTarget target >>= fun _ =>
      hostCall .full (.register .dispatch) contextArgs storeAnswer >>= fun _ =>
      exitUnlessContinuation f.nextPc) e (s.extend xs) (e.lookup target ≠ .unaddressable) ()
      (s.extend (xs ++ (ops (dispatchOps e target ++ hostCallOps e.shape s.regs .full
        (.register .dispatch) contextArgs answerOps) ++ continuationItems e f.nextPc))) := by
    intro xs
    refine (hload _).before ((bind_run_ok (hcall _)).trans ?_)
    refine (exitUnlessContinuation_run f.nextPc).trans ?_
    simp only [extend_extend, ops_append, List.append_assoc, regs_extend]
  cases target with
  | none =>
    have h := hrest []
    rw [extend_nil] at h
    exact h
  | some t =>
    refine Yields.after (writeDispatchAddress_run t) ?_
    have h := hrest (ops (addressOps t))
    simp only [callItems, Option.elim_some, ops_append, List.append_assoc] at h ⊢
    exact h

/-- A helper's address is no argument register. -/
theorem helper_free (address : DWord) (n : Nat) :
    ∀ x, Callee.helper address = .register x → n ≤ x.index := nofun

theorem trapStub_run {helper : DWord} {args : List CallArg} (hargs : ArgsFit args)
    (nextPc : Word) :
    (hostCall .skipContext (.helper helper) args storeAnswer >>= fun _ =>
      exitUnlessContinuation nextPc) e s =
      .ok () (s.extend (trapItems e s.regs nextPc helper args)) := by
  have hcall : hostCall .skipContext (.helper helper) args storeAnswer e s =
      .ok () (s.extend (ops (hostCallOps e.shape s.regs .skipContext (.helper helper) args
        answerOps))) :=
    hostCall_run .skipContext hargs (helper_free _ _) (show Encodable answerOps from rfl)
  refine (bind_run_ok hcall).trans ((exitUnlessContinuation_run nextPc).trans ?_)
  rw [extend_extend]
  rfl

theorem argsFit_context_only : ArgsFit [.reg .context] := argsFit_context [] (by decide)

theorem syncPointStub_run (f : Fixup) :
    (hostCall .full (.helper e.config.helpers.syncCheck) [.reg .context]
        (asm [.mov .x .dispatch (.ofNat 0)]) >>= fun _ =>
      writeDispatchAddress f.pc >>= fun _ => asm [.mov .w .scratch .dispatch] >>= fun _ =>
      loadDispatchTarget none >>= fun _ => registerExit (.nonzero .scratch) >>= fun _ =>
      pure ()) e s =
      .ok () (s.extend (syncPointItems e s.regs f.pc)) := by
  refine (bind_run_ok (hostCall_run .full argsFit_context_only (helper_free _ _) (by rfl))).trans ?_
  refine (bind_run_ok (writeDispatchAddress_run _)).trans ?_
  refine (bind_run_ok (asm_run (by rfl) e _)).trans ?_
  refine leaveNonzeroItems_run.trans ?_
  simp only [extend_extend, ← ops_append, syncPointItems]

theorem timerReadStub_run {rt rt2 : Guest.Gpr} :
    hostCall .skipContext (.helper e.config.helpers.timerRead) [.reg .context] (asm [
        .str .w (.ofNat 0) .context (Record.gpr rt),
        .lsrX .scratch (.ofNat 0) 32,
        .str .w .scratch .context (Record.gpr rt2)]) e s =
      .ok () (s.extend (timerReadItems e s.regs rt rt2)) := by
  refine hostCall_run .skipContext argsFit_context_only (helper_free _ _) ?_
  exact encodable_cons.mpr ⟨offsetFits_gpr rt, encodable_cons.mpr ⟨rfl,
    encodable_cons.mpr ⟨offsetFits_gpr rt2, encodable_nil⟩⟩⟩

/-- The registers that a fixup names are in use. -/
def Pinned (u : RegisterUse) (f : Fixup) : Prop :=
  ∀ r ∈ f.target.regs, r.isPc = false → u.Holds r

theorem pinGpr_of_holds {r : Guest.Gpr} (hr : r.isPc = false) (h : s.regs.Holds r) :
    pinGpr r e s = .ok (Host.pinned r) s := by
  rw [pinGpr_run e s hr, RegisterUse.pin_of_holds h, withRegs_self]

theorem pinGpr_pc {r : Guest.Gpr} (hr : r.isPc = true) :
    pinGpr r e s = .error (.error (.unmappedGuestRegister r)) s := by
  simp only [pinGpr, run_bind, run_get, RegisterUse.pinGpr?, Host.pinnedGpr?, hr, if_true,
    Option.map_none, run_fail]

theorem guestArg_run {r : Guest.Gpr} (pcValue : Word) (h : r.isPc = false → s.regs.Holds r) :
    guestArg r pcValue e s = .ok (argOf r pcValue) s := by
  unfold guestArg argOf
  cases hr : r.isPc with
  | true => rfl
  | false =>
    simp only [Bool.false_eq_true, if_false]
    exact (bind_run_ok (pinGpr_of_holds hr (h hr))).trans rfl

theorem tableBranchStub_run (f : Fixup) {rn rm : Guest.Gpr} (halfword : Bool)
    (hn : rn.isPc = false → s.regs.Holds rn) (hm : rm.isPc = false → s.regs.Holds rm) :
    tableBranchStub f rn rm halfword e s =
      .ok () (s.extend (tableBranchItems e s.regs f.pcValue rn rm halfword)) := by
  unfold tableBranchStub
  refine (bind_run_ok (guestArg_run f.pcValue hn)).trans ?_
  refine (bind_run_ok (guestArg_run f.pcValue hm)).trans ?_
  refine (bind_run_ok (run_read e s)).trans ?_
  refine (bind_run_ok (hostCall_run .skipContext (argsFit_tableArgs f.pcValue rn rm halfword)
    (helper_free _ _) (show Encodable answerOps from rfl))).trans ?_
  refine leaveItems_run.trans ?_
  rw [extend_extend]
  rfl

/-! ### One fixup -/

/-- All blocks start inside the code. -/
def TargetsBelow (s : Emission) : Prop :=
  ∀ (t : Word) (k : Nat), s.targets[t]? = some k → k < s.code.size

theorem indirectBranch_yields {f : Fixup} (hk : f.kind = .indirectBranch)
    (h : f.site < s.code.size) (hp : Pinned s.regs f) (ht : TargetsBelow s) :
    let r := resolved e s.regs (fun a => s.targets[a]?) f s.code.size
    Yields (indirectBranch f) e s r.fits r.how (settled s f.site r) := by
  unfold indirectBranch resolved Pinned at *
  rw [hk]
  cases htarget : f.target with
  | none => exact leaving_yields f h leaveItems_run
  | address a => exact Yields.of_error rfl
  | registers q r => exact Yields.of_error rfl
  | register rm =>
    rw [htarget] at hp
    cases hm : rm.isPc with
    | true =>
      simp only [hm, if_true]
      exact directBranch_yields f h f.pcValue (ht f.pcValue)
    | false =>
      simp only [hm, Bool.false_eq_true, if_false]
      refine Yields.after (pinGpr_of_holds hm (hp rm List.mem_cons_self hm)) ?_
      refine leaving_yields f h ?_
      rw [run_discard, emitExitToRegister_run]
      rfl

theorem call_yields {f : Fixup} (h : f.site < s.code.size) (target : Option Word) :
    Yields (outOfLine f (callStub f target)) e s
      ((returning f.site s.code.size (callItems e s.regs f.nextPc target)).when
        (e.lookup target ≠ .unaddressable)).fits .stub
      (settled s f.site (returning f.site s.code.size (callItems e s.regs f.nextPc target))) := by
  refine returning_yields f h ?_ (callStub_yields f target)
  unfold callStub
  cases target <;> simp only [bind_assoc]

theorem trap_yields {f : Fixup} (h : f.site < s.code.size) (helper : DWord) {args : List CallArg}
    (hargs : ArgsFit args) :
    let r := returning f.site s.code.size (trapItems e s.regs f.nextPc helper args)
    Yields (outOfLine f (trapStub f helper args)) e s r.fits .stub (settled s f.site r) := by
  refine (returning_yields f h ?_ (Yields.of_run (trapStub_run hargs f.nextPc))).congr
    (and_iff_right trivial)
  unfold trapStub
  simp only [bind_assoc]

theorem syncPoint_yields {f : Fixup} (h : f.site < s.code.size) :
    let r := returning f.site s.code.size (syncPointItems e s.regs f.pc)
    Yields (outOfLine f (syncPointStub f)) e s r.fits .stub (settled s f.site r) := by
  refine (returning_yields f h ?_ (Yields.of_run (syncPointStub_run f))).congr
    (and_iff_right trivial)
  unfold syncPointStub
  refine (bind_run_ok (run_read e s)).trans ?_
  simp only [bind_assoc, pure_bind]

theorem timerRead_yields {f : Fixup} (h : f.site < s.code.size) {rt rt2 : Guest.Gpr}
    (ht : rt.isPc = false → s.regs.Holds rt) (ht2 : rt2.isPc = false → s.regs.Holds rt2) :
    let r := (returning f.site s.code.size (timerReadItems e s.regs rt rt2)).when
      (rt.isPc = false ∧ rt2.isPc = false)
    Yields (outOfLine f (timerReadStub f rt rt2)) e s r.fits .stub (settled s f.site r) := by
  by_cases hpc : rt.isPc = false ∧ rt2.isPc = false
  · refine (returning_yields f h ?_
      (Yields.of_run (timerReadStub_run (e := e) (s := s)))).congr ?_
    · unfold timerReadStub
      refine (bind_run_ok (pinGpr_of_holds hpc.1 (ht hpc.1))).trans ?_
      refine (bind_run_ok (pinGpr_of_holds hpc.2 (ht2 hpc.2))).trans ?_
      exact bind_run_ok (run_read e s)
    · exact and_congr_left fun _ => iff_of_true trivial hpc
  · have herr : ∃ err, timerReadStub f rt rt2 e s = .error err s := by
      unfold timerReadStub
      cases h1 : rt.isPc with
      | true => exact ⟨_, bind_run_error (pinGpr_pc h1)⟩
      | false =>
        cases h2 : rt2.isPc with
        | true =>
          exact ⟨_, (bind_run_ok (pinGpr_of_holds h1 (ht h1))).trans (bind_run_error (pinGpr_pc h2))⟩
        | false => exact absurd ⟨h1, h2⟩ hpc
    obtain ⟨err, herr⟩ := herr
    have hline : outOfLine f (timerReadStub f rt rt2) e s = .error err s :=
      (bind_run_ok (ip_run e s)).trans (bind_run_error herr)
    exact (Yields.of_error hline).congr (iff_of_false id fun hf => hpc hf.1)

/-- The address of a fixup that has one. -/
theorem requiredAddress_run {f : Fixup} {t : Word} (h : f.target = .address t) :
    requiredAddress f e s = .ok t s := by
  unfold requiredAddress
  rw [h]
  rfl

theorem requiredAddress_fails {f : Fixup} (h : f.target.address? = none) :
    requiredAddress f e s = .error (.error (.missingFixupTarget f.kind.name f.site)) s := by
  unfold requiredAddress
  rw [h]
  rfl

/-- Resolving a fixup does what its listing says. -/
theorem one_yields (f : Fixup) (h : f.site < s.code.size) (hp : Pinned s.regs f)
    (ht : TargetsBelow s) :
    let r := resolved e s.regs (fun a => s.targets[a]?) f s.code.size
    Yields (one f) e s r.fits r.how (settled s f.site r) := by
  unfold one
  refine Yields.after (run_read e s) ?_
  cases hk : f.kind with
  | indirectBranch => exact indirectBranch_yields hk h hp ht
  | indirectCall =>
    unfold resolved
    rw [hk]
    exact (call_yields h none).congr (and_iff_right nofun)
  | syncPoint =>
    unfold resolved
    rw [hk]
    exact syncPoint_yields h
  | softwareInterrupt imm =>
    unfold resolved
    rw [hk]
    exact trap_yields h _ (argsFit_context [imm.setWidth 64, f.nextPc.setWidth 64]
      (show 2 < 7 by omega))
  | exception kind imm =>
    unfold resolved
    rw [hk]
    exact trap_yields h _
      (argsFit_context [kind.number, f.pc.setWidth 64, imm.setWidth 64] (show 3 < 7 by omega))
  | branch =>
    unfold resolved
    rw [hk]
    cases htarget : f.target with
    | address t =>
      exact Yields.after (requiredAddress_run htarget) (directBranch_yields f h t (ht t))
    | _ => exact Yields.of_error (bind_run_error (requiredAddress_fails (by rw [htarget]; rfl)))
  | condBranch cond =>
    unfold resolved
    rw [hk]
    cases htarget : f.target with
    | address t =>
      exact Yields.after (requiredAddress_run htarget) (condBranch_yields f h cond t (ht t))
    | _ => exact Yields.of_error (bind_run_error (requiredAddress_fails (by rw [htarget]; rfl)))
  | call =>
    unfold resolved
    rw [hk]
    cases htarget : f.target with
    | address t => exact Yields.after (requiredAddress_run htarget) (call_yields h (some t))
    | _ => exact Yields.of_error (bind_run_error (requiredAddress_fails (by rw [htarget]; rfl)))
  | tableBranch halfword =>
    unfold resolved Pinned at *
    rw [hk]
    cases htarget : f.target with
    | registers rn rm =>
      rw [htarget] at hp
      refine leaving_yields f h (tableBranchStub_run f halfword ?_ ?_)
      · exact hp rn List.mem_cons_self
      · exact hp rm (List.mem_cons_of_mem _ List.mem_cons_self)
    | _ => exact Yields.of_error rfl
  | timerRead =>
    unfold resolved Pinned at *
    rw [hk]
    cases htarget : f.target with
    | registers rt rt2 =>
      rw [htarget] at hp
      refine timerRead_yields h ?_ ?_
      · exact hp rt List.mem_cons_self
      · exact hp rt2 (List.mem_cons_of_mem _ List.mem_cons_self)
    | _ => exact Yields.of_error rfl

/-! ### All fixups -/

/-- The state with the words between `before` and `after` replaced by items that are resolved,
and with their sequences appended. -/
def replaced (s : Emission) (before : List Word) (ps : List (Item × List Item))
    (after : List Word) : Emission :=
  { s with code := (before ++ (itemsOf ps).map Item.word ++ after).toArray }.extend (tailsOf ps)

theorem replaced_nil {before after : List Word} (h : s.code.toList = before ++ after) :
    replaced s before [] after = s := by
  simp only [replaced, itemsOf, tailsOf, List.map_nil, List.append_nil, List.flatMap_nil,
    extend_nil, ← h, Array.toArray_toList]

theorem replaced_kept (x : Item) (before after : List Word) (ps : List (Item × List Item)) :
    replaced s (before ++ [x.word]) ps after = replaced s before ((x, []) :: ps) after := by
  simp only [replaced, itemsOf, tailsOf, List.map_cons, List.flatMap_cons, List.nil_append,
    List.append_assoc, List.cons_append]

theorem code_settled (r : Resolved) {before rest : List Word} {w : Word}
    (h : s.code.toList = before ++ w :: rest) :
    (settled s before.length r).code.toList =
      before ++ r.patch.encode :: rest ++ r.tail.map Item.word := by
  simp only [settled, Emission.extend, Emission.write, Array.toList_append,
    Array.toList_setIfInBounds, h, List.set_append_right _ _ (Nat.le_refl _), Nat.sub_self,
    List.set_cons_zero]

/-- Resolving one fixup and then the rest is resolving them all. -/
theorem replaced_settled (r : Resolved) {before after : List Word} {w : Word} {xs : List Item}
    (h : s.code.toList = before ++ w :: (xs.map Item.word ++ after))
    {ps : List (Item × List Item)} (hps : ps.length = xs.length) :
    replaced (settled s before.length r) (before ++ [r.patch.encode]) ps
        (after ++ r.tail.map Item.word) =
      replaced s before ((.op r.patch, r.tail) :: ps) after := by
  have hsize : (before ++ r.patch.encode :: ((itemsOf ps).map Item.word ++ after)).length =
      s.code.size := by
    rw [← Array.length_toList, h]
    simp only [itemsOf, List.length_append, List.length_cons, List.length_map, hps]
  have hword : (Item.op r.patch).word = r.patch.encode := rfl
  have hitems : itemsOf ((.op r.patch, r.tail) :: ps) = .op r.patch :: itemsOf ps := rfl
  have htails : tailsOf ((.op r.patch, r.tail) :: ps) = r.tail ++ tailsOf ps := rfl
  unfold replaced
  rw [hitems, htails, ← extend_extend]
  congr 1
  simp only [settled, Emission.extend, Emission.write, List.map_cons, List.append_assoc,
    List.nil_append, List.cons_append, List.append_toArray, List.size_toArray, hword, hsize,
    Array.size_setIfInBounds]

theorem length_pieces (e : Setting) (u : RegisterUse) (targets : Word → Option Nat) (k n : Nat)
    (xs : List Item) : (pieces e u targets k n xs).length = xs.length := by
  induction xs generalizing k n with
  | nil => rfl
  | cons x xs ih => simp only [pieces, List.length_cons, ih]

/-- Only a placeholder has a fixup, and it stands where the fixup says. -/
theorem fixup?_eq_some {x : Item} {k : Nat} {f : Fixup} (h : x.fixup? k = some f) :
    f.site = k ∧ x.word = f.kind.placeholder.encode := by
  cases x with
  | hole kind target c =>
    cases h
    exact ⟨rfl, rfl⟩
  | op i => cases h
  | exit c => cases h

theorem each_yields {before after : List Word} {xs : List Item}
    (h : s.code.toList = before ++ xs.map Item.word ++ after) (ht : TargetsBelow s)
    (hp : ∀ f ∈ fixupsFrom before.length xs, Pinned s.regs f) (tally : Tally) :
    Yields (each tally (fixupsFrom before.length xs)) e s
      (ResolveFits e s.regs (fun a => s.targets[a]?) before.length s.code.size xs)
      (tallied e s.regs (fun a => s.targets[a]?) before.length s.code.size tally xs)
      (replaced s before
        (pieces e s.regs (fun a => s.targets[a]?) before.length s.code.size xs) after) := by
  induction xs generalizing s before after tally with
  | nil =>
    rw [List.map_nil, List.append_nil] at h
    refine Yields.of_run ?_
    simp only [fixupsFrom, each, run_pure, pieces, tallied, replaced_nil h]
  | cons x xs ih =>
    rw [List.map_cons, List.append_assoc, List.cons_append] at h
    cases hx : x.fixup? before.length with
    | none =>
      have hlen : before.length + 1 = (before ++ [x.word]).length := by
        rw [List.length_append, List.length_singleton]
      have hword : s.code.toList = (before ++ [x.word]) ++ xs.map Item.word ++ after := by
        rw [h, List.append_assoc, List.append_assoc, List.singleton_append]
      have hfix : fixupsFrom before.length (x :: xs) = fixupsFrom (before ++ [x.word]).length xs := by
        rw [fixupsFrom, hx, hlen]
        rfl
      have hpiece : piece e s.regs (fun a => s.targets[a]?) before.length s.code.size x = (x, []) := by
        simp only [piece, hx]
      rw [hfix] at hp ⊢
      have hy := ih hword ht hp tally
      simp only [pieces, hpiece, tallied, hx, List.length_nil, Nat.add_zero, hlen, ← replaced_kept]
      refine hy.congr ?_
      simp only [ResolveFits, hx, hpiece, List.length_nil, Nat.add_zero, hlen, reduceCtorEq,
        false_implies, implies_true, true_and]
    | some f =>
      obtain ⟨hsite, hword⟩ := fixup?_eq_some hx
      have hfix : fixupsFrom before.length (x :: xs) = f :: fixupsFrom (before.length + 1) xs := by
        rw [fixupsFrom, hx]
        rfl
      rw [hfix] at hp ⊢
      let r := resolved e s.regs (fun a => s.targets[a]?) f s.code.size
      have hpiece : piece e s.regs (fun a => s.targets[a]?) before.length s.code.size x =
          (.op r.patch, r.tail) := by
        simp only [piece, hx, r]
      have hlt : f.site < s.code.size := by
        rw [hsite, ← Array.length_toList, h, List.length_append, List.length_cons]
        omega
      have hread : s.code[f.site]? = some f.kind.placeholder.encode := by
        rw [hsite, ← Array.getElem?_toList, h, List.getElem?_append_right (Nat.le_refl _),
          Nat.sub_self, List.getElem?_cons_zero, hword]
      have hone := one_yields (e := e) f hlt (hp f List.mem_cons_self) ht
      rw [hsite] at hone
      -- What is left is a state of the same shape, one item further on.
      have hlen : before.length + 1 = (before ++ [r.patch.encode]).length := by
        rw [List.length_append, List.length_singleton]
      have hsettled : (settled s before.length r).code.toList = (before ++ [r.patch.encode]) ++
          xs.map Item.word ++ (after ++ r.tail.map Item.word) := by
        rw [code_settled r h]
        simp only [List.append_assoc, List.nil_append, List.cons_append]
      have hsize : (settled s before.length r).code.size = s.code.size + r.tail.length := by
        rw [settled, size_extend, size_write]
      have htargets : TargetsBelow (settled s before.length r) := by
        intro t k hk
        have := ht t k hk
        omega
      rw [hlen] at hp
      have hy := ih hsettled htargets
        (fun g hg => hp g (List.mem_cons_of_mem _ hg)) (tally.add r.how)
      rw [replaced_settled r h (length_pieces ..)] at hy
      simp only [each, pieces, tallied, ResolveFits, hx, hpiece]
      refine Yields.after (show readWord? f.site e s = .ok s.code[f.site]? s from rfl) ?_
      simp only [hread, ne_eq, not_true_eq_false, if_false]
      rw [hsize, ← hlen] at hy
      refine (hone.bind (f := fun how => each (tally.add how) _) hy).congr ?_
      refine and_congr_left fun _ => ⟨fun hr g hg => ?_, fun hr => hr f rfl⟩
      cases hg
      exact hr

/-- Resolving all fixups of items that are the end of the code. -/
theorem all_yields {before : List Word} {xs : List Item}
    (h : s.code.toList = before ++ xs.map Item.word)
    (hfix : s.fixups.toList = fixupsFrom before.length xs) (ht : TargetsBelow s)
    (hp : ∀ f ∈ fixupsFrom before.length xs, Pinned s.regs f) :
    Yields all e s
      (ResolveFits e s.regs (fun a => s.targets[a]?) before.length s.code.size xs)
      (tallied e s.regs (fun a => s.targets[a]?) before.length s.code.size {} xs)
      (replaced { s with fixups := #[] } before
        (pieces e s.regs (fun a => s.targets[a]?) before.length s.code.size xs) []) := by
  refine Yields.after (show takeFixups e s = .ok s.fixups.toList { s with fixups := #[] } from rfl) ?_
  rw [hfix]
  exact each_yields (s := { s with fixups := #[] }) (by rw [List.append_nil]; exact h) ht hp {}

end Dynarec.Resolve
