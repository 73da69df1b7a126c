import Dynarec.Proofs.Guest.Run
import Dynarec.Proofs.Run.Instr

/-! # Units of plain instructions

A unit whose instructions need no call does what they do one by one. Every run of the host from the
first word of the unit to the jump at its end is matched by a run of the guest, which is found by
induction on the length of the first: the branch to a block of the unit has shortened it. -/

namespace Dynarec.Host

open Dynarec.Emit

/-! ### Runs to the end of a unit -/

section Run

variable {fetch : Nat → Option Instr} {call : State → State → Prop} {s s' t : State} {n : Nat}

/-- No check in a run from `s` finds the execution counter at its last count. -/
def Counted (fetch : Nat → Option Instr) (call : State → State → Prop) (s : State) : Prop :=
  ∀ n t, Run fetch call n s t →
    fetch t.pc = some (.ldr .w .scratch .context Record.execCounter) →
    t.mem.word (t.x .context + BitVec.ofNat 64 Record.execCounter) ≠ 1

theorem Counted.after (h : Counted fetch call s) (hrun : Leads fetch s s') :
    Counted fetch call s' := by
  obtain ⟨k, hk⟩ := hrun
  exact fun n t hn => h (k + n) t (hk.run.trans hn)

theorem Run.eq_of_end {r : Gpr} (h : Run fetch call n s t) (hstop : fetch s.pc = some (.br r)) :
    s = t := by
  cases h with
  | refl => rfl
  | step hstep _ =>
    cases hstep with
    | exec hi hs =>
      rw [hstop] at hi
      cases hi
      cases hs
    | call hi =>
      rw [hstop] at hi
      cases hi

end Run

end Dynarec.Host

namespace Dynarec.Simulation

open Dynarec.Emit Dynarec.Host Dynarec.Compile Dynarec.Resolve

/-- Every run of at most `N` steps from `s` to the end of the unit is matched by a run of at least
`k` of the instructions `is` from `σ`. -/
def Finishes (fetch : Nat → Option Host.Instr) (call : Host.State → Host.State → Prop)
    (is : List Guest.Instr) (Out : Host.State → Guest.State → Prop) (k N : Nat) (s : Host.State)
    (σ : Guest.State) : Prop :=
  Counted fetch call s → ∀ n ≤ N, ∀ t, Run fetch call n s t → fetch t.pc = some (.br .dispatch) →
    ∃ m σ', k ≤ m ∧ Guest.steps is m σ = some σ' ∧ Out t σ'

section Finishes

variable {fetch : Nat → Option Host.Instr} {call : Host.State → Host.State → Prop}
  {is : List Guest.Instr} {Out : Host.State → Guest.State → Prop} {j k N : Nat}
  {s s' : Host.State} {σ σ' : Guest.State}

theorem Finishes.mono (h : Finishes fetch call is Out k N s σ) (hk : j ≤ k) :
    Finishes fetch call is Out j N s σ := by
  intro hcount n hn t hrun hend
  obtain ⟨m, σ', hm, hsteps, hout⟩ := h hcount n hn t hrun hend
  exact ⟨m, σ', Nat.le_trans hk hm, hsteps, hout⟩

/-- A step of the host leaves a shorter run. -/
theorem Finishes.of_advances (h : ∀ N' < N, Finishes fetch call is Out k N' s' σ')
    (hrun : Advances fetch s s') (hsteps : Guest.steps is j σ = some σ') :
    Finishes fetch call is Out (j + k) N s σ := by
  intro hcount n hn t ht hend
  have hcount' := hcount.after hrun.leads
  obtain ⟨a, ha⟩ := hrun
  obtain ⟨b, rfl, hb⟩ := ht.after_execs hend ha
  obtain ⟨m, σ'', hm, hsteps', hout⟩ := h b (by omega) hcount' b (Nat.le_refl b) t hb hend
  refine ⟨j + m, σ'', by omega, ?_, hout⟩
  rw [Guest.steps_add, hsteps]
  exact hsteps'

theorem Finishes.of_leads (h : Finishes fetch call is Out k N s' σ') (hrun : Leads fetch s s')
    (hsteps : Guest.steps is j σ = some σ') : Finishes fetch call is Out (j + k) N s σ := by
  intro hcount n hn t ht hend
  have hcount' := hcount.after hrun
  obtain ⟨a, ha⟩ := hrun
  obtain ⟨b, rfl, hb⟩ := ht.after_execs hend ha
  obtain ⟨m, σ'', hm, hsteps', hout⟩ := h hcount' b (by omega) t hb hend
  refine ⟨j + m, σ'', by omega, ?_, hout⟩
  rw [Guest.steps_add, hsteps]
  exact hsteps'

end Finishes

/-! ### Where control is -/

/-- A unit of plain instructions, which stand one behind the other from `entry` to `z`. -/
structure Plain (p : Plan) (entry z : Word) : Prop where
  chain : Guest.Chain entry p.blocks z
  low : ∀ i ∈ Guest.blockInstrs p.blocks, i.Low
  inUse : ∀ i ∈ Guest.blockInstrs p.blocks, InUse p.use i
  plain : ∀ i ∈ Guest.blockInstrs p.blocks, i.kind.isPlain = true
  body : p.body = partsItems p.setting.config (bodyParts p.blocks) ++
    endItems p.setting z (endsAfter false p.blocks)

/-- The host is about to run the last items `zs` of the body, and the guest the last instructions
`is` before `z`. -/
structure At (p : Plan) (z : Word) (record table : DWord) (base : Host.State) (zs : List Item)
    (is : List Guest.Instr) (s : Host.State) (σ : Guest.State) : Prop where
  items : ∃ ys, p.body = ys ++ zs ∧ s.pc = p.room + ys.length
  sim : Sim p.use record table base s σ
  instrs : ∃ js, Guest.blockInstrs p.blocks = js ++ is
  address : Guest.Consecutive σ.pc is z
  /-- Control comes to the end of the body only where it can pass on. -/
  flow : is = [] → endsAfter false p.blocks = false

section Unit

variable {config : Config} {dispatch : DispatchTable} {tr : Guest.Trace} {c : Compiled} {p : Plan}
  {em : Emission} {call : Host.State → Host.State → Prop} {entry z : Word}
  {record table low : DWord} {s₀ base s : Host.State} {σ₀ σ : Guest.State}

/-- Whether control can pass on behind the blocks is told by their last instruction. -/
theorem endsAfter_eq {bs : List Guest.Block} (h : Guest.Chain entry bs z) {js : List Guest.Instr}
    {i : Guest.Instr} (hi : Guest.blockInstrs bs = js ++ [i]) :
    endsAfter false bs = i.endsFlow := by
  have hne : bs ≠ [] := by
    rintro rfl
    exact absurd hi.symm (List.append_ne_nil_of_right_ne_nil _ (List.cons_ne_nil _ _))
  obtain ⟨pre, b, rfl⟩ := (List.eq_nil_or_concat bs).resolve_left hne
  rw [List.concat_eq_append] at h hi ⊢
  obtain ⟨m, hs⟩ := Guest.Chain.sound h
  obtain ⟨init, j, hj, -⟩ := hs.last
  have hinstrs : Guest.blockInstrs (pre ++ [b]) = Guest.blockInstrs pre ++ init ++ [j] := by
    simp only [Guest.blockInstrs, List.flatMap_append, List.flatMap_singleton, hj,
      List.append_assoc]
  rw [hinstrs] at hi
  obtain ⟨-, hlast⟩ := List.append_inj' hi rfl
  cases hlast
  rw [endsAfter, List.getLast?_concat, Option.map_some, Option.getD_some, blockEnds, hj,
    List.getLast?_concat, Option.map_some, Option.getD_some]

section Place

variable (hp : Plain p entry z) {xs zs : List Item} {i : Guest.Instr} {is js : List Guest.Instr}

theorem At.mem (hat : At p z record table base zs (i :: is) s σ) :
    i ∈ Guest.blockInstrs p.blocks := by
  obtain ⟨js, hjs⟩ := hat.instrs
  rw [hjs]
  exact List.mem_append_right _ List.mem_cons_self

include hp

theorem At.step_eq (hat : At p z record table base zs (i :: is) s σ) :
    Guest.steps (Guest.blockInstrs p.blocks) 1 σ = i.step σ := by
  obtain ⟨js, hjs⟩ := hat.instrs
  have hall : Guest.Consecutive entry (Guest.blockInstrs p.blocks) z := hp.chain.consecutive
  have hlow := hp.low
  rw [hjs] at hall hlow ⊢
  rw [Guest.steps_one, Guest.step_eq hall hlow hat.address.1.symm]

/-- An instruction has been run, and control passes on behind it. -/
theorem At.next (hat : At p z record table base xs (i :: is) s σ) {s' : Host.State}
    {σ' : Guest.State} (hitems : ∃ ys, p.body = ys ++ zs ∧ s'.pc = p.room + ys.length)
    (hsim : Sim p.use record table base s' σ') (haddress : σ'.pc = i.nextPc)
    (hflow : i.endsFlow = false) : At p z record table base zs is s' σ' := by
  obtain ⟨js, hjs⟩ := hat.instrs
  refine ⟨hitems, hsim, ⟨js ++ [i], ?_⟩, haddress ▸ hat.address.2, fun hnil => ?_⟩
  · rw [hjs, List.append_assoc]
    rfl
  · rw [hnil] at hjs
    rw [endsAfter_eq hp.chain hjs, hflow]

/-- Instructions that do not take effect have been passed over. -/
theorem At.skip (hat : At p z record table base xs (is ++ js) s σ)
    (hc : ∀ j ∈ is, j.cond.holds σ.flags = false) {s' : Host.State}
    (hitems : ∃ ys, p.body = ys ++ zs ∧ s'.pc = p.room + ys.length)
    (hsim : Sim p.use record table base s' σ) :
    ∃ σ', Guest.steps (Guest.blockInstrs p.blocks) is.length σ = some σ' ∧
      At p z record table base zs js s' σ' := by
  obtain ⟨done, hdone⟩ := hat.instrs
  have hall : Guest.Consecutive entry (Guest.blockInstrs p.blocks) z := hp.chain.consecutive
  have hlow := hp.low
  obtain ⟨m, hm, hz⟩ := hat.address.of_append
  refine ⟨σ.goto m, ?_, hitems, hsim.goto m, ⟨done ++ is, ?_⟩, hz, fun hnil => ?_⟩
  · rw [hdone] at hall hlow ⊢
    exact Guest.steps_skip hall hlow hm hc
  · rw [hdone, List.append_assoc]
  · rcases List.eq_nil_or_concat is with rfl | ⟨init, i, rfl⟩
    · exact hat.flow hnil
    · -- The last of them has a condition, so it does not end the flow.
      rw [List.concat_eq_append] at hdone hc
      rw [hnil, List.append_nil, ← List.append_assoc] at hdone
      have hi := hc i (List.mem_append_right _ List.mem_cons_self)
      rw [endsAfter_eq hp.chain hdone, Guest.Instr.endsFlow, Guest.Instr.endsFlowUnder]
      cases hal : i.cond.isAlways with
      | false => rfl
      | true =>
        rw [(Cond.isAlways_iff _).mp hal] at hi
        cases hi

/-- Control is at the start of a block. -/
theorem at_start {bs cs : List Guest.Block} (hbs : p.blocks = bs ++ cs) (hne : cs ≠ [])
    (hpc : s.pc = p.room + (partsItems p.setting.config (bodyParts bs)).length)
    (hsim : Sim p.use record table base s σ) (haddress : Guest.Chain σ.pc cs z) :
    At p z record table base (partsItems p.setting.config (bodyParts cs) ++
      endItems p.setting z (endsAfter false p.blocks)) ((bodyParts cs).flatMap Part.instrs) s σ := by
  have hbody := hp.body
  have hparts : bodyParts (bs ++ cs) = bodyParts bs ++ bodyParts cs := List.flatMap_append
  rw [hbs, hparts, partsItems_append, List.append_assoc, ← hbs] at hbody
  rw [instrs_bodyParts]
  refine ⟨⟨_, hbody, hpc⟩, hsim, ⟨Guest.blockInstrs bs, ?_⟩, haddress.consecutive, fun hnil => ?_⟩
  · rw [hbs]
    exact List.flatMap_append
  · obtain ⟨b, cs, rfl⟩ := List.exists_cons_of_ne_nil hne
    have hpos := haddress.nonempty b List.mem_cons_self
    rw [List.flatMap_cons, List.append_eq_nil_iff] at hnil
    rw [← Array.length_toList, hnil.1] at hpos
    cases hpos

end Place

variable (h : Built config dispatch tr c p em)

include h

/-! ### Parts of the body -/

section Parts

variable {ys zs : List Item}

/-- Control comes to the items under a test if it holds, and else behind them. -/
theorem test_leads {cond : Cond} {xs : List Item}
    (hbody : p.body = ys ++ (regionItems cond xs ++ zs)) (hs : s.pc = p.room + ys.length)
    (hfits : RegionFits cond xs) :
    ∃ ys', p.body = ys' ++ ((if cond.holds s.flags then xs else []) ++ zs) ∧
      Leads (instrAt? c.code) s (s.goto (p.room + ys'.length)) := by
  by_cases hplain : cond = .al ∨ xs = []
  · rw [regionItems, if_pos hplain] at hbody
    refine ⟨ys, ?_, ?_⟩
    · rcases hplain with rfl | rfl
      · exact hbody
      · rw [ite_self]
        exact hbody
    · rw [State.goto_self hs]
      exact .refl s
  · obtain ⟨hal, -⟩ := not_or.mp hplain
    let i : Host.Instr := .bCond cond.invert (xs.length + 1)
    have hbody' : p.body = ys ++ (ops [i] ++ (xs ++ zs)) := by
      rw [hbody, regionItems, if_neg hplain]
      rfl
    have hi : instrAt? c.code s.pc = some i := by
      rw [hs]
      exact allFrom_singleton.mp (h.found_ops hbody' fun j hj => by
        rw [List.mem_singleton.mp hj]
        exact hfits hal)
    have hinvert := Cond.holds_invert hal s.flags
    cases hc : cond.holds s.flags with
    | true =>
      refine ⟨ys ++ ops [i], by rw [hbody', List.append_assoc]; rfl, .single hi ?_⟩
      show (if cond.invert.holds s.flags then s.jump (xs.length + 1) else some (s.skip 1)) = _
      rw [hinvert, hc]
      show some (s.goto (s.pc + 1)) = _
      rw [hs, List.length_append, Nat.add_assoc]
      rfl
    | false =>
      refine ⟨ys ++ (ops [i] ++ xs), by rw [hbody']; simp only [List.append_assoc]; rfl,
        .single hi ?_⟩
      have hlen : p.room + (ys ++ (ops [i] ++ xs)).length = s.pc + (xs.length + 1) := by
        rw [hs, List.length_append, List.length_append, length_ops, List.length_singleton]
        omega
      have hdisp : ((xs.length : Int) + 1) = displacement s.pc (s.pc + (xs.length + 1)) := by
        unfold displacement
        omega
      show (if cond.invert.holds s.flags then s.jump (xs.length + 1) else some (s.skip 1)) = _
      rw [hinvert, hc, hlen, hdisp]
      exact State.jump_displacement rfl

theorem found_sync {i : Guest.Instr} (hbody : p.body = ys ++ (syncItems i ++ zs)) :
    Found (instrAt? c.code) (p.room + ys.length) syncOps := by
  rw [syncItems, List.append_assoc] at hbody
  refine h.found_ops hbody fun j hj => ?_
  have hall : syncOps.all (·.isCanonical) = true := by decide
  exact List.all_eq_true.mp hall j hj

/-- A check whose counter is not at its last count is passed. -/
theorem check_leads {i : Guest.Instr} (hbody : p.body = ys ++ (syncItems i ++ zs))
    (hs : s.pc = p.room + ys.length) (hsim : Sim p.use record table base s σ)
    (hcount : s.mem.word (s.x .context + BitVec.ofNat 64 Record.execCounter) ≠ 1) :
    ∃ s', Leads (instrAt? c.code) s s' ∧ s'.pc = p.room + (ys ++ syncItems i).length ∧
      Sim p.use record table base s' σ := by
  have hat := found_sync h hbody
  rw [← hs] at hat
  obtain ⟨hldr, hat⟩ := allFrom_cons.mp hat
  obtain ⟨hsub, hat⟩ := allFrom_cons.mp hat
  obtain ⟨hstr, hat⟩ := allFrom_cons.mp hat
  have hcbnz := (allFrom_cons.mp hat).1
  let w : Word := s.mem.word (s.x .context + BitVec.ofNat 64 Record.execCounter)
  let s₁ := (s.setLow .scratch w).skip 1
  let s₂ := (s₁.setLow .scratch (w - 1)).skip 1
  let s₃ := (s₂.store (record + BitVec.ofNat 64 Record.execCounter) 4 (w - 1)).skip 1
  have hw : (s₁.x .scratch).setWidth 32 = w := State.low_setLow_self s .scratch (by decide) w
  have hlow : s₂.low .w .scratch = w - 1 :=
    State.low_setLow_self s₁ .scratch (by decide) (w - 1)
  have hsim₂ : Sim p.use record table base s₂ σ :=
    (((hsim.setSpareLow (x := .scratch) rfl w).skip 1).setSpareLow (x := .scratch) rfl (w - 1)).skip 1
  have hs₁ : (Host.Instr.ldr .w .scratch .context Record.execCounter).exec s = some s₁ := rfl
  have hs₂ : (Host.Instr.subImm .w .scratch .scratch 1).exec s₁ = some s₂ := by
    show some ((s₁.setBase .scratch (((s₁.x .scratch).setWidth 32 - 1).setWidth 64)).skip 1) = _
    rw [hw]
    rfl
  have hs₃ : (Host.Instr.str .w .scratch .context Record.execCounter).exec s₂ = some s₃ := by
    show some ((s₂.store (s₂.x .context + _) 4 (s₂.low .w .scratch)).skip 1) = _
    rw [hlow, hsim₂.context]
  have hs₄ : (Host.Instr.cbnz .scratch 2).exec s₃ = some (s₃.goto (s₃.pc + 2)) := by
    have hne : s₃.low .w .scratch ≠ 0 := by
      show s₂.low .w .scratch ≠ 0
      rw [hlow]
      intro hzero
      exact hcount (BitVec.sub_eq_iff_eq_add.mp hzero)
    show (if s₃.low .w .scratch = 0 then some (s₃.skip 1) else s₃.jump 2) = _
    rw [if_neg hne, State.jump_two]
  have hpc₁ : s₁.pc = s.pc + 1 := congrArg (· + 1) (State.pc_set s .scratch _)
  have hpc₂ : s₂.pc = s.pc + 1 + 1 :=
    congrArg (· + 1) ((State.pc_set s₁ .scratch _).trans hpc₁)
  have hpc₃ : s₃.pc = s.pc + 1 + 1 + 1 := congrArg (· + 1) hpc₂
  refine ⟨s₃.goto (s₃.pc + 2), ?_, ?_, ?_⟩
  · exact (Leads.single hldr hs₁).trans ((Leads.single (hpc₁ ▸ hsub) hs₂).trans
      ((Leads.single (hpc₂ ▸ hstr) hs₃).trans (.single (hpc₃ ▸ hcbnz) hs₄)))
  · have hlen : (syncItems i).length = 5 := rfl
    show s₃.pc + 2 = _
    rw [hpc₃, hs, List.length_append, hlen]
    omega
  · exact ((hsim₂.storeStatus (Nat.le_of_ble_eq_true rfl) (Nat.le_of_ble_eq_true rfl)
      (w - 1)).skip 1).atPc _

/-- Behind the body control leaves for the address there. -/
theorem end_leads {a : Word} (hbody : p.body = ys ++ (exitItems p.setting a ++ zs))
    (hs : s.pc = p.room + ys.length) (hsim : Sim p.use record table base s σ) :
    ∃ s', Leads (instrAt? c.code) s s' ∧ s'.pc = p.finish ∧ Sim p.use record table base s' σ ∧
      Aimed record s' a := by
  have hfix : fixupsFrom (p.room + ys.length) (exitItems p.setting a) = [] := by
    rw [exitItems, fixupsFrom_append, fixupsFrom_ops]
    rfl
  have hat := h.found_body hbody hfix (reads_exitItems p.setting a)
  have hdeparted := departed_leave p.setting a p.finish s
  obtain ⟨hsim', haim⟩ := sim_departed hsim hdeparted
  exact ⟨_, leads_exit hat hs, rfl, hsim', haim⟩

end Parts

/-! ### The whole unit -/

section Finish

variable (hcalled : Called record table low s₀ σ₀)
  (he : Entered p.frame p.use record table low s₀ σ₀ base)

include hcalled he

/-- At the trailer the guest state is left to the caller. -/
theorem trailer_finishes (hexits : p.exits ≠ []) (hpc : s.pc = p.finish)
    (hsim : Sim p.use record table base s σ) (haim : Aimed record s σ.pc) (N : Nat) :
    Finishes (instrAt? c.code) call (Guest.blockInstrs p.blocks) (Exited record table low s₀) 0 N
      s σ := by
  intro _ n _ t hrun hend
  obtain ⟨t', ht', hout⟩ := trailer_run hcalled.apart hcalled.sp he hsim haim
  have hst := straight_trailerOps p.frame p.use
  have hstands := Plan.stands_trailer h.fits
  rw [Plan.trailer, if_neg hexits, trailer_eq] at hstands
  have hat : Found (instrAt? c.code) s.pc (trailerOps p.frame p.use ++ [.br .dispatch]) := by
    rw [hpc]
    refine h.found hstands fun i hi => ?_
    rcases List.mem_append.mp hi with hi | hi
    · exact canonical_of_straight hst i hi
    · rw [List.mem_singleton.mp hi]
      rfl
  obtain ⟨hops, hbr⟩ := allFrom_append.mp hat
  obtain ⟨hexecs, hpc'⟩ := execs_of_execAll hops hst ht'
  obtain ⟨m, -, hrest⟩ := hrun.after_execs hend hexecs
  obtain rfl := hrest.eq_of_end (hpc' ▸ allFrom_singleton.mp hbr)
  exact ⟨0, σ, Nat.le_refl 0, rfl, hout⟩

variable (hp : Plain p entry z) {N : Nat}
  (hjump : ∀ N' < N, ∀ s σ, p.targets σ.pc = some s.pc → Sim p.use record table base s σ →
    Finishes (instrAt? c.code) call (Guest.blockInstrs p.blocks) (Exited record table low s₀) 0 N'
      s σ)

include hp hjump

/-- Instructions whose common test holds. Only the last of them can change what it was made on. -/
theorem instrs_finish {cond : Cond} {zs : List Item} {is js : List Guest.Instr}
    (hu : Part.Uniform (.run cond is)) (hholds : is ≠ [] → cond.holds σ.flags = true)
    (hrest : ∀ s σ, At p z record table base zs js s σ →
      Finishes (instrAt? c.code) call (Guest.blockInstrs p.blocks) (Exited record table low s₀)
        (min 1 js.length) N s σ)
    (hat : At p z record table base (is.flatMap (instrItems p.setting.config) ++ zs) (is ++ js)
      s σ) :
    Finishes (instrAt? c.code) call (Guest.blockInstrs p.blocks) (Exited record table low s₀)
      (min 1 (is ++ js).length) N s σ := by
  induction is generalizing s σ with
  | nil => exact hrest s σ hat
  | cons i is ih =>
    obtain ⟨hlowered, hset⟩ := hu
    have hi := hat.mem
    have hregular := (hp.low i hi).regular
    obtain ⟨ys, hbody, hpc⟩ := hat.items
    rw [List.flatMap_cons, List.append_assoc] at hbody
    have hcond : i.absorbsCondition = false → i.cond.holds σ.flags = true := by
      intro ha
      have hc := hlowered i List.mem_cons_self
      rw [lowered, ha, if_neg Bool.false_ne_true] at hc
      rw [hc]
      exact hholds (List.cons_ne_nil _ _)
    have hpassed := instr_passed h hbody hpc hat.sim hregular (hp.inUse i hi) (hp.plain i hi) hcond
    have hone : min 1 (i :: is ++ js).length ≤ 1 := Nat.min_le_left _ _
    cases hpassed with
    | @next s' σ' hrun hpc' hstep hsim haddress hflow =>
      have hat' := hat.next hp ⟨_, by rw [hbody, List.append_assoc], hpc'⟩ hsim haddress hflow
      have hu' : Part.Uniform (.run cond is) := by
        refine ⟨fun j hj => hlowered j (List.mem_cons_of_mem _ hj), fun j hj => hset j ?_⟩
        cases is with
        | nil => exact absurd hj List.not_mem_nil
        | cons k is => exact List.mem_cons_of_mem _ hj
      have hflags : is ≠ [] → cond.holds σ'.flags = true := by
        intro hne
        have hmem : i ∈ (i :: is).dropLast := by
          rw [List.dropLast_cons_of_ne_nil hne]
          exact List.mem_cons_self
        rw [Guest.flags_step hregular (hset i hmem) hstep]
        exact hholds (List.cons_ne_nil _ _)
      exact ((ih hu' hflags hat').of_leads hrun ((hat.step_eq hp).trans hstep)).mono
        (Nat.le_trans hone (Nat.le_add_right _ _))
    | block hrun hpc' hstep hsim =>
      exact (Finishes.of_advances (fun N' hN => hjump N' hN _ _ hpc' hsim) hrun
        ((hat.step_eq hp).trans hstep)).mono hone
    | trailer hrun hpc' hexits hstep hsim haim =>
      exact ((trailer_finishes h hcalled he hexits hpc' hsim haim N).of_leads hrun
        ((hat.step_eq hp).trans hstep)).mono hone

/-- Instructions under one test. -/
theorem run_finishes {cond : Cond} {zs : List Item} {is js : List Guest.Instr}
    (hu : Part.Uniform (.run cond is)) (hfits : Part.Fits p.setting.config (.run cond is))
    (hrest : ∀ s σ, At p z record table base zs js s σ →
      Finishes (instrAt? c.code) call (Guest.blockInstrs p.blocks) (Exited record table low s₀)
        (min 1 js.length) N s σ)
    (hat : At p z record table base (Part.items p.setting.config (.run cond is) ++ zs) (is ++ js)
      s σ) :
    Finishes (instrAt? c.code) call (Guest.blockInstrs p.blocks) (Exited record table low s₀)
      (min 1 (is ++ js).length) N s σ := by
  obtain ⟨ys, hbody, hpc⟩ := hat.items
  obtain ⟨ys', hbody', hrun⟩ := test_leads h hbody hpc hfits
  have hcond : cond ≠ .al → ∀ i ∈ is, i.cond = cond := by
    intro hal i hi
    have hc := hu.1 i hi
    unfold lowered at hc
    split at hc
    · exact absurd hc.symm hal
    · exact hc
  -- The test is made on the flags of the guest, unless there is nothing under it.
  have hflags : is ≠ [] → cond.holds s.flags = cond.holds σ.flags := by
    intro hne
    by_cases hal : cond = .al
    · rw [hal]
      rfl
    · obtain ⟨i, is', rfl⟩ := List.exists_cons_of_ne_nil hne
      have hi := hcond hal i List.mem_cons_self
      rw [hat.sim.flags ((hp.inUse i hat.mem).tested (hi ▸ hal))]
  have hsim := hat.sim.atPc (p.room + ys'.length)
  cases hc : cond.holds s.flags with
  | true =>
    rw [hc] at hbody'
    have hat' : At p z record table base (is.flatMap (instrItems p.setting.config) ++ zs) (is ++ js)
        (s.goto (p.room + ys'.length)) σ :=
      ⟨⟨ys', hbody', rfl⟩, hsim, hat.instrs, hat.address, hat.flow⟩
    have hfin := instrs_finish h hcalled he hp hjump hu (fun hne => (hflags hne).symm.trans hc) hrest
      hat'
    exact (hfin.of_leads hrun (j := 0) rfl).mono (Nat.le_of_eq (Nat.zero_add _).symm)
  | false =>
    rw [hc] at hbody'
    have hal : cond ≠ .al := by
      rintro rfl
      cases hc
    have hfails : ∀ i ∈ is, i.cond.holds σ.flags = false := by
      intro i hi
      rw [hcond hal i hi, ← hflags (List.ne_nil_of_mem hi)]
      exact hc
    obtain ⟨σ', hsteps, hat'⟩ := hat.skip hp hfails ⟨ys', hbody', rfl⟩ hsim
    refine ((hrest _ σ' hat').of_leads hrun hsteps).mono ?_
    rw [List.length_append]
    omega

/-- The rest of the body from a part on. -/
theorem parts_finish {ps : List Part} (hu : ∀ q ∈ ps, q.Uniform)
    (hfits : PartsFit p.setting.config ps)
    (hat : At p z record table base
      (partsItems p.setting.config ps ++ endItems p.setting z (endsAfter false p.blocks))
      (ps.flatMap Part.instrs) s σ) :
    Finishes (instrAt? c.code) call (Guest.blockInstrs p.blocks) (Exited record table low s₀)
      (min 1 (ps.flatMap Part.instrs).length) N s σ := by
  induction ps generalizing s σ with
  | nil =>
    obtain ⟨ys, hbody, hpc⟩ := hat.items
    have hz : σ.pc = z := hat.address
    have hend : endItems p.setting z (endsAfter false p.blocks) = exitItems p.setting z ++ [] := by
      rw [hat.flow rfl, List.append_nil]
      rfl
    have hbody : p.body = ys ++ (exitItems p.setting z ++ []) := by
      rw [← hend]
      exact hbody
    obtain ⟨s', hrun, hpc', hsim, haim⟩ := end_leads h hbody hpc hat.sim
    have hexits := exits_ne_nil_of_subset (exitsFrom_exitItems_ne_nil _ p.setting z)
      (exits_body hbody)
    exact (trailer_finishes h hcalled he hexits hpc' hsim (hz ▸ haim) N).of_leads hrun (j := 0) rfl
  | cons q ps ih =>
    obtain ⟨hq, hps⟩ := List.forall_mem_cons.mp hu
    obtain ⟨hfit, hfits⟩ := partsFit_cons.mp hfits
    have hrest := fun s σ => ih (s := s) (σ := σ) hps hfits
    rw [partsItems_cons, List.append_assoc] at hat
    cases q with
    | run cond is => exact run_finishes h hcalled he hp hjump hq hfit hrest hat
    | check i =>
      intro hcount
      obtain ⟨ys, hbody, hpc⟩ := hat.items
      have hldr := (allFrom_cons.mp (found_sync h hbody)).1
      have hcounter := hcount 0 s (.refl s) (hpc ▸ hldr)
      obtain ⟨s', hrun, hpc', hsim⟩ := check_leads h hbody hpc hat.sim hcounter
      have hat' := hrest s' σ
        ⟨⟨_, by rw [hbody, List.append_assoc]; rfl, hpc'⟩, hsim, hat.instrs, hat.address, hat.flow⟩
      exact (hat'.of_leads hrun (j := 0) rfl).mono (Nat.le_of_eq (Nat.zero_add _).symm) hcount

end Finish

end Unit

end Dynarec.Simulation

namespace Dynarec

open Dynarec.Emit Dynarec.Compile Dynarec.Host Dynarec.Simulation

namespace Translated

variable {options : Options} {dispatch : DispatchTable} {img : Guest.Image} {entry : Word}
  {c : Compiled} {t : Guest.Trace} {p : Plan}

section

variable (h : Translated options dispatch img entry c t p)

include h

theorem built : ∃ em, Built options.config dispatch t c p em := by
  obtain ⟨em, hrun, hem⟩ := h.emitted
  have hspelled : p.blocks = Guest.spelledBlocks {} t.blocks.toList := by
    rw [Guest.spelledBlocks_eq_self rfl fun b hb i hi =>
      isIfThen_of_regular (h.collected.regular b hb i hi)]
    exact h.blocks
  exact ⟨em, h.setting, hspelled, h.inUse, h.initial, h.fits, h.blocks ▸ hrun, hem, h.code, h.stats⟩

theorem isPlain (hf : img.finish < wordCount) (hplain : ∀ i ∈ t.instrs, i.kind.isPlain = true) :
    ∃ z, Plain p entry z := by
  obtain ⟨z, hz⟩ := h.chain
  refine ⟨z, hz, h.low hf, fun i hi => ?_, fun i hi => hplain i (h.instrs_eq ▸ hi), h.body_eq hz⟩
  obtain ⟨b, hb, hi⟩ := List.mem_flatMap.mp hi
  exact h.inUse b hb i hi

/-- From the first word control comes through the prologue and over the room behind it. -/
theorem leads_room (hr : p.room < p.prologue.length + 0x2000000) {s base : Host.State}
    (hpc : s.pc = 0) (hexec : execAll p.prologue s = some base) :
    Leads (instrAt? c.code) s (base.goto p.room) := by
  have hlands := p.front_lands (P := fun _ _ => True) hr fun _ => trivial
  have hat : Found (instrAt? c.code) 0 (frontOf p.prologue p.room) := by
    refine found_of_stands h.code p.stands_front fun i hi => ?_
    obtain ⟨k, hk⟩ := List.mem_iff_getElem?.mp hi
    exact (hlands k i hk).canonical
  obtain ⟨hops, hskip⟩ := allFrom_append.mp hat
  rw [← hpc] at hops
  obtain ⟨hrun, hbase⟩ := leads_of_execAll hops (straight_prologue p.frame p.use) hexec
  rw [hpc] at hbase
  by_cases hlt : p.prologue.length < p.room
  · have hle : p.prologue.length ≤ 56 := length_prologue_le p.setting.shape p.use
    rw [if_pos hlt, roomSkip_eq (Nat.le_of_lt hlt) (by omega), Option.getD_some] at hskip
    have hb := (allFrom_cons.mp hskip).1
    rw [Nat.zero_add] at hb
    refine hrun.trans (leads_b hb ?_)
    rw [hbase, Nat.zero_add]
  · have hroom : base.pc = p.room := by
      have hle := h.fits.front.1
      omega
    rw [State.goto_self hroom]
    exact hrun

variable {z : Word} (hp : Plain p entry z) {call : Host.State → Host.State → Prop}
  {record table low : DWord} {s₀ base : Host.State} {σ₀ : Guest.State}
  (hcalled : Called record table low s₀ σ₀)
  (he : Entered p.frame p.use record table low s₀ σ₀ base)

include hp hcalled he

/-- From the start of a block. The runs from the blocks that control comes to next are shorter. -/
theorem block_finishes (N : Nat) (s : Host.State) (σ : Guest.State)
    (ht : p.targets σ.pc = some s.pc) (hsim : Sim p.use record table base s σ) :
    Finishes (instrAt? c.code) call (Guest.blockInstrs p.blocks) (Exited record table low s₀) 0 N
      s σ := by
  obtain ⟨em, hb⟩ := h.built
  induction N using Nat.strongRecOn generalizing s σ with
  | ind N ih =>
    obtain ⟨pre, b, post, hbs, hstart, hpc⟩ := h.targets_eq_some ht
    have hchain := hp.chain
    rw [hbs] at hchain
    obtain ⟨m, -, hrest⟩ := hchain.of_append
    have hm : m = σ.pc := hrest.1.symm.trans hstart.symm
    have hat := at_start hp hbs (List.cons_ne_nil _ _) hpc hsim (hm ▸ hrest)
    have hfits := bodyFits_parts h.fits.body
    have hparts : bodyParts (pre ++ b :: post) = bodyParts pre ++ bodyParts (b :: post) :=
      List.flatMap_append
    rw [hbs, hparts] at hfits
    exact (parts_finish hb hcalled he hp ih (uniform_bodyParts _)
      (fun q hq => hfits q (List.mem_append_right _ hq)) hat).mono (Nat.zero_le _)

/-- From the first instruction, which is run in any case. -/
theorem body_finishes (hentry : σ₀.pc = entry) (N : Nat) :
    Finishes (instrAt? c.code) call (Guest.blockInstrs p.blocks) (Exited record table low s₀) 1 N
      (base.goto p.room) σ₀ := by
  obtain ⟨em, hb⟩ := h.built
  have hat := at_start hp (List.nil_append p.blocks).symm h.blocks_ne_nil (s := base.goto p.room) rfl
    (he.sim.atPc p.room) (hentry ▸ hp.chain)
  obtain ⟨b, bs, hbs⟩ := List.exists_cons_of_ne_nil h.blocks_ne_nil
  have hpos := hp.chain.nonempty b (hbs ▸ List.mem_cons_self)
  have hone : 1 ≤ ((bodyParts p.blocks).flatMap Part.instrs).length := by
    rw [instrs_bodyParts, hbs, List.flatMap_cons, List.length_append, Array.length_toList]
    omega
  exact (parts_finish hb hcalled he hp (fun N' _ => h.block_finishes hp hcalled he N')
    (uniform_bodyParts _) (bodyFits_parts h.fits.body) hat).mono
      (Nat.le_min.mpr ⟨Nat.le_refl 1, hone⟩)

end

end Translated

/-- A unit of plain instructions does what they do. The room kept for its prologue is one that a
branch reaches over. It is entered with a guest state in the record, and no check finds the
execution counter at its last count. If it comes to the jump at its end, then some of its
instructions have been run one by one, at least the first: the record holds the guest state behind
them and names the address where the guest goes on, and the caller has all that it is owed. -/
theorem exited_of_run {options : Options} {dispatch : DispatchTable} {img : Guest.Image}
    {entry : Word} {c : Compiled} (h : translate options dispatch img entry = .ok c)
    (hf : img.finish < wordCount)
    (hr : options.config.prologueWords < c.stats.prologueWords + 0x2000000) {t : Guest.Trace}
    (ht : Guest.Trace.collect options.limits img entry = .ok t)
    (hplain : ∀ i ∈ t.instrs, i.kind.isPlain = true) {record table low : DWord}
    {s₀ s : Host.State} {σ₀ : Guest.State} (hcalled : Called record table low s₀ σ₀)
    (hpc : s₀.pc = 0) (hentry : σ₀.pc = entry) {call : Host.State → Host.State → Prop}
    (hcount : Counted (instrAt? c.code) call s₀) {n : Nat}
    (hrun : Run (instrAt? c.code) call n s₀ s)
    (hend : instrAt? c.code s.pc = some (.br .dispatch)) :
    ∃ m σ, 1 ≤ m ∧ Guest.steps t.instrs m σ₀ = some σ ∧ Exited record table low s₀ s σ := by
  obtain ⟨t', p, h⟩ := translate_ok h
  obtain rfl : t' = t := Except.ok.inj (h.trace.symm.trans ht)
  have hroom : p.room = options.config.prologueWords := congrArg (·.config.prologueWords) h.setting
  have hwords : c.stats.prologueWords = p.prologue.length := congrArg Stats.prologueWords h.stats
  rw [hwords, ← hroom] at hr
  obtain ⟨z, hp⟩ := h.isPlain hf hplain
  obtain ⟨base, hexec, he⟩ := prologue_run (frameFits p.setting.shape p.use) h.initial hcalled
  have hfin : Finishes (instrAt? c.code) call (Guest.blockInstrs p.blocks)
      (Exited record table low s₀) (0 + 1) n s₀ σ₀ :=
    (h.body_finishes hp hcalled he hentry n).of_leads (h.leads_room hr hpc hexec) rfl
  rw [h.instrs_eq]
  exact hfin hcount n (Nat.le_refl n) s hrun hend

/-- A register is counted down, another is added to if that gave zero, and the unit is left. -/
def guardedImage : Guest.Image :=
  ⟨0x1000, #[0x01, 0x00, 0x50, 0xE2, 0x02, 0x10, 0x81, 0x02, 0x1E, 0xFF, 0x2F, 0xE1]⟩

/-- A machine that enters a unit with the number one in the first guest register. -/
def callingState : Host.State where
  pc := 0
  x q := if q = .ofNat 0 then 0x1000 else if q = .sp then slot 0x10000 stackBytes else 0
  v _ := 0
  flags := {}
  mem a := if a = 0x1000 then 1 else 0

theorem called_callingState :
    Called 0x1000 0 0x10000 callingState (Record.state callingState.mem 0x1000 0x1000) := by
  refine ⟨rfl, rfl, rfl, fun k hk => ?_, Record.holds_state _ _ _⟩
  unfold Mem.Outside slot
  unfold stackBytes at hk
  have hsize : Record.size = 352 := rfl
  rw [hsize, BitVec.toNat_sub, BitVec.toNat_add, BitVec.toNat_ofNat]
  have hlow : (0x10000 : DWord).toNat = 0x10000 := rfl
  have hrecord : (0x1000 : DWord).toNat = 0x1000 := rfl
  omega

theorem exited_of_run_guarded : ∃ c t s m σ,
    translate {} DispatchTable.empty guardedImage 0x1000 = .ok c ∧
    Guest.Trace.collect {} guardedImage 0x1000 = .ok t ∧ t.instrs.length = 3 ∧
    instrAt? c.code s.pc = some (.br .dispatch) ∧ 1 ≤ m ∧
    Guest.steps t.instrs m (Record.state callingState.mem 0x1000 0x1000) = some σ ∧
    Exited 0x1000 0 0x10000 callingState s σ := by
  have hunit : (translate {} DispatchTable.empty guardedImage 0x1000).toOption.any (fun c =>
      decide (64 < c.stats.prologueWords + 0x2000000) &&
        (List.range c.code.size).all (fun k =>
          decide (instrAt? c.code k ≠ some (.ldr .w .scratch .context Record.execCounter))) &&
        decide ((advance (instrAt? c.code) 31 callingState).map (fun s => instrAt? c.code s.pc) =
          some (some (.br .dispatch)))) = true := by decide +kernel
  have htrace : (Guest.Trace.collect {} guardedImage 0x1000).toOption.any (fun t =>
      t.instrs.all (·.kind.isPlain) && t.instrs.length == 3) = true := by decide +kernel
  obtain ⟨c, hc, hunit⟩ := exists_ok_of_any hunit
  obtain ⟨t, ht, htrace⟩ := exists_ok_of_any htrace
  simp only [Bool.and_eq_true, decide_eq_true_eq, List.all_eq_true, beq_iff_eq,
    Option.map_eq_some_iff] at hunit htrace
  obtain ⟨⟨hr, hcheck⟩, s, hs, hend⟩ := hunit
  have hcount : Counted (instrAt? c.code) (fun _ _ => False) callingState := by
    intro n m _ hm
    refine absurd hm (hcheck m.pc (List.mem_range.mpr ?_))
    refine Nat.lt_of_not_le fun hle => ?_
    rw [instrAt?, Array.getElem?_eq_none hle] at hm
    cases hm
  obtain ⟨m, σ, hm, hsteps, hout⟩ := exited_of_run hc (by decide) hr ht htrace.1
    called_callingState rfl rfl hcount (execs_iff_advance.mpr hs).run hend
  exact ⟨c, t, s, m, σ, hc, ht, htrace.2, hend, hm, hsteps, hout⟩

end Dynarec
