import Dynarec.Proofs.Run.Answer
import Dynarec.Proofs.Run.Instr

/-! # Calls and the way back

A call leaves its link value in the guest's link register, and the unit goes on behind it only if
the answer is the address of the next instruction. The link value of a Thumb caller has its low bit
set, so there the two differ, and a callee that answers with the link value leaves the unit. -/

namespace Dynarec.Guest

/-! ### Instructions spelled out -/

theorem under_mem_spelled {q : ItState} {is : List Instr} {i : Instr} (h : i ∈ is)
    (hk : i.kind.isIfThen = false) : ∃ q', i.under q' ∈ spelled q is := by
  induction is generalizing q with
  | nil => exact absurd h List.not_mem_nil
  | cons j rest ih =>
    unfold spelled
    rcases List.mem_cons.mp h with rfl | h
    · rw [hk]
      exact ⟨q, List.mem_cons_self⟩
    · obtain ⟨q', hq'⟩ := ih (q := q.behind j) h
      refine ⟨q', ?_⟩
      split
      · split
        · rename_i hempty
          rw [List.isEmpty_iff.mp hempty] at h
          exact absurd h List.not_mem_nil
        · exact hq'
      · exact List.mem_cons_of_mem _ hq'

end Dynarec.Guest

namespace Dynarec.Compile

open Dynarec.Emit Dynarec.Lower Dynarec.Resolve Dynarec.Host

/-! ### Places -/

/-- The instruction is one of the unit, and what it becomes stands from index `k` on. -/
structure Plan.Places (p : Plan) (k : Nat) (i : Guest.Instr) : Prop where
  mem : ∃ b ∈ p.blocks, i ∈ b.instrs.toList
  items : ∃ ys zs, p.body = ys ++ (instrItems p.setting.config i ++ zs) ∧ k = p.room + ys.length

theorem Plan.exists_places {p : Plan} {b : Guest.Block} {i : Guest.Instr} (hb : b ∈ p.blocks)
    (hi : i ∈ b.instrs.toList) : ∃ k, p.Places k i := by
  obtain ⟨ys, zs, hbody⟩ :=
    (infix_instrItems p.setting.config hi).trans (infix_blockItems p.setting hb)
  rw [List.append_assoc] at hbody
  exact ⟨_, ⟨b, hb, hi⟩, ys, zs, hbody.symm, rfl⟩

section Places

variable {config : Config} {dispatch : DispatchTable} {t : Guest.Trace} {c : Compiled} {p : Plan}
  {s : Emission} (h : Built config dispatch t c p s) {i : Guest.Instr} {k : Nat}

include h

/-- Every instruction has a place, under the condition that an if-then instruction gives it. -/
theorem Built.exists_places (hi : i ∈ t.instrs) (hk : i.kind.isIfThen = false) :
    ∃ q k, p.Places k (i.under q) := by
  obtain ⟨b, hb, hi⟩ := List.mem_flatMap.mp hi
  obtain ⟨q₀, hb⟩ := Guest.mem_spelledBlocks (q := {}) hb
  obtain ⟨q, hi⟩ := Guest.under_mem_spelled (q := q₀) hi hk
  rw [← h.blocks] at hb
  obtain ⟨k, hplace⟩ := Plan.exists_places (i := i.under q) hb hi
  exact ⟨q, k, hplace⟩

/-- A unit with a call holds the link register. -/
theorem Built.holds_lr (hp : p.Places k i) (hcall : i.kind.isCall = true) : s.regs.Holds .lr := by
  obtain ⟨b, hb, hi⟩ := hp.mem
  rw [h.emitted.regs]
  refine (h.inUse b hb i hi).covers.gprs .lr ?_ rfl
  cases hk : i.kind with
  | branchLink | branchLinkExchange => simp [kindGprs]
  | _ =>
    rw [hk] at hcall
    cases hcall

theorem Built.fixup_mem {ys zs : List Item} {kind : FixupKind} {target : FixupTarget}
    {cur : Current} (hbody : p.body = ys ++ .hole kind target cur :: zs) :
    ⟨kind, target, p.room + ys.length, cur.pc, cur.nextPc, cur.pcValue⟩ ∈ s.fixups.toList := by
  rw [h.emitted.fixups, hbody, fixupsFrom_append]
  exact List.mem_append_right _ List.mem_cons_self

end Places

/-- The trace of one instruction. -/
def soloTrace (i : Guest.Instr) : Guest.Trace := .ofBlocks #[{ start := i.address, instrs := #[i] }]

theorem Built.places_solo {config : Config} {dispatch : DispatchTable} {i : Guest.Instr}
    {c : Compiled} {p : Plan} {s : Emission} (h : Built config dispatch (soloTrace i) c p s)
    (hk : i.kind.isIfThen = false) (hi : lowered i = .al) : p.Places config.prologueWords i := by
  let b : Guest.Block := { start := i.address, instrs := #[i] }
  have hblocks : p.blocks = [b] := by
    rw [h.blocks]
    exact Guest.spelledBlocks_eq_self rfl (by simp [soloTrace, Guest.Trace.ofBlocks, hk])
  have hitems : blockItems p.setting.config b = instrItems p.setting.config i := by
    have hparts : blockParts b = [.run .al [i]] := by
      simp [blockParts, b, parts, Part.cons, Part.attach, hi]
    simp [blockItems, hparts, Part.items, regionItems, partsItems]
  refine ⟨⟨b, by simp [hblocks], by simp [b]⟩, [], itemsAfter p.setting b.finish (blockEnds b) [],
    ?_, ?_⟩
  · rw [Plan.body, hblocks, bodyItems, hitems]
    rfl
  · rw [Plan.room, h.setting]
    rfl

/-! ### Before the call -/

section Before

variable (config : Config) (i : Guest.Instr) (m : Host.State)

/-- From `m` to `m'` a call has written its link value, and its target if that is in a register. -/
structure Announces (m' : Host.State) : Prop where
  link : (m'.x (pinned .lr)).setWidth 32 = config.linkValue i.nextPc
  next : ∀ rm, i.kind = .branchLinkExchange rm →
    m'.mem.word (m.x .context + BitVec.ofNat 64 Record.dispatchAddress) =
      i.gprValue (m.guest i.address) rm
  x : ∀ q, q ≠ .scratch → q ≠ pinned .lr → m'.x q = m.x q

/-- Writes the target of a call from its register. -/
def targetOps (rm : Guest.Gpr) : List Host.Instr :=
  if rm.isPc then addressOps i.pcReadValue
  else [.str .w (pinned rm) .context Record.dispatchAddress]

theorem straight_targetOps (rm : Guest.Gpr) : Straight (targetOps i rm) := by
  unfold targetOps
  split
  · exact straight_addressOps _
  · rfl

theorem targetOps_run (rm : Guest.Gpr) : ∃ m', execAll (targetOps i rm) m = some m' ∧
    m'.mem.word (m.x .context + BitVec.ofNat 64 Record.dispatchAddress) =
      i.gprValue (m.guest i.address) rm ∧ ∀ q, q ≠ .scratch → m'.x q = m.x q := by
  unfold targetOps
  cases hr : rm.isPc with
  | true =>
    have hread : i.gprValue (m.guest i.address) rm = i.pcReadValue := if_pos hr
    refine ⟨_, execAll_addressOps i.pcReadValue m, ?_, fun q hq => ?_⟩
    · rw [hread, State.mem_skip, mem_writeNext]
      exact Mem.read_write_self (n := 4) m.mem _ i.pcReadValue (Nat.le_of_ble_eq_true rfl)
    · exact State.x_set_of_ne m .scratch q _ hq
  | false =>
    have hread : i.gprValue (m.guest i.address) rm = m.low .w (pinned rm) :=
      (if_neg (by rw [hr]; exact Bool.false_ne_true)).trans
        (Simulation.low_pinned_guest m hr i.address).symm
    refine ⟨_, execAll_singleton rfl, ?_, fun q _ => rfl⟩
    rw [hread]
    exact Mem.read_write_self (n := 4) m.mem _ _ (Nat.le_of_ble_eq_true rfl)

theorem linkOps_run : ∃ m', execAll (linkOps config (currentOf i)) m = some m' ∧
    (m'.x (pinned .lr)).setWidth 32 = config.linkValue i.nextPc ∧
    (∀ q, q ≠ pinned .lr → m'.x q = m.x q) ∧ m'.mem = m.mem := by
  let value : DWord := (config.linkValue i.nextPc).setWidth 64
  refine ⟨_, execAll_loadWord (pinned .lr) (config.linkValue i.nextPc) m, ?_, fun q hq => ?_, ?_⟩
  · have hself : (m.set (pinned .lr) value).x (pinned .lr) = value :=
      State.x_set_self m (pinned .lr) value (by decide)
    show BitVec.setWidth 32 ((m.set (pinned .lr) value).x (pinned .lr)) = _
    rw [hself, BitVec.setWidth_setWidth_of_le _ (by decide), BitVec.setWidth_eq]
  · exact State.x_set_of_ne m (pinned .lr) q value hq
  · exact State.mem_set m (pinned .lr) value

/-- A call is straight code and a placeholder. -/
theorem call_items {i : Guest.Instr} (hcall : i.kind.isCall = true) :
    ∃ is kind target, instrItems config i = ops is ++ [.hole kind target (currentOf i)] ∧
      Straight is ∧ (kind = .call ∨ kind = .indirectCall) ∧
      ∀ m, ∃ m', execAll is m = some m' ∧ Announces config i m m' := by
  cases hk : i.kind with
  | branchLink t =>
    refine ⟨_, .call, .address t, ?_, straight_linkOps config (currentOf i), .inl rfl, fun m => ?_⟩
    · simp only [instrItems, items, hk]
    · obtain ⟨m', hexec, hlink, hx, -⟩ := linkOps_run config i m
      refine ⟨m', hexec, hlink, fun rm hrm => ?_, fun q _ hq => hx q hq⟩
      cases hk.symm.trans hrm
  | branchLinkExchange rm =>
    refine ⟨targetOps i rm ++ linkOps config (currentOf i), .indirectCall, .none, ?_,
      (straight_targetOps i rm).append (straight_linkOps config (currentOf i)), .inr rfl,
      fun m => ?_⟩
    · simp only [instrItems, items, hk]
      rfl
    · obtain ⟨m₁, hexec₁, hnext, hx₁⟩ := targetOps_run i m rm
      obtain ⟨m₂, hexec₂, hlink, hx₂, hmem⟩ := linkOps_run config i m₁
      refine ⟨m₂, (execAll_append hexec₁).trans hexec₂, hlink, fun rm' hrm => ?_,
        fun q hq hq' => (hx₂ q hq').trans (hx₁ q hq)⟩
      cases hk.symm.trans hrm
      rw [hmem]
      exact hnext
  | _ =>
    rw [hk] at hcall
    cases hcall

end Before

end Dynarec.Compile

namespace Dynarec

open Dynarec.Emit Dynarec.Lower Dynarec.Compile Dynarec.Resolve Dynarec.Host

/-! ### The way back -/

theorem Emit.Config.linkValue_eq_iff (config : Config) (a : Word) :
    config.linkValue a = a ↔ config.thumb = false ∨ a.getLsbD 0 = true := by
  unfold Config.linkValue
  cases config.thumb with
  | false => simp
  | true =>
    simp only [if_true, Bool.true_eq_false, false_or]
    constructor
    · intro h
      rw [← h, BitVec.getLsbD_or]
      simp
    · intro h
      refine BitVec.eq_of_getLsbD_eq fun j hj => ?_
      rw [BitVec.getLsbD_or]
      by_cases hj : j = 0
      · simp [hj, h]
      · have hone : BitVec.getLsbD (1 : Word) j = false := by simp [BitVec.getLsbD_one, hj]
        rw [hone, Bool.or_false]

/-- From `m` on, where the call `i` begins, guest code is called with the link value in the guest's
link register. If it answers with that value, control goes on behind the call at `next`, or leaves
the unit for the link value where that is not the address behind the call. -/
def ChecksReturn (config : Config) (c : Compiled) (i : Guest.Instr) (next area : Nat)
    (m : Host.State) : Prop :=
  ∃ m₁ x, Leads (instrAt? c.code) m m₁ ∧ instrAt? c.code m₁.pc = some (.blr x) ∧
    m₁.mem.word (m.x .context + BitVec.ofNat 64 (Record.gpr .lr)) = config.linkValue i.nextPc ∧
    ∀ m₂, Conforms area m₁ m₂ → m₂.pc = m₁.pc + 1 →
      (m₂.x (.ofNat 0)).setWidth 32 = config.linkValue i.nextPc →
      ∃ m₃, Leads (instrAt? c.code) m₂ m₃ ∧
        (m₃.pc = next ↔ config.thumb = false ∨ i.nextPc.getLsbD 0 = true) ∧
        (¬(config.thumb = false ∨ i.nextPc.getLsbD 0 = true) → c.stats.trailer = some m₃.pc ∧
          m₃.mem.word (m₂.x .context + BitVec.ofNat 64 Record.dispatchAddress) =
            config.linkValue i.nextPc)

theorem Compile.Built.checksReturn {config : Config} {dispatch : DispatchTable} {t : Guest.Trace}
    {c : Compiled} {p : Plan} {s : Emission} (h : Built config dispatch t c p s) {k : Nat}
    {i : Guest.Instr} (hp : p.Places k i) (hcall : i.kind.isCall = true) {area : Nat}
    {m : Host.State} (harea : c.stats.spillBytes + 16 ≤ area) (hm : m.pc = k)
    (hapart : ∀ a, ¬Mem.Outside (m.x .context) Record.size a → Mem.Outside (m.x .sp) area a) :
    ChecksReturn config c i (k + (instrItems config i).length) area m := by
  have hconfig : p.setting.config = config := congrArg (·.config) h.setting
  obtain ⟨ys, zs, hbody, rfl⟩ := hp.items
  obtain ⟨is, kind, target, hitems, hst, hkind, hrun⟩ := call_items config hcall
  obtain ⟨m₀, hexec, hready⟩ := hrun m
  rw [hconfig, hitems, List.append_assoc] at hbody
  obtain ⟨hlead, hpc⟩ := h.leads_ops hbody hst hm hexec
  rw [← List.append_assoc] at hbody
  let f : Fixup :=
    ⟨kind, target, p.room + (ys ++ ops is).length, i.address, i.nextPc, i.pcReadValue⟩
  have hf : f ∈ s.fixups.toList := h.fixup_mem hbody
  have hnext : AnswersNext f := answersNext_of_call hkind
  have hasks : f.kind.asks = true := by
    rcases hkind with rfl | rfl <;> rfl
  have hcontext : m₀.x .context = m.x .context := hready.x .context (by decide) (by decide)
  have hsp : m₀.x .sp = m.x .sp := hready.x .sp (by decide) (by decide)
  rw [← hcontext, ← hsp] at hapart
  obtain ⟨m₁, hlead₁, hasked, hback⟩ :=
    h.obeys hf hasks harea hpc hapart _ (carries_carried s.regs (m₀.x .context) m₀)
  obtain ⟨x, hblr, -⟩ := hasked.callee
  refine ⟨m₁, x, hlead.trans hlead₁, hblr, ?_, fun m₂ hconforms hpc₂ hanswer => ?_⟩
  · have hlink := hasked.holds.gprs .lr rfl
    rw [hcontext] at hlink
    refine hlink.trans ?_
    exact (if_pos (h.holds_lr hp hcall)).trans hready.link
  · obtain ⟨m₃, hlead₃, hfollowed⟩ := hback m₂ hconforms hpc₂
    have hgo : f.goesOn (m₂.x (.ofNat 0)) = true ↔
        config.thumb = false ∨ i.nextPc.getLsbD 0 = true := by
      rw [hnext.goesOn, hanswer, beq_iff_eq]
      exact config.linkValue_eq_iff i.nextPc
    refine ⟨m₃, hlead₃, ?_, fun hleave => ?_⟩
    · rw [← hgo, ← hfollowed.goesOn, hitems]
      simp [f, Nat.add_assoc]
    · have hgone : f.goesOn (m₂.x (.ofNat 0)) = false :=
        eq_false_of_ne_true fun hg => hleave (hgo.mp hg)
      obtain ⟨htrailer, -, hslot⟩ := hfollowed.leaves hgone
      rw [hnext.leavesFor, hanswer] at hslot
      exact ⟨htrailer, hslot⟩

/-- Every call leaves its link value in the link register, and a callee that answers with it comes
back behind the call exactly if the link value is the address there. -/
theorem returns_checked {config : Config} {dispatch : DispatchTable} {t : Guest.Trace}
    {c : Compiled} (h : compile lower config dispatch t = .ok c) :
    ∃ p s, Built config dispatch t c p s ∧
      (∀ i ∈ t.instrs, i.kind.isCall = true → ∃ q k, p.Places k (i.under q)) ∧
      ∀ k i, p.Places k i → i.kind.isCall = true →
        ∀ area m, c.stats.spillBytes + 16 ≤ area → m.pc = k →
          (∀ a, ¬Mem.Outside (m.x .context) Record.size a → Mem.Outside (m.x .sp) area a) →
          ChecksReturn config c i (k + (instrItems config i).length) area m := by
  obtain ⟨p, s, h⟩ := compile_ok h
  refine ⟨p, s, h, fun i hi hcall => h.exists_places hi ?_, ?_⟩
  · cases hk : i.kind with
    | ifThen =>
      rw [hk] at hcall
      cases hcall
    | _ => rfl
  · intro k i hp hcall area m harea hm hapart
    exact h.checksReturn hp hcall harea hm hapart

/-- A wide call of 0x9000. -/
def wideCall : Guest.Instr where
  address := 0x8000
  encoding := 0
  name := "bl"
  kind := .branchLink 0x9000
  flags := { call := true, branch := true, hostCall := true }

/-- In Thumb state the callee finds 0x8005 in the link register, and when it answers with that the
unit is left. -/
theorem returns_checked_thumb : ∃ (c : Compiled) (m₁ m₂ m₃ : Host.State),
    compile lower { thumb := true } DispatchTable.empty (soloTrace wideCall) = .ok c ∧
    Leads (instrAt? c.code) (restingState.goto 64) m₁ ∧
    m₁.mem.word (restingState.x .context + BitVec.ofNat 64 (Record.gpr .lr)) = 0x8005 ∧
    m₂ = (m₁.set (.ofNat 0) 0x8005).skip 1 ∧ Leads (instrAt? c.code) m₂ m₃ ∧
    c.stats.trailer = some m₃.pc := by
  have hcompiles : (compile lower { thumb := true } DispatchTable.empty
      (soloTrace wideCall)).toOption.any (fun _ => true) = true := by decide +kernel
  obtain ⟨c, hc, -⟩ := exists_ok_of_any hcompiles
  obtain ⟨p, s, hb, -, hchecks⟩ := returns_checked hc
  obtain ⟨m₁, x, hlead, -, hlink, hback⟩ := hchecks 64 wideCall (hb.places_solo rfl rfl) rfl
    _ (restingState.goto 64) (Nat.le_refl _) rfl (restingState_apart hb.spillBytes_le)
  have hconforms : Conforms (c.stats.spillBytes + 16) m₁ ((m₁.set (.ofNat 0) 0x8005).skip 1) := by
    refine ⟨fun q hq _ => State.x_set_of_ne m₁ (.ofNat 0) q _ (Gpr.ne_of_index ?_), fun a _ => ?_⟩
    · rw [show (Host.Gpr.ofNat 0).index = 0 from rfl]
      omega
    · exact congrFun (State.mem_set m₁ (.ofNat 0) 0x8005) a
  have hanswer : ((m₁.set (.ofNat 0) 0x8005).skip 1).x (.ofNat 0) = 0x8005 :=
    State.x_set_self m₁ (.ofNat 0) 0x8005 (by decide)
  obtain ⟨m₃, hlead₃, -, hleave⟩ := hback _ hconforms (congrArg (· + 1) (State.pc_set ..))
    (by rw [hanswer]; decide)
  exact ⟨c, m₁, _, m₃, hc, hlead, hlink, rfl, hlead₃, (hleave (by decide)).1⟩

end Dynarec
