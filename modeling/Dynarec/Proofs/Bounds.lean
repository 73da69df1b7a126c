import Dynarec.Proofs.Layout

/-! # How long code gets

Bounds on the words of every sequence that is emitted, one for each kind of sequence. They are
generous: what matters is that a unit of bounded guest size stays within the reach of branches. -/

namespace Dynarec.Compile

open Dynarec.Emit Dynarec.Lower Dynarec.Resolve Dynarec.Host

/-! ### Constants and exits -/

theorem length_loadWord_le (x : Host.Gpr) (v : Word) : (loadWord x v).length ≤ 2 := by
  unfold loadWord
  dsimp only
  split
  · exact Nat.le_succ 1
  · split
    · exact Nat.le_succ 1
    · exact Nat.le_refl 2

theorem length_loadDWord_le (x : Host.Gpr) (v : DWord) : (loadDWord x v).length ≤ 4 := by
  have hparts : (nonzeroParts v).length ≤ 4 := List.length_filterMap_le _ _
  unfold loadDWord
  split
  · exact Nat.le_of_ble_eq_true rfl
  · rename_i p part rest heq
    rw [heq, List.length_cons] at hparts
    rw [List.length_cons, List.length_map]
    exact hparts

theorem length_addressOps_le (a : Word) : (addressOps a).length ≤ 3 := by
  have := length_loadWord_le .scratch a
  rw [addressOps, List.length_append, List.length_singleton]
  omega

theorem length_dispatchOps_le (e : Setting) (guest : Option Word) :
    (dispatchOps e guest).length ≤ 5 := by
  unfold dispatchOps
  split
  · rename_i slot _
    have := length_loadDWord_le .dispatch slot
    rw [List.length_append, List.length_singleton]
    omega
  · have := length_loadDWord_le .dispatch e.config.helpers.fallbackDispatcher
    omega

theorem length_exitItems_le (e : Setting) (guest : Word) : (exitItems e guest).length ≤ 9 := by
  have ha := length_addressOps_le guest
  have hd := length_dispatchOps_le e (some guest)
  simp only [exitItems, List.length_append, length_ops, List.length_singleton]
  omega

/-! ### Register sets -/

theorem size_inter_le (s t : RegSet) : (s.inter t).size ≤ t.size := by
  have hsub : (s.inter t).toList = t.toList.filter s.contains := by
    unfold RegSet.toList
    rw [List.filter_filter]
    congr 1
    funext c
    rw [RegSet.contains_inter]
  unfold RegSet.size
  rw [hsub]
  exact List.length_filter_le _ _

theorem size_diff_le (s t : RegSet) : (s.diff t).size ≤ s.size := by
  have hsub : (s.diff t).toList = s.toList.filter fun c => !t.contains c := by
    unfold RegSet.toList
    rw [List.filter_filter]
    congr 1
    funext c
    rw [RegSet.contains_diff, Bool.and_comm]
  unfold RegSet.size
  rw [hsub]
  exact List.length_filter_le _ _

theorem size_contextGprs_le (u : RegisterUse) : u.contextGprs.size ≤ 15 :=
  size_inter_le _ _

theorem size_contextVregs_le (u : RegisterUse) : u.contextVregs.size ≤ 16 :=
  size_inter_le _ _

theorem length_gprPlaces_le (u : RegisterUse) : u.gprPlaces.length ≤ 15 := by
  have h := size_contextGprs_le u
  refine Nat.le_trans (List.length_filterMap_le _ _) ?_
  rw [RegSet.gprs, List.length_map]
  exact h

theorem length_vregPlaces_le (u : RegisterUse) : u.vregPlaces.length ≤ 16 := by
  have h := size_contextVregs_le u
  refine Nat.le_trans (List.length_filterMap_le _ _) ?_
  rw [RegSet.vregs, List.length_map]
  exact h

theorem length_storeToRecord_le (u : RegisterUse) : u.storeToRecord.length ≤ 33 := by
  have hg := length_gprPlaces_le u
  have hv := length_vregPlaces_le u
  unfold RegisterUse.storeToRecord
  split <;> simp only [List.length_append, List.length_map, List.length_cons, List.length_nil] <;>
    omega

theorem length_loadFromRecord_le (u : RegisterUse) : u.loadFromRecord.length ≤ 33 := by
  have hg := length_gprPlaces_le u
  have hv := length_vregPlaces_le u
  unfold RegisterUse.loadFromRecord
  split <;> simp only [List.length_append, List.length_map, List.length_cons, List.length_nil] <;>
    omega

/-! ### Host calls -/

theorem size_spill_le (u : RegisterUse) (shape : Shape) :
    (SpillLayout.compute u shape).gprs.size ≤ 15 ∧ (SpillLayout.compute u shape).vregs.size ≤ 16 := by
  constructor
  · show (if shape.hasHostCall then u.callClobberedGprs else .empty).size ≤ 15
    split
    · exact Nat.le_trans (size_diff_le _ _) (size_contextGprs_le u)
    · decide
  · show (if shape.hasHostCall then u.contextVregs else .empty).size ≤ 16
    split
    · exact size_contextVregs_le u
    · decide

theorem length_gprSlots (l : SpillLayout) : l.gprSlots.length = l.gprs.size := by
  simp only [SpillLayout.gprSlots, List.length_map, List.length_zipIdx, RegSet.gprs, RegSet.size]

theorem length_vregSlots (l : SpillLayout) : l.vregSlots.length = l.vregs.size := by
  simp only [SpillLayout.vregSlots, List.length_map, List.length_zipIdx, RegSet.vregs, RegSet.size]

theorem length_save_le (shape : Shape) (u : RegisterUse) (tier : CallTier) :
    (tier.save shape u).length ≤ 33 := by
  obtain ⟨hg, hv⟩ := size_spill_le u shape
  cases tier with
  | skipContext => exact show 1 ≤ 33 by decide
  | full =>
    simp only [CallTier.save, SpillLayout.spill, List.length_append, List.length_map,
      length_gprSlots, length_vregSlots]
    split <;> simp only [List.length_cons, List.length_nil] <;> omega

theorem length_restore_le (shape : Shape) (u : RegisterUse) (tier : CallTier) :
    (tier.restore shape u).length ≤ 33 := by
  obtain ⟨hg, hv⟩ := size_spill_le u shape
  cases tier with
  | skipContext => exact show 1 ≤ 33 by decide
  | full =>
    simp only [CallTier.restore, SpillLayout.refill, List.length_append, List.length_map,
      length_gprSlots, length_vregSlots]
    split <;> simp only [List.length_cons, List.length_nil] <;> omega

theorem length_placement_le (i : Nat) (args : List CallArg) :
    (placement i args).1.length ≤ 4 * args.length := by
  induction args generalizing i with
  | nil => exact Nat.le_refl 0
  | cons a args ih =>
    have h := ih (i + 1)
    cases a with
    | imm value =>
      have hv := length_loadDWord_le (.ofNat i) value
      simp only [placement, List.length_append, List.length_cons]
      omega
    | reg source =>
      simp only [placement, List.length_cons]
      split
      · omega
      · split
        · exact Nat.zero_le _
        · simp only [List.length_cons]
          omega

theorem length_hostCallOps_le (shape : Shape) (u : RegisterUse) (tier : CallTier) (callee : Callee)
    (args : List CallArg) (after : List Host.Instr) :
    (hostCallOps shape u tier callee args after).length ≤ 137 + 4 * args.length + after.length := by
  have hstore := length_storeToRecord_le u
  have hsave := length_save_le shape u tier
  have hargs := length_placement_le 0 args
  have hrestore := length_restore_le shape u tier
  have hload := length_loadFromRecord_le u
  have hcallee : callee.load.2.length ≤ 4 := by
    cases callee with
    | helper address => exact length_loadDWord_le _ _
    | register x => exact Nat.zero_le _
  simp only [hostCallOps, beforeCallOps, List.length_append, List.length_cons]
  omega

/-! ### Sequences out of line -/

theorem length_leaveItems_le (e : Setting) : (leaveItems e).length ≤ 6 := by
  have hd := length_dispatchOps_le e none
  simp only [leaveItems, List.length_append, length_ops, List.length_singleton]
  omega

theorem length_leaveNonzeroItems_le (e : Setting) : (leaveNonzeroItems e).length ≤ 7 := by
  have hd := length_dispatchOps_le e none
  simp only [leaveNonzeroItems, List.length_append, length_ops, List.length_singleton]
  omega

theorem length_continuationItems_le (e : Setting) (expected : Word) :
    (continuationItems e expected).length ≤ 11 := by
  have hl := length_leaveNonzeroItems_le e
  have hw := length_loadWord_le .dispatch expected
  simp only [continuationItems, List.length_append, length_ops, List.length_singleton]
  omega

theorem length_callItems_le (e : Setting) (u : RegisterUse) (nextPc : Word)
    (target : Option Word) : (callItems e u nextPc target).length ≤ 180 := by
  have hc := length_continuationItems_le e nextPc
  have hd := length_dispatchOps_le e target
  have hh := length_hostCallOps_le e.shape u .full (.register .dispatch) contextArgs answerOps
  have ha : (target.elim [] addressOps).length ≤ 3 := by
    cases target with
    | none => exact Nat.zero_le _
    | some t => exact length_addressOps_le t
  have hn : contextArgs.length = 2 ∧ answerOps.length = 1 := ⟨rfl, rfl⟩
  simp only [callItems, List.length_append, length_ops]
  omega

theorem length_trapItems_le (e : Setting) (u : RegisterUse) (nextPc : Word) (helper : DWord)
    {args : List CallArg} (h : args.length ≤ 5) : (trapItems e u nextPc helper args).length ≤ 180 := by
  have hc := length_continuationItems_le e nextPc
  have hh := length_hostCallOps_le e.shape u .skipContext (.helper helper) args answerOps
  have hn : answerOps.length = 1 := rfl
  simp only [trapItems, List.length_append, length_ops]
  omega

theorem length_syncPointItems_le (e : Setting) (u : RegisterUse) (pc : Word) :
    (syncPointItems e u pc).length ≤ 180 := by
  have hl := length_leaveNonzeroItems_le e
  have ha := length_addressOps_le pc
  have hh := length_hostCallOps_le e.shape u .full (.helper e.config.helpers.syncCheck)
    [.reg .context] [.mov .x .dispatch (.ofNat 0)]
  simp only [syncPointItems, List.length_append, length_ops, List.length_singleton] at hh ⊢
  omega

theorem length_timerReadItems_le (e : Setting) (u : RegisterUse) (rt rt2 : Guest.Gpr) :
    (timerReadItems e u rt rt2).length ≤ 180 := by
  have hh := length_hostCallOps_le e.shape u .skipContext (.helper e.config.helpers.timerRead)
    [.reg .context] [.str .w (.ofNat 0) .context (Record.gpr rt), .lsrX .scratch (.ofNat 0) 32,
      .str .w .scratch .context (Record.gpr rt2)]
  simp only [List.length_cons, List.length_nil] at hh
  simp only [timerReadItems, length_ops]
  omega

theorem length_tableBranchItems_le (e : Setting) (u : RegisterUse) (pcValue : Word)
    (rn rm : Guest.Gpr) (halfword : Bool) :
    (tableBranchItems e u pcValue rn rm halfword).length ≤ 180 := by
  have hl := length_leaveItems_le e
  have hh := length_hostCallOps_le e.shape u .skipContext (.helper e.config.helpers.tableBranch)
    (tableArgs pcValue rn rm halfword) answerOps
  have hn : (tableArgs pcValue rn rm halfword).length = 5 ∧ answerOps.length = 1 := ⟨rfl, rfl⟩
  simp only [tableBranchItems, List.length_append, length_ops]
  omega

/-! ### Resolved placeholders -/

theorem length_returning_le {site n : Nat} {xs : List Item} (h : xs.length ≤ 180) :
    (returning site n xs).tail.length ≤ 181 := by
  simp only [returning, List.length_append, List.length_singleton]
  omega

theorem length_directed_le (e : Setting) (targets : Word → Option Nat) (site n : Nat) (t : Word) :
    (directed e targets site n t).tail.length ≤ 181 := by
  have hx := length_exitItems_le e t
  have htramp : (trampolined e site n t).tail.length ≤ 181 := by
    simp only [trampolined]
    omega
  unfold directed
  split
  · exact htramp
  · split
    · exact Nat.zero_le _
    · split
      · exact Nat.zero_le _
      · exact htramp

theorem length_longDirected_le (e : Setting) (site n : Nat) (cond : Cond) (t : Word)
    (index : Option Nat) : (longDirected e site n cond t index).tail.length ≤ 181 := by
  have hx := length_exitItems_le e t
  simp only [longDirected, List.length_append, length_ops, List.length_cons, List.length_nil]
  split
  · simp only [List.length_cons, List.length_nil]
    omega
  · omega

theorem length_condDirected_le (e : Setting) (targets : Word → Option Nat) (site n : Nat)
    (cond : Cond) (t : Word) : (condDirected e targets site n cond t).tail.length ≤ 181 := by
  have hx := length_exitItems_le e t
  unfold condDirected
  split
  · split
    · exact Nat.zero_le _
    · split
      · exact Nat.zero_le _
      · exact length_longDirected_le ..
  · split
    · dsimp only
      omega
    · exact length_longDirected_le ..

theorem tail_when (r : Resolved) (p : Prop) : (r.when p).tail = r.tail := rfl

/-- No placeholder needs more than 181 words out of line. -/
theorem length_resolved_le (e : Setting) (u : RegisterUse) (targets : Word → Option Nat) (f : Fixup)
    (n : Nat) : (resolved e u targets f n).tail.length ≤ 181 := by
  have hleave := length_leaveItems_le e
  cases hk : f.kind with
  | branch =>
    cases ht : f.target <;> simp only [resolved, hk, ht]
    case address t => exact length_directed_le ..
    all_goals exact Nat.zero_le _
  | condBranch cond =>
    cases ht : f.target <;> simp only [resolved, hk, ht]
    case address t => exact length_condDirected_le ..
    all_goals exact Nat.zero_le _
  | call =>
    cases ht : f.target <;> simp only [resolved, hk, ht]
    case address t =>
      rw [tail_when]
      exact length_returning_le (length_callItems_le ..)
    all_goals exact Nat.zero_le _
  | indirectCall =>
    simp only [resolved, hk]
    exact length_returning_le (length_callItems_le ..)
  | indirectBranch =>
    cases ht : f.target <;> simp only [resolved, hk, ht]
    case register rm =>
      split
      · exact length_directed_le ..
      · simp only [leaving, List.length_cons]
        omega
    case none =>
      simp only [leaving]
      omega
    all_goals exact Nat.zero_le _
  | tableBranch halfword =>
    cases ht : f.target <;> simp only [resolved, hk, ht]
    case registers rn rm => exact Nat.le_succ_of_le (length_tableBranchItems_le ..)
    all_goals exact Nat.zero_le _
  | syncPoint =>
    simp only [resolved, hk]
    exact length_returning_le (length_syncPointItems_le ..)
  | softwareInterrupt imm =>
    simp only [resolved, hk]
    exact length_returning_le (length_trapItems_le _ _ _ _ (Nat.le_of_ble_eq_true rfl))
  | exception kind imm =>
    simp only [resolved, hk]
    exact length_returning_le (length_trapItems_le _ _ _ _ (Nat.le_of_ble_eq_true rfl))
  | timerRead =>
    cases ht : f.target <;> simp only [resolved, hk, ht]
    case registers rt rt2 =>
      rw [tail_when]
      exact length_returning_le (length_timerReadItems_le ..)
    all_goals exact Nat.zero_le _

theorem length_piece_le (e : Setting) (u : RegisterUse) (targets : Word → Option Nat) (k n : Nat)
    (x : Item) : (piece e u targets k n x).2.length ≤ 181 := by
  unfold piece
  split
  · exact length_resolved_le ..
  · exact Nat.zero_le _

theorem length_tailsOf_pieces_le (e : Setting) (u : RegisterUse) (targets : Word → Option Nat)
    (k n : Nat) (xs : List Item) :
    (tailsOf (pieces e u targets k n xs)).length ≤ 181 * xs.length := by
  induction xs generalizing k n with
  | nil => exact Nat.le_refl 0
  | cons x xs ih =>
    have hp := length_piece_le e u targets k n x
    have hrest := ih (k + 1) (n + (piece e u targets k n x).2.length)
    have hcons : tailsOf (pieces e u targets k n (x :: xs)) = (piece e u targets k n x).2 ++
        tailsOf (pieces e u targets (k + 1) (n + (piece e u targets k n x).2.length) xs) := rfl
    rw [hcons, List.length_append, List.length_cons]
    omega

/-! ### Instructions -/

theorem length_constant_le (n : Nat) (v : Word) : (Source.constant n v).load.length ≤ 2 := by
  unfold Source.constant
  split
  · exact Nat.zero_le _
  · exact length_loadWord_le _ _

theorem length_gpr_le (pcValue : Word) (n : Nat) (r : Guest.Gpr) :
    (Source.gpr pcValue n r).load.length ≤ 2 := by
  unfold Source.gpr
  split
  · exact length_constant_le _ _
  · exact Nat.zero_le _

theorem length_operand_le (pcValue : Word) (n : Nat) (o : Guest.Operand) :
    (Source.operand pcValue n o).load.length ≤ 2 := by
  cases o with
  | reg r => exact length_gpr_le _ _ _
  | imm v => exact length_constant_le _ _

theorem length_flagOps_le (result t : Host.Gpr) (carry : Option Bool) :
    (flagOps result t carry).length ≤ 7 := by
  rcases carry with _ | _ | _ <;> exact Nat.le_of_ble_eq_true rfl

theorem length_finishItems_le (c : Current) (d : Host.Gpr) (logical : Bool) (carry : Option Bool)
    (computed : Bool) : (finishItems c d logical carry computed).length ≤ 9 := by
  have hf := length_flagOps_le d (flagTemp d) carry
  have hl : (if logical then flagOps d (flagTemp d) carry else []).length ≤ 7 := by
    split
    · exact hf
    · exact Nat.zero_le _
  have hc : (if computed then computedItems d c else []).length ≤ 2 := by
    split
    · exact Nat.le_refl 2
    · exact Nat.zero_le _
  simp only [finishItems, List.length_append, length_ops]
  omega

theorem length_plainMoveItems_le (c : Current) (i : Guest.Instr) (rd : Guest.Gpr)
    (operand : Guest.Operand) (negate : Bool) :
    (plainMoveItems c i rd operand negate).length ≤ 14 := by
  have hf := length_finishItems_le c (target 0 rd) i.setsFlags i.shifterCarry? rd.isPc
  have hm : (moveOps c (if rd.isPc then 1 else 0) (target 0 rd) operand negate).length ≤ 3 := by
    cases operand with
    | reg rm =>
      have := length_gpr_le c.pcValue (if rd.isPc then 1 else 0) rm
      simp only [moveOps, List.length_append, List.length_singleton]
      omega
    | imm v => exact Nat.le_succ_of_le (length_loadWord_le _ _)
  simp only [plainMoveItems, List.length_append, length_ops]
  omega

/-- No instruction takes more than 14 words in its place. -/
theorem length_instrItems_le (config : Config) (i : Guest.Instr) :
    (instrItems config i).length ≤ 14 := by
  unfold instrItems items
  generalize currentOf i = c
  cases hk : i.kind with
  | alu op rd rn operand =>
    have ha := length_gpr_le c.pcValue 0 rn
    have hb := length_operand_le c.pcValue (Source.gpr c.pcValue 0 rn).temps operand
    have hf := length_finishItems_le c (target ((Source.gpr c.pcValue 0 rn).temps +
      (Source.operand c.pcValue (Source.gpr c.pcValue 0 rn).temps operand).temps) rd)
      (i.setsFlags && op.isLogical) i.shifterCarry? rd.isPc
    simp only [aluItems, List.length_append, length_ops, List.length_singleton]
    omega
  | move rd operand negate =>
    have hp := length_plainMoveItems_le c i rd operand negate
    cases operand with
    | imm v => exact hp
    | reg rm =>
      simp only [moveItems]
      split
      · exact Nat.le_of_ble_eq_true rfl
      · split
        · exact Nat.le_of_ble_eq_true rfl
        · exact hp
  | compare op rn operand =>
    have ha := length_gpr_le c.pcValue 0 rn
    have hb := length_operand_le c.pcValue (Source.gpr c.pcValue 0 rn).temps operand
    have hf : ∀ t, (flagOps t (flagTemp t) i.shifterCarry?).length ≤ 7 :=
      fun t => length_flagOps_le _ _ _
    simp only [compareItems, List.length_append, length_ops]
    have hf := hf (temp ((Source.gpr c.pcValue 0 rn).temps +
      (Source.operand c.pcValue (Source.gpr c.pcValue 0 rn).temps operand).temps))
    cases op <;> simp only [List.length_cons, List.length_nil] <;> omega
  | vmove dd dm =>
    simp only [vmoveItems, length_ops]
    split <;> exact Nat.le_of_ble_eq_true rfl
  | branchLink t =>
    have hl := length_loadWord_le (pinned .lr) (config.linkValue c.nextPc)
    simp only [linkOps, List.length_append, length_ops, List.length_singleton]
    omega
  | branchLinkExchange rm =>
    have hl := length_loadWord_le (pinned .lr) (config.linkValue c.nextPc)
    have ha := length_addressOps_le c.pcValue
    have ht : (if rm.isPc then addressOps c.pcValue
        else [.str .w (pinned rm) .context Record.dispatchAddress]).length ≤ 3 := by
      split
      · exact ha
      · exact Nat.le_of_ble_eq_true rfl
    simp only [linkOps, List.length_append, length_ops, List.length_singleton]
    omega
  | nop => exact Nat.zero_le _
  | ifThen firstcond mask => exact Nat.zero_le _
  | _ => exact Nat.le_of_ble_eq_true rfl

/-! ### Blocks -/

/-- What a part can take, by the number of its instructions. -/
def Part.limit : Part → Nat
  | check _ => 5
  | run _ is => 1 + 14 * is.length

/-- What parts can take. -/
def partsLimit (ps : List Part) : Nat := ps.foldr (fun p n => p.limit + n) 0

theorem length_flatMap_instrItems_le (config : Config) (is : List Guest.Instr) :
    (is.flatMap (instrItems config)).length ≤ 14 * is.length := by
  induction is with
  | nil => exact Nat.le_refl 0
  | cons i is ih =>
    have hi := length_instrItems_le config i
    rw [List.flatMap_cons, List.length_append, List.length_cons]
    omega

theorem length_regionItems_le (c : Cond) (xs : List Item) :
    (regionItems c xs).length ≤ 1 + xs.length := by
  unfold regionItems
  split
  · omega
  · rw [List.length_cons]
    omega

theorem length_partItems_le (config : Config) (p : Part) : (p.items config).length ≤ p.limit := by
  cases p with
  | check i => exact Nat.le_refl 5
  | run c is =>
    have h := length_flatMap_instrItems_le config is
    have hr := length_regionItems_le c (is.flatMap (instrItems config))
    simp only [Part.items, Part.limit]
    omega

theorem length_partsItems_le (config : Config) (ps : List Part) :
    (partsItems config ps).length ≤ partsLimit ps := by
  induction ps with
  | nil => exact Nat.le_refl 0
  | cons p ps ih =>
    have hp := length_partItems_le config p
    have hl : partsLimit (p :: ps) = p.limit + partsLimit ps := rfl
    rw [partsItems_cons, List.length_append, hl]
    omega

theorem limit_le_of_mem {p : Part} {ps : List Part} (h : p ∈ ps) : p.limit ≤ partsLimit ps := by
  induction ps with
  | nil => exact absurd h List.not_mem_nil
  | cons q ps ih =>
    have hl : partsLimit (q :: ps) = q.limit + partsLimit ps := rfl
    rcases List.mem_cons.mp h with rfl | h
    · omega
    · have := ih h
      omega

theorem partsLimit_cons_le (i : Guest.Instr) (ps : List Part) :
    partsLimit (Part.cons i ps) ≤ 15 + partsLimit ps := by
  have hrun : ∀ qs : List Part, partsLimit (.run (lowered i) [i] :: qs) = 15 + partsLimit qs :=
    fun qs => rfl
  unfold Part.cons
  split
  · exact Nat.le_of_eq (hrun ps)
  · unfold Part.attach
    split
    · split
      · simp only [partsLimit, List.foldr_cons, Part.limit, List.length_append, List.length_singleton]
        omega
      · exact Nat.le_of_eq (hrun _)
    · exact Nat.le_of_eq (hrun ps)

theorem partsLimit_parts_le (isLoopEnd : Bool) (is : List Guest.Instr) :
    partsLimit (parts isLoopEnd is) ≤ 15 * is.length + 5 := by
  induction is with
  | nil => exact Nat.zero_le _
  | cons i is ih =>
    unfold parts
    rw [List.length_cons]
    split
    · have := partsLimit_cons_le i []
      have hnil : partsLimit [] = 0 := rfl
      have hl : partsLimit (.check i :: Part.cons i []) = 5 + partsLimit (Part.cons i []) := rfl
      omega
    · have := partsLimit_cons_le i (parts isLoopEnd is)
      omega

theorem length_blockItems_le (config : Config) (b : Guest.Block) :
    (blockItems config b).length ≤ 15 * b.instrs.size + 5 :=
  Nat.le_trans (length_partsItems_le _ _) (partsLimit_parts_le _ b.instrs.toList)

/-- The instructions of blocks, counted. -/
def instrTotal (bs : List Guest.Block) : Nat := (bs.flatMap (·.instrs.toList)).length

theorem instrTotal_cons (b : Guest.Block) (bs : List Guest.Block) :
    instrTotal (b :: bs) = b.instrs.size + instrTotal bs := by
  simp only [instrTotal, List.flatMap_cons, List.length_append, Array.length_toList]

theorem size_le_instrTotal {b : Guest.Block} {bs : List Guest.Block} (h : b ∈ bs) :
    b.instrs.size ≤ instrTotal bs := by
  induction bs with
  | nil => exact absurd h List.not_mem_nil
  | cons c bs ih =>
    rw [instrTotal_cons]
    rcases List.mem_cons.mp h with rfl | h
    · omega
    · have := ih h
      omega

theorem length_itemsAfter_le (e : Setting) (finish : Word) (ended : Bool) (bs : List Guest.Block)
    (h : ∀ b ∈ bs, 0 < b.instrs.size) :
    (itemsAfter e finish ended bs).length ≤ 29 * instrTotal bs + 9 := by
  induction bs generalizing finish ended with
  | nil =>
    have hx := length_exitItems_le e finish
    unfold itemsAfter
    split
    · exact Nat.zero_le _
    · omega
  | cons b bs ih =>
    have hb := h b List.mem_cons_self
    have hi := ih b.finish (blockEnds b) fun c hc => h c (List.mem_cons_of_mem _ hc)
    have hl := length_blockItems_le e.config b
    have hg : (gapItems e finish ended b.start).length ≤ 9 := by
      unfold gapItems
      split
      · exact length_exitItems_le e finish
      · exact Nat.zero_le _
    rw [instrTotal_cons]
    simp only [itemsAfter, List.length_append]
    omega

theorem length_bodyItems_le (e : Setting) (bs : List Guest.Block)
    (h : ∀ b ∈ bs, 0 < b.instrs.size) : (bodyItems e bs).length ≤ 29 * instrTotal bs + 9 := by
  cases bs with
  | nil => exact Nat.zero_le _
  | cons b bs =>
    have hb := h b List.mem_cons_self
    have hi := length_itemsAfter_le e b.finish (blockEnds b) bs
      fun c hc => h c (List.mem_cons_of_mem _ hc)
    have hl := length_blockItems_le e.config b
    rw [instrTotal_cons]
    simp only [bodyItems, List.length_append]
    omega

/-! ### The prologue -/

theorem length_pushGprs_le (xs : List Host.Gpr) : (Frame.pushGprs xs).length ≤ xs.length := by
  fun_induction Frame.pushGprs xs with
  | case1 x y rest ih =>
    simp only [List.length_cons]
    omega
  | case2 x => exact Nat.le_refl 1
  | case3 => exact Nat.le_refl 0

/-- A prologue is never longer than 56 words. -/
theorem length_prologue_le (shape : Shape) (u : RegisterUse) :
    ((frameOf shape u).prologue u).length ≤ 56 := by
  have hg : u.savedGprs.size ≤ 10 := size_inter_le _ _
  have hv : u.savedVregs.size ≤ 8 := size_inter_le _ _
  have hp := length_pushGprs_le u.savedGprs.gprs
  have hl := length_loadFromRecord_le u
  have hs : ((frameOf shape u).spillMove (.subImm .x)).length ≤ 1 := by
    unfold Frame.spillMove
    split
    · exact Nat.le_refl 1
    · exact Nat.zero_le _
  have hgprs : u.savedGprs.gprs.length = u.savedGprs.size := List.length_map _
  have hvregs : u.savedVregs.vregs.length = u.savedVregs.size := List.length_map _
  simp only [Frame.prologue, Frame.push, List.length_append, List.length_map, List.length_cons,
    List.length_nil, frameOf] at hs ⊢
  omega

end Dynarec.Compile
