import Dynarec.Proofs.Flow.Sites

/-! # The ends of a body and of its sequences

Control does not run past the body of a unit: it ends in an exit, or in an instruction that never
falls through, whose placeholder becomes a branch. Some way always leads to the trailer. -/

namespace Dynarec.Compile

open Dynarec.Emit Dynarec.Lower Dynarec.Resolve

/-! ### All pieces -/

/-- Sequences that control does not run past, side by side. -/
theorem ended_tailsOf {ps : List (Item × List Item)} (h : ∀ q ∈ ps, Ended q.2) :
    Ended (tailsOf ps) := by
  induction ps with
  | nil => exact ended_nil
  | cons q ps ih =>
    obtain ⟨hq, hps⟩ := List.forall_mem_cons.mp h
    exact hq.append (ih hps)

/-! ### The last instruction -/

theorem cons_ends (j : Guest.Instr) {ps qs : List Part} {c : Cond} {is : List Guest.Instr}
    {i : Guest.Instr} (h : ps = qs ++ [.run c (is ++ [i])]) :
    ∃ qs' is', Part.cons j ps = qs' ++ [.run c (is' ++ [i])] := by
  subst h
  unfold Part.cons
  split
  · exact ⟨_ :: qs, is, rfl⟩
  · cases qs with
    | nil =>
      simp only [List.nil_append, Part.attach]
      split
      · rename_i hc
        exact ⟨[], j :: is, by rw [hc]; rfl⟩
      · exact ⟨[_], is, rfl⟩
    | cons q qs =>
      cases q with
      | check k => exact ⟨_ :: _ :: qs, is, rfl⟩
      | run c' ks =>
        simp only [List.cons_append, Part.attach]
        split
        · exact ⟨_ :: qs, is, rfl⟩
        · exact ⟨_ :: _ :: qs, is, rfl⟩

/-- The last part of a block ends with the last instruction. -/
theorem parts_ends (isLoopEnd : Bool) (init : List Guest.Instr) (i : Guest.Instr) :
    ∃ qs c is, parts isLoopEnd (init ++ [i]) = qs ++ [.run c (is ++ [i])] := by
  induction init with
  | nil =>
    simp only [List.nil_append, parts, Part.cons_nil]
    split
    · exact ⟨[_], _, [], rfl⟩
    · exact ⟨[], _, [], rfl⟩
  | cons j init ih =>
    obtain ⟨qs, c, is, his⟩ := ih
    have hne : (init ++ [i]).isEmpty = false := by
      cases init <;> rfl
    obtain ⟨qs', is', h'⟩ := cons_ends j his
    refine ⟨qs', c, is', ?_⟩
    simp only [List.cons_append, parts, hne, Bool.and_false, Bool.false_eq_true, if_false]
    exact h'

/-- The items of a block end with those of its last instruction. -/
theorem blockItems_ends (config : Config) {b : Guest.Block} {init : List Guest.Instr}
    {i : Guest.Instr} (h : b.instrs.toList = init ++ [i]) :
    ∃ ys, blockItems config b = ys ++ instrItems config i := by
  obtain ⟨qs, c, is, hparts⟩ := parts_ends b.isLoopEnd init i
  have hregion : ∃ ys, regionItems c ((is ++ [i]).flatMap (instrItems config)) =
      ys ++ instrItems config i := by
    have hflat : (is ++ [i]).flatMap (instrItems config) =
        is.flatMap (instrItems config) ++ instrItems config i := by
      rw [List.flatMap_append, List.flatMap_singleton]
    unfold regionItems
    rw [hflat]
    split
    · exact ⟨_, rfl⟩
    · exact ⟨_ :: _, rfl⟩
  obtain ⟨ys, hys⟩ := hregion
  refine ⟨partsItems config qs ++ ys, ?_⟩
  have hlast : partsItems config [.run c (is ++ [i])] =
      regionItems c ((is ++ [i]).flatMap (instrItems config)) := List.append_nil _
  rw [blockItems, blockParts, h, hparts, partsItems_append, hlast, hys, List.append_assoc]

/-- The fixups of unconditional instructions behind which control never passes on. -/
inductive Departs : FixupKind → FixupTarget → Prop
  | branch (t : Word) : Departs .branch (.address t)
  | computed : Departs .indirectBranch .none
  | register (rm : Guest.Gpr) : Departs .indirectBranch (.register rm)
  | table (rn rm : Guest.Gpr) (halfword : Bool) : Departs (.tableBranch halfword) (.registers rn rm)

theorem departs_of_leaves {c : Current} {i : Guest.Instr} (hl : i.kind.leaves = true)
    (hc : c.cond.isAlways = true) :
    ∃ kind target, hole? c i = some (kind, target) ∧ Departs kind target := by
  cases hk : i.kind with
  | alu op rd rn operand =>
    simp only [hk, Guest.Kind.leaves, Guest.Kind.writesPc] at hl
    simp only [hole?, hk, hl, if_true]
    exact ⟨_, _, rfl, .computed⟩
  | move rd operand negate =>
    simp only [hk, Guest.Kind.leaves, Guest.Kind.writesPc] at hl
    cases operand with
    | imm v =>
      simp only [hole?, hk, hl, if_true]
      exact ⟨_, _, rfl, .computed⟩
    | reg rm =>
      simp only [hole?, hk, hl, Bool.true_and, if_true]
      split
      · exact ⟨_, _, rfl, .register rm⟩
      · exact ⟨_, _, rfl, .computed⟩
  | branch t =>
    simp only [hole?, hk, hc, if_true]
    exact ⟨_, _, rfl, .branch t⟩
  | branchExchange rm =>
    simp only [hole?, hk]
    exact ⟨_, _, rfl, .register rm⟩
  | tableBranch rn rm halfword =>
    simp only [hole?, hk]
    exact ⟨_, _, rfl, .table rn rm halfword⟩
  | _ => simp [hk, Guest.Kind.leaves, Guest.Kind.writesPc] at hl

section Departing

variable {e : Setting} {u : RegisterUse} {targets : Word → Option Nat} {f : Fixup} {n : Nat}

theorem directed_departs {site : Nat} {t : Word} (ht : targets t ≠ some (site + 1)) :
    (directed e targets site n t).patch.falls = false := by
  unfold directed
  cases hi : targets t with
  | none => rfl
  | some index =>
    have hne : displacement site index ≠ 1 := by
      intro h
      refine ht (hi.trans (congrArg some ?_))
      unfold displacement at h
      omega
    simp only [hne, if_false]
    split <;> rfl

/-- The placeholder becomes a branch, unless the target comes right behind it. -/
theorem resolved_departs (hd : Departs f.kind f.target)
    (ht : ∀ a, goal? f = some a → targets a ≠ some (f.site + 1)) :
    (resolved e u targets f n).patch.falls = false := by
  obtain ⟨kind, target, site, pc, nextPc, pcValue⟩ := f
  cases hd with
  | branch t => exact directed_departs (ht t rfl)
  | computed => rfl
  | register rm =>
    simp only [resolved]
    cases hpc : rm.isPc with
    | true =>
      simp only [if_true]
      exact directed_departs (ht pcValue (by simp only [goal?, hpc, if_true]))
    | false => rfl
  | table rn rm halfword => rfl

theorem exit_mem_exitItems (guest : Word) : .exit .always ∈ exitItems e guest :=
  List.mem_append_right _ List.mem_cons_self

theorem exit_mem_leaveItems : .exit .always ∈ leaveItems e :=
  List.mem_append_right _ List.mem_cons_self

/-- Unless the target is a block of the unit, the placeholder leads to an exit. -/
theorem exit_mem_departs (hd : Departs f.kind f.target)
    (ht : ∀ a, goal? f = some a → targets a = none) :
    .exit .always ∈ (resolved e u targets f n).tail := by
  have hdirected : ∀ {site : Nat} {t : Word}, targets t = none →
      .exit .always ∈ (directed e targets site n t).tail := by
    intro site t h
    simp only [directed, h]
    exact exit_mem_exitItems t
  obtain ⟨kind, target, site, pc, nextPc, pcValue⟩ := f
  cases hd with
  | branch t => exact hdirected (ht t rfl)
  | computed => exact exit_mem_leaveItems
  | register rm =>
    simp only [resolved]
    cases hpc : rm.isPc with
    | true =>
      simp only [if_true]
      exact hdirected (ht pcValue (by simp only [goal?, hpc, if_true]))
    | false => exact List.mem_cons_of_mem _ exit_mem_leaveItems
  | table rn rm halfword => exact List.mem_append_right _ exit_mem_leaveItems

/-- A check leads to an exit. -/
theorem exit_mem_syncPoint (hk : f.kind = .syncPoint) :
    .exit (.nonzero .scratch) ∈ (resolved e u targets f n).tail := by
  simp only [resolved, hk]
  exact List.mem_append_left _ (List.mem_append_right _
    (List.mem_append_right _ List.mem_cons_self))

end Departing

end Dynarec.Compile

namespace Dynarec.Compile

open Dynarec.Emit Dynarec.Lower Dynarec.Resolve

theorem fitsAfter_block {e : Setting} {finish : Word} {ended : Bool} {bs : List Guest.Block}
    (h : FitsAfter e finish ended bs) : ∀ b ∈ bs, PartsFit e.config (blockParts b) := by
  induction bs generalizing finish ended with
  | nil => exact fun b hb => absurd hb List.not_mem_nil
  | cons c bs ih => exact List.forall_mem_cons.mpr ⟨h.2.1, ih h.2.2⟩

theorem bodyFits_parts {e : Setting} {bs : List Guest.Block} (h : BodyFits e bs) :
    PartsFit e.config (bodyParts bs) := by
  have hblocks : ∀ b ∈ bs, PartsFit e.config (blockParts b) := by
    cases bs with
    | nil => exact fun b hb => absurd hb List.not_mem_nil
    | cons c bs => exact List.forall_mem_cons.mpr ⟨h.1, fitsAfter_block h.2⟩
  intro p hp
  obtain ⟨b, hb, hp⟩ := List.mem_flatMap.mp hp
  exact hblocks b hb p hp

theorem exitsFrom_ne_nil {condition : ExitCondition} {xs : List Item} {k : Nat}
    (h : .exit condition ∈ xs) : exitsFrom k xs ≠ [] := by
  induction xs generalizing k with
  | nil => exact absurd h List.not_mem_nil
  | cons x xs ih =>
    rcases List.mem_cons.mp h with rfl | h
    · exact List.cons_ne_nil _ _
    · exact List.append_ne_nil_of_right_ne_nil _ (ih h)

namespace Plan

variable {p : Plan}

theorem finish_eq : p.finish = p.room + p.body.length + (tailsOf p.pieces).length := by
  have hitems : (itemsOf p.pieces).length = p.body.length := p.length_itemsOf_piecesAt [] p.body
  rw [finish, main, List.length_append, hitems, Nat.add_assoc]

/-- The sequence of a placeholder ends before the trailer. -/
theorem tailAt_le {ys zs : List Item} {x : Item} (h : p.body = ys ++ x :: zs) :
    p.tailAt (ys ++ [x]) ≤ p.finish := by
  have hat : p.tailAt (ys ++ [x]) = p.tailAt [] + _ := p.tailAt_append [] (ys ++ [x])
  have hall : p.pieces = p.piecesAt [] (ys ++ [x]) ++ p.piecesAt ([] ++ (ys ++ [x])) zs := by
    rw [pieces_eq_piecesAt, h, List.append_cons, piecesAt_append]
  rw [finish_eq, hall, tailsOf_append, List.length_append, hat,
    show p.tailAt [] = p.room + p.body.length from rfl]
  omega

theorem mem_main_of_tail {ys zs : List Item} {x y : Item} (h : p.body = ys ++ (x :: zs)) {f : Fixup}
    (hf : x.fixup? (p.room + ys.length) = some f)
    (hy : y ∈ (resolved p.setting p.use p.targets f (p.tailAt ys)).tail) : y ∈ p.main := by
  refine List.mem_append_right _ ?_
  rw [← List.singleton_append] at h
  rw [pieces_eq h, tailsOf_append, tailsOf_append, piecesAt_hole hf]
  exact List.mem_append_right _ (List.mem_append_left _ (List.mem_append_left _ hy))

theorem exits_ne_nil {condition : ExitCondition} (h : .exit condition ∈ p.main) : p.exits ≠ [] :=
  exitsFrom_ne_nil h

/-- An exit of the body stays one. -/
theorem exits_ne_nil_of_body {condition : ExitCondition} (h : .exit condition ∈ p.body) :
    p.exits ≠ [] := by
  rw [exits, main, exitsFrom_append]
  refine List.append_ne_nil_of_left_ne_nil ?_ _
  rw [pieces, exitsFrom_itemsOf_pieces]
  exact exitsFrom_ne_nil h

end Plan

end Dynarec.Compile

namespace Dynarec.Translated

open Dynarec.Emit Dynarec.Lower Dynarec.Resolve Dynarec.Compile

variable {options : Options} {dispatch : DispatchTable} {img : Guest.Image} {entry : Word}
  {c : Compiled} {t : Guest.Trace} {p : Plan}

section

variable (h : Translated options dispatch img entry c t p)

include h

/-- Where control never passes on behind the last block, its last item is a placeholder that
becomes a branch. -/
theorem body_departs (he : endsAfter false p.blocks = true) :
    ∃ pre b init i ys kind target, p.blocks = pre ++ [b] ∧ b.instrs.toList = init ++ [i] ∧
      i.cond = .al ∧ hole? (currentOf i) i = some (kind, target) ∧ Departs kind target ∧
      p.body = ys ++ [.hole kind target (currentOf i)] := by
  obtain ⟨z, hz⟩ := h.chain
  unfold endsAfter at he
  cases hlast : p.blocks.getLast? with
  | none =>
    rw [hlast] at he
    cases he
  | some b =>
    rw [hlast] at he
    have hb : blockEnds b = true := he
    obtain ⟨pre, hpre⟩ := List.getLast?_eq_some_iff.mp hlast
    unfold blockEnds at hb
    cases hi : b.instrs.toList.getLast? with
    | none =>
      rw [hi] at hb
      cases hb
    | some i =>
      rw [hi] at hb
      have hends : (i.cond.isAlways && i.kind.leaves) = true := hb
      rw [Bool.and_eq_true] at hends
      obtain ⟨init, hinit⟩ := List.getLast?_eq_some_iff.mp hi
      obtain ⟨kind, target, hhole, hd⟩ := departs_of_leaves (c := currentOf i) hends.2 hends.1
      obtain ⟨ys, hys⟩ := blockItems_ends p.setting.config hinit
      obtain ⟨is, -, his⟩ := items_eq p.setting.config (currentOf i) i
      have hal : i.cond = .al := by
        cases hc : i.cond with
        | al => rfl
        | _ =>
          rw [hc] at hends
          cases hends.1
      refine ⟨pre, b, init, i, partsItems p.setting.config (bodyParts pre) ++ ys ++ ops is, kind,
        target, hpre, hinit, hal, hhole, hd, ?_⟩
      have hfalse : endsAfter false p.blocks = true := by
        rw [endsAfter, hlast]
        exact he
      have hinstr : instrItems p.setting.config i = ops is ++ [.hole kind target (currentOf i)] := by
        unfold instrItems
        rw [his, holeItems, hhole]
        rfl
      rw [h.body_eq hz, hfalse, hpre, partsItems_bodyParts, partsItems_bodyParts,
        List.flatMap_append, List.flatMap_singleton, hys, hinstr]
      simp only [endItems, if_true, List.append_nil, List.append_assoc]

/-- At the end of a loop the body has a check. -/
theorem body_sync {pre post : List Guest.Block} {b : Guest.Block} (hpre : p.blocks = pre ++ b :: post)
    {m : Word} (hs : b.Sound m) {init : List Guest.Instr} {i : Guest.Instr}
    (hi : b.instrs.toList = init ++ [i]) (hback : Guest.Scan.isBackward i = true) :
    ∃ ys zs, p.body = ys ++ (.hole .syncPoint .none (currentOf i) :: zs) := by
  obtain ⟨z, hz⟩ := h.chain
  obtain ⟨init', i', hi', -, hloop⟩ := hs.last
  obtain ⟨-, hii⟩ := List.append_inj' (hi.symm.trans hi') rfl
  cases hii
  have hmem : Item.hole .syncPoint .none (currentOf i) ∈ blockItems p.setting.config b := by
    rw [blockItems, blockParts, hi, hloop.trans hback, parts_loopEnd, partsItems_append,
      partsItems_cons]
    exact List.mem_append_right _ (List.mem_append_left _
      (List.mem_append_right _ List.mem_cons_self))
  refine List.append_of_mem ?_
  rw [h.body_eq hz, hpre, partsItems_bodyParts, List.flatMap_append, List.flatMap_cons]
  exact List.mem_append_left _ (List.mem_append_right _ (List.mem_append_left _ hmem))

/-- Everything between the prologue and the trailer keeps control where the parts and the
placeholders of the body are allowed to. -/
theorem main_lands_of {P : Nat → Nat → Prop}
    (hparts : ItemsLand true P p.room (partsItems p.setting.config (bodyParts p.blocks)))
    (ha : ∀ ys x zs f, p.body = ys ++ x :: zs → x.fixup? (p.room + ys.length) = some f →
      Allowed P p.targets f (p.tailAt ys) (p.tailAt (ys ++ [x]))) :
    ItemsLand false P p.room p.main := by
  obtain ⟨z, hz⟩ := h.chain
  have hbody : ItemsLand true P p.room p.body := by
    rw [h.body_eq hz]
    refine hparts.append ?_
    unfold endItems
    split
    · exact allFrom_nil
    · exact itemsLand_exitItems p.setting z
  refine Plan.allFrom_main (fun ys x zs hsplit hx => ?_) fun ys x zs f hsplit hx => ?_
  · have hlands : ItemLands true P (p.room + ys.length) x :=
      hbody ys.length x (getElem?_of_split hsplit)
    cases x with
    | op i => exact hlands
    | exit c => trivial
    | hole kind target c => cases hx
  · have hr := resolved_lands (ha ys x zs f hsplit hx) (h.fits.hole hsplit hx)
      (Nat.le_of_eq (Plan.tailAt_hole hx).symm)
    exact ⟨(fixup?_eq_some hx).1 ▸ hr.patch, hr.tail⟩

/-- Control does not run past a sequence. -/
theorem pieces_ended : ∀ q ∈ p.pieces, Ended q.2 := by
  intro q hq
  obtain ⟨ys, x, zs, hsplit, hpiece⟩ := Plan.mem_pieces hq
  cases hx : x.fixup? (p.room + ys.length) with
  | none =>
    simp only [Plan.piecesAt, Resolve.pieces, piece, hx, List.cons.injEq, and_true] at hpiece
    rw [← hpiece]
    exact ended_nil
  | some f =>
    rw [Plan.piecesAt_hole hx] at hpiece
    have hany : Allowed (fun _ _ => True) p.targets f (p.tailAt ys) (p.tailAt (ys ++ [x])) :=
      ⟨fun _ => trivial, fun _ _ _ _ _ => trivial, fun _ _ _ _ => trivial,
        fun _ _ _ _ => ⟨trivial, fun _ _ _ => trivial⟩⟩
    have hr := resolved_lands hany (h.fits.hole hsplit hx) (Nat.le_of_eq (Plan.tailAt_hole hx).symm)
    rw [← List.head_eq_of_cons_eq hpiece]
    exact hr.ended

/-- Control does not run past the body. -/
theorem body_ended : Ended (itemsOf p.pieces) := by
  cases he : endsAfter false p.blocks with
  | false =>
    obtain ⟨z, hz⟩ := h.chain
    have hbody : p.body = partsItems p.setting.config (bodyParts p.blocks) ++
        (ops (addressOps z ++ dispatchOps p.setting (some z)) ++ [.exit .always]) := by
      rw [h.body_eq hz, he]
      rfl
    rw [← List.append_assoc] at hbody
    rw [Plan.pieces_eq_piecesAt, hbody, Plan.piecesAt_append, itemsOf_append, List.nil_append]
    have hlast : itemsOf (p.piecesAt (partsItems p.setting.config (bodyParts p.blocks) ++
        ops (addressOps z ++ dispatchOps p.setting (some z))) [.exit .always]) =
        [.exit .always] := rfl
    rw [hlast]
    exact ended_snoc _ rfl
  | true =>
    obtain ⟨pre, b, init, i, ys, kind, target, -, -, -, -, hd, hbody⟩ := h.body_departs he
    let f : Fixup := ⟨kind, target, p.room + ys.length, i.address, i.nextPc, i.pcReadValue⟩
    have hf : (Item.hole kind target (currentOf i)).fixup? (p.room + ys.length) = some f := rfl
    have hfalls : (resolved p.setting p.use p.targets f (p.tailAt ys)).patch.falls = false := by
      refine resolved_departs hd fun a _ ha => ?_
      have hlt := (h.targets_bounds ha).2
      rw [hbody, List.length_append, List.length_singleton] at hlt
      exact Nat.lt_irrefl _ (Nat.lt_of_lt_of_eq hlt rfl)
    rw [Plan.pieces_eq_piecesAt, hbody, Plan.piecesAt_append, itemsOf_append, List.nil_append,
      Plan.piecesAt_hole hf]
    exact ended_snoc _ hfalls

end

section

variable (h : Translated options dispatch img entry c t p) (hf : img.finish < wordCount)
  (hb : c.guestBytes < 0xFFFFFFFC)

include h hf hb

/-- Where the last instruction branches to a block of the unit, it branches back. -/
theorem backward_of_last {pre : List Guest.Block} {b : Guest.Block} (hpre : p.blocks = pre ++ [b])
    {init : List Guest.Instr} {i : Guest.Instr} (hi : b.instrs.toList = init ++ [i]) {a : Word}
    (ha : Aims i a) (ht : p.targets a ≠ none) : Guest.Scan.isBackward i = true := by
  obtain ⟨index, hindex⟩ := Option.ne_none_iff_exists'.mp ht
  obtain ⟨pre', b', post', hpre', rfl, -⟩ := h.targets_eq_some hindex
  rcases block_cases hpre hpre' with ⟨cs, hcs⟩ | ⟨cs, hcs⟩
  · exact h.backward_of_aims hf hb hpre hcs hpre' hi ha
  · have hlen := congrArg List.length (hpre.symm.trans hpre')
    rw [hcs] at hlen
    simp only [List.length_append, List.length_cons, List.length_nil] at hlen
    omega

/-- Some way leads to the trailer: an exit behind the body, or the one that its last instruction
takes, or the one of the check before it. -/
theorem exits_ne_nil : p.exits ≠ [] := by
  obtain ⟨z, hz⟩ := h.chain
  cases he : endsAfter false p.blocks with
  | false =>
    have hmem : Item.exit .always ∈ p.body := by
      rw [h.body_eq hz, he]
      exact List.mem_append_right _ (exit_mem_exitItems z)
    exact Plan.exits_ne_nil_of_body hmem
  | true =>
    obtain ⟨pre, b, init, i, ys, kind, target, hpre, hinit, -, hhole, hd, hbody⟩ :=
      h.body_departs he
    let f : Fixup := ⟨kind, target, p.room + ys.length, i.address, i.nextPc, i.pcReadValue⟩
    have hfix : (Item.hole kind target (currentOf i)).fixup? (p.room + ys.length) = some f := rfl
    have hexit : (∀ a, goal? f = some a → p.targets a = none) → p.exits ≠ [] := fun ht =>
      Plan.exits_ne_nil (p.mem_main_of_tail hbody hfix (exit_mem_departs hd ht))
    cases hg : goal? f with
    | none => exact hexit fun a ha => nomatch hg.symm.trans ha
    | some a =>
      by_cases ht : p.targets a = none
      · refine hexit fun a' ha => ?_
        cases hg.symm.trans ha
        exact ht
      · have hmem : b ∈ p.blocks := hpre ▸ List.mem_append_right _ List.mem_cons_self
        have himem : i ∈ b.instrs.toList := hinit ▸ List.mem_append_right _ List.mem_cons_self
        have haims := aims_of_hole? (h.regular b hmem i himem) hhole hg
        have hback := h.backward_of_last hf hb hpre hinit haims ht
        obtain ⟨m, hs⟩ := Guest.Chain.sound (hpre ▸ hz)
        obtain ⟨ys', zs, hsync⟩ := h.body_sync hpre hs hinit hback
        exact Plan.exits_ne_nil (p.mem_main_of_tail hsync rfl (exit_mem_syncPoint rfl))

/-- Everything between the prologue and the trailer keeps control there or leads to the trailer. -/
theorem main_lands : ItemsLand false (Host.Within p.room p.finish) p.room p.main := by
  obtain ⟨z, hz⟩ := h.chain
  have hfinish := p.finish_eq
  refine h.main_lands_of (itemsLand_forward p.setting.config (bodyFits_parts h.fits.body) ?_) ?_
  · have hlen : (partsItems p.setting.config (bodyParts p.blocks)).length ≤ p.body.length := by
      rw [h.body_eq hz, List.length_append]
      omega
    exact fun j m hj hjm hm => ⟨by omega, by omega, by omega⟩
  · intro ys x zs f hsplit hx
    have hlt := congrArg List.length hsplit
    rw [List.length_append, List.length_cons] at hlt
    have hsite := (fixup?_eq_some hx).1
    have hlo := p.le_tailAt ys
    have hhi := p.tailAt_le hsplit
    refine ⟨fun _ => ⟨by omega, by omega, by omega⟩,
      fun j m _ _ _ => ⟨by omega, by omega, by omega⟩,
      fun _ j _ _ => ⟨by omega, by omega, by omega⟩, fun a ha index hindex => ?_⟩
    obtain ⟨hlo, hhi⟩ := h.targets_bounds hindex
    have hne : index ≠ f.site := by
      rintro rfl
      exact h.apart hf hb ys.length x (getElem?_of_split hsplit) f hx a ha (hsite ▸ hindex)
    exact ⟨⟨by omega, by omega, by omega⟩, fun j _ _ => ⟨by omega, by omega, by omega⟩⟩

end

end Dynarec.Translated
