import Dynarec.Proofs.Resolve.Effect
import Dynarec.Proofs.Run.Condition
import Dynarec.Proofs.Usage.Listing

/-! # Words of a unit

Every word of a unit belongs to the prologue, to the room that the prologue leaves, to the body and
the sequences behind it, or to the trailer. Between the prologue and the trailer only three kinds of
words reach beyond the registers in use and the spill area: the checks of loops, which count down
the execution counter, the calls of the host, and the reload of the fixed pointers behind a call that
keeps nothing else. -/

namespace Dynarec.Emit

/-- The trace tells of the call that a fixup stands for: by a flag of its instruction, or by the
loop that ends there. -/
structure Fixup.Foreseen (t : Guest.Trace) (f : Fixup) : Prop where
  full : f.kind.tier? = some .full →
    (∃ b ∈ t.blocks.toList, b.isLoopEnd = true ∧
      ∃ i, b.instrs.toList.getLast? = some i ∧ i.address = f.pc) ∨
    ∃ i ∈ t.instrs, i.address = f.pc ∧ i.flags.hostCall = true
  skip : f.kind.tier? = some .skipContext →
    ∃ i ∈ t.instrs, i.address = f.pc ∧ i.flags.hostCallSkipContext = true

end Dynarec.Emit

namespace Dynarec.Compile

open Dynarec.Emit Dynarec.Host Dynarec.Lower Dynarec.Resolve

namespace Plan

/-- Where the words of a unit come from. -/
inductive At (p : Plan) : Nat → Host.Instr → Prop
  | prologue {k : Nat} {i : Host.Instr} (h : p.prologue[k]? = some i) : At p k i
  | skip (h : p.prologue.length < p.room) : At p p.prologue.length
      (.b (Instr.imm26 ((roomSkip p.prologue.length p.room).getD 0)).toInt)
  | spare {k : Nat} (hlo : p.prologue.length < k) (hhi : k < p.room) : At p k .nop
  | main {j : Nat} {i : Host.Instr} (h : (closeItems p.finish p.room p.main)[j]? = some i) :
      At p (p.room + j) i
  | trailer {j : Nat} {i : Host.Instr} (h : p.trailer[j]? = some i) : At p (p.finish + j) i

/-- The word at index `k` of the body or of a sequence keeps within what the unit has, or is one of
a check, or of a call. -/
inductive Uses (p : Plan) : Nat → Host.Instr → Prop
  | confined {k : Nat} {i : Host.Instr} (h : i.Confined p.use p.frame.spillBytes) : Uses p k i
  | check {pre post : List Part} {j : Guest.Instr} {n : Nat} {i : Host.Instr}
      (h : bodyParts p.blocks = pre ++ .check j :: post) (hi : syncOps[n]? = some i) :
      Uses p (p.room + (partsItems p.setting.config pre).length + n) i
  | call {ys zs : List Item} {x : Item} {f : Fixup} {st : Stub} {k : Nat} {i : Host.Instr}
      (h : p.body = ys ++ x :: zs) (hx : x.fixup? (p.room + ys.length) = some f)
      (hst : st.Confined p.setting p.use p.frame.spillBytes) (ht : f.kind.tier? = some st.tier)
      (htail : (resolved p.setting p.use p.targets f (p.tailAt ys)).tail =
        st.items p.setting p.use f (p.tailAt ys))
      (hi : st.Clobbers p.setting p.use (p.tailAt ys) k i) : Uses p k i

variable {p : Plan}

/-- Every word of the code that the host reads has its place. -/
theorem code_at (hf : p.Fits)
    (hmain : ∀ i ∈ closeItems p.finish p.room p.main, i.isCanonical = true) :
    AllFrom (fun k i => ∀ j, decode i.encode = some j → p.At k j) 0 p.code := by
  have hread : ∀ {i j : Host.Instr}, i.isCanonical = true → decode i.encode = some j → j = i := by
    intro i j hc hj
    exact Option.some.inj (hj.symm.trans (decode_encode hc))
  have hlen := length_front hf
  refine allFrom_append.mpr ⟨allFrom_append.mpr ⟨fun k i hk j hj => ?_, ?_⟩,
    allFrom_append.mpr ⟨fun k i hk j hj => ?_, fun k i hk j hj => ?_⟩⟩
  · cases hread (canonical_of_straight (straight_prologue p.frame p.use) i
      (List.mem_of_getElem? hk)) hj
    rw [Nat.zero_add]
    exact .prologue hk
  · split
    · rename_i hlt
      refine allFrom_cons.mpr ⟨fun j hj => ?_, fun k i hk j hj => ?_⟩
      · rw [decode_b_cut] at hj
        cases hj
        rw [Nat.zero_add]
        exact .skip hlt
      · have hlt := (List.getElem?_eq_some_iff.mp hk).1
        rw [List.length_replicate] at hlt
        rw [List.eq_of_mem_replicate (List.mem_of_getElem? hk)] at hj
        cases hread rfl hj
        exact .spare (by omega) (by omega)
    · exact allFrom_nil
  · cases hread (hmain i (List.mem_of_getElem? hk)) hj
    rw [hlen, Nat.zero_add]
    exact .main hk
  · have hc : i.isCanonical = true := by
      have hmem := List.mem_of_getElem? hk
      unfold trailer at hmem
      split at hmem
      · exact absurd hmem List.not_mem_nil
      · rw [trailer_eq] at hmem
        rcases List.mem_append.mp hmem with hmem | hmem
        · exact canonical_of_straight (straight_trailerOps p.frame p.use) i hmem
        · rw [List.mem_singleton.mp hmem]
          rfl
    cases hread hc hj
    rw [hlen, length_closeItems, Nat.zero_add]
    exact .trailer hk

end Plan

/-! ### Compiled units -/

theorem canonical_of_itemsLand {holes : Bool} {P : Nat → Nat → Prop} {k : Nat} {xs : List Item}
    (h : ItemsLand holes P k xs) {i : Host.Instr} (hi : .op i ∈ xs) : i.isCanonical = true := by
  obtain ⟨j, hj⟩ := List.mem_iff_getElem?.mp hi
  exact (h j _ hj).canonical

theorem itemReads_of_itemsLand {P : Nat → Nat → Prop} {k : Nat} {xs : List Item}
    (h : ItemsLand false P k xs) : ∀ x ∈ xs, itemReads x = true := by
  intro x hx
  cases x with
  | op i => exact canonical_of_itemsLand h hx
  | hole kind target c =>
    obtain ⟨j, hj⟩ := List.mem_iff_getElem?.mp hx
    cases h j _ hj
  | exit condition => rfl

theorem canonical_of_bodyFits {e : Setting} {bs : List Guest.Block} (h : BodyFits e bs)
    {i : Host.Instr} (hi : .op i ∈ bodyItems e bs) : i.isCanonical = true := by
  refine forall_bodyItems_of_blocks (Q := fun x => ∀ i, x = .op i → i.isCanonical = true)
    (fun guest x hx i heq => ?_) (fun b hb x hx i heq => ?_) _ hi i rfl
  · have hlands : ItemsLand false (fun _ _ => True) 0 (exitItems e guest) :=
      itemsLand_exitItems e guest
    exact canonical_of_itemsLand hlands (heq ▸ hx)
  · have hparts : PartsFit e.config (blockParts b) :=
      fun q hq => bodyFits_parts h q (List.mem_flatMap.mpr ⟨b, hb, hq⟩)
    have hlands : ItemsLand true (fun _ _ => True) 0 (blockItems e.config b) :=
      itemsLand_forward e.config hparts fun _ _ _ _ _ => trivial
    exact canonical_of_itemsLand hlands (heq ▸ hx)

namespace Built

variable {config : Config} {dispatch : DispatchTable} {t : Guest.Trace} {c : Compiled} {p : Plan}
  {s : Emission} (h : Built config dispatch t c p s)

include h

/-- Every item between the prologue and the trailer is read back. -/
theorem main_reads : ∀ x ∈ p.main, itemReads x = true := by
  have hmain : AllFrom (fun _ x => itemReads x = true) p.room p.main := by
    refine Plan.allFrom_main (fun ys x zs hbody hx => ?_) fun ys x zs f hbody hx => ?_
    · have hmem : x ∈ p.body := hbody ▸ List.mem_append_right _ List.mem_cons_self
      cases x with
      | op i => exact canonical_of_bodyFits h.fits.body hmem
      | hole kind target c => cases hx
      | exit condition => rfl
    · have hr := resolved_lands_anywhere (h.fits.hole hbody hx)
      exact ⟨hr.patch.canonical,
        fun j y hy => itemReads_of_itemsLand hr.tail y (List.mem_of_getElem? hy)⟩
  intro x hx
  obtain ⟨k, hk⟩ := List.mem_iff_getElem?.mp hx
  exact hmain k x hk

theorem main_canonical : ∀ i ∈ closeItems p.finish p.room p.main, i.isCanonical = true :=
  canonical_closeItems h.main_reads h.fits.exits

theorem at_of_instrAt? {k : Nat} {i : Host.Instr} (hi : instrAt? c.code k = some i) : p.At k i := by
  rw [instrAt?, ← Array.getElem?_toList, h.code, List.getElem?_map] at hi
  obtain ⟨w, hw, hi⟩ := Option.bind_eq_some_iff.mp hi
  obtain ⟨i₀, hi₀, rfl⟩ := Option.map_eq_some_iff.mp hw
  have hat := Plan.code_at h.fits h.main_canonical k i₀ hi₀ i hi
  rwa [Nat.zero_add] at hat

theorem prologueWords_eq : c.stats.prologueWords = p.prologue.length :=
  congrArg Stats.prologueWords h.stats

theorem found_prologue : Found (instrAt? c.code) 0 p.prologue :=
  h.found (allFrom_append.mp p.stands_front).1
    (canonical_of_straight (straight_prologue p.frame p.use))

end Built

end Dynarec.Compile

namespace Dynarec.Translated

open Dynarec.Emit Dynarec.Compile Dynarec.Host Dynarec.Lower Dynarec.Resolve

variable {options : Options} {dispatch : DispatchTable} {img : Guest.Image} {entry : Word}
  {c : Compiled} {t : Guest.Trace} {p : Plan} (h : Translated options dispatch img entry c t p)

include h

/-! ### Fixups -/

/-- The trace foresees every call of the body. -/
theorem foreseen : ∀ x ∈ p.body, ∀ k f, x.fixup? k = some f → f.Foreseen t := by
  refine forall_bodyItems (fun i k f hf => nomatch hf) (fun e k f hf => nomatch hf) ?_ ?_
  · intro b hb hloop i hi k f hf
    cases hf
    refine ⟨fun _ => .inl ⟨b, h.blocks ▸ hb, hloop, i, hi, rfl⟩, fun htier => ?_⟩
    cases htier
  · intro b hb i hi x hx k f hf
    obtain ⟨hhole, heq⟩ := hole?_of_mem hx hf
    have hr := h.regular b hb i hi
    have hmem : i ∈ t.instrs := by
      rw [h.instrs_eq]
      exact List.mem_flatMap.mpr ⟨b, hb, hi⟩
    have hpc : i.address = f.pc := congrArg Fixup.pc heq.symm
    obtain ⟨hfull, hskip, -⟩ := holeKind_of_hole? hhole
    refine ⟨fun htier => .inr ⟨i, hmem, hpc, hr.hostCall.trans (hfull htier)⟩, fun htier => ?_⟩
    rcases hskip htier with hhelped | ⟨rn, rm, halfword, htable⟩
    · exact ⟨i, hmem, hpc, hr.helped.trans hhelped⟩
    · exact absurd htable (hr.noTable rn rm halfword)

theorem hasHostCall_of_foreseen {f : Fixup} (hf : f.Foreseen t) (htier : f.kind.tier? = some .full) :
    t.hasHostCall = true := by
  rw [h.collected.hostCall, Bool.or_eq_true, Guest.Trace.any_instrs, ← Array.any_toList,
    List.any_eq_true]
  rcases hf.full htier with ⟨b, hb, hloop, -⟩ | ⟨i, hi, -, hflag⟩
  · exact .inr ⟨b, hb, hloop⟩
  · exact .inl ⟨i, hi, hflag⟩

theorem hasHostCallSkipContext_of_foreseen {f : Fixup} (hf : f.Foreseen t)
    (htier : f.kind.tier? = some .skipContext) : t.hasHostCallSkipContext = true := by
  rw [h.collected.skipContext, Guest.Trace.any_instrs]
  obtain ⟨i, hi, -, hflag⟩ := hf.skip htier
  exact ⟨i, hi, hflag⟩

/-- Every fixup of the body has what it needs. -/
theorem provided : ∀ x ∈ p.body, ∀ k f, x.fixup? k = some f →
    f.Provided p.use p.setting.shape p.frame.spillBytes := by
  have hroom : ∀ {f : Fixup}, f.Foreseen t → ∀ tier, f.kind.tier? = some tier →
      tier.needs p.setting.shape p.use ≤ p.frame.spillBytes := by
    intro f hf tier htier
    cases tier with
    | full => exact SpillLayout.used_compute_le p.use p.setting.shape
    | skipContext =>
      refine SpillLayout.skipBytes_le p.use p.setting.shape ?_
      rw [h.setting]
      exact h.hasHostCallSkipContext_of_foreseen hf htier
  have hall : ∀ x ∈ p.body, ∀ k f, x.fixup? k = some f → f.Foreseen t →
      f.Provided p.use p.setting.shape p.frame.spillBytes := by
    refine forall_bodyItems (fun i k f hf => nomatch hf) (fun e k f hf => nomatch hf) ?_ ?_
    · intro b hb hloop i hi k f hf hseen
      cases hf
      exact ⟨nothing_of_nil, nofun, hroom hseen⟩
    · intro b hb i hi x hx k f hf hseen
      exact provided_of_hole? (h.inUse b hb i hi) (hole?_of_mem hx hf).1 (hroom hseen)
  exact fun x hx k f hf => hall x hx k f hf (h.foreseen x hx k f hf)

/-! ### Words -/

theorem prologueWords_eq : c.stats.prologueWords = p.prologue.length :=
  congrArg Stats.prologueWords h.stats

theorem found_prologue : Found (instrAt? c.code) 0 p.prologue := by
  obtain ⟨s, hbuilt⟩ := h.built
  exact hbuilt.found_prologue

/-- The finished items of the body. -/
theorem body_uses {ys zs : List Item} {i : Host.Instr} (hbody : p.body = ys ++ .op i :: zs) :
    p.Uses (p.room + ys.length) i := by
  obtain ⟨z, hz⟩ := h.chain
  have hall : AllFrom (fun k x => ∀ i, x = .op i → p.Uses k i) p.room p.body := by
    rw [h.body_eq hz]
    refine allFrom_append.mpr ⟨allFrom_flatMap fun pre q post hparts => ?_, fun n x hx i hi => ?_⟩
    · cases q with
      | check j =>
        refine allFrom_append.mpr
          ⟨fun n x hx i hi => ?_, allFrom_singleton.mpr fun i hi => by cases hi⟩
        rw [ops, List.getElem?_map] at hx
        obtain ⟨o, ho, rfl⟩ := Option.map_eq_some_iff.mp hx
        cases hi
        exact .check hparts ho
      | run cond is =>
        have hrun : ∀ i ∈ is, i.Regular ∧ InUse p.use i := by
          intro i hi
          obtain ⟨b, hb, js, ks, hbs⟩ := run_block hparts
          have hmem : i ∈ b.instrs.toList := by
            rw [hbs]
            exact List.mem_append_right _ (List.mem_append_left _ hi)
          exact ⟨h.regular b hb i hmem, h.inUse b hb i hmem⟩
        exact fun n x hx i hi => .confined
          (itemsConfined_run hrun (run_uniform hparts) i (hi ▸ List.mem_of_getElem? hx))
    · have hmem := List.mem_of_getElem? hx
      unfold endItems at hmem
      split at hmem
      · exact absurd hmem List.not_mem_nil
      · exact .confined (itemsConfined_exitItems p.setting z i (hi ▸ hmem))
  exact hall ys.length _ (getElem?_of_split hbody) i rfl

/-- Everything between the prologue and the trailer. -/
theorem main_uses : AllFrom p.Uses p.room (closeItems p.finish p.room p.main) := by
  have hmain : AllFrom (fun k x => ∀ i, x = .op i → p.Uses k i) p.room p.main := by
    refine Plan.allFrom_main (fun ys x zs hbody hx i hi => ?_) fun ys x zs f hbody hx => ?_
    · subst hi
      exact h.body_uses hbody
    · have hmem : x ∈ p.body := hbody ▸ List.mem_append_right _ List.mem_cons_self
      obtain ⟨hpatch, htail⟩ := confined_resolved (n := p.tailAt ys)
        (h.provided x hmem _ f hx)
      refine ⟨fun i hi => ?_, fun n y hy i hi => ?_⟩
      · cases hi
        exact .confined hpatch
      · rcases htail with htail | ⟨st, hst, htier, htail⟩
        · exact .confined (htail i (hi ▸ List.mem_of_getElem? hy))
        · have hy' := hy
          rw [htail] at hy'
          exact (hst.items n y hy' i hi).elim .confined (.call hbody hx hst htier htail)
  refine allFrom_closeItems fun n x hx => ?_
  cases x with
  | op i => exact hmain n _ hx i rfl
  | hole kind target e =>
    obtain ⟨s, hbuilt⟩ := h.built
    cases hbuilt.main_reads _ (List.mem_of_getElem? hx)
  | exit condition => exact .confined (confined_b _)

theorem at_of_instrAt? {k : Nat} {i : Host.Instr} (hi : instrAt? c.code k = some i) : p.At k i := by
  obtain ⟨s, hbuilt⟩ := h.built
  exact hbuilt.at_of_instrAt? hi

theorem uses_of_instrAt? {k : Nat} {i : Host.Instr} (hi : instrAt? c.code k = some i)
    (hlo : c.stats.prologueWords ≤ k) (hhi : ∀ n, c.stats.trailer = some n → k < n) :
    p.Uses k i := by
  have htrailer : c.stats.trailer = if p.exits = [] then none else some p.finish :=
    congrArg Stats.trailer h.stats
  rw [h.prologueWords_eq] at hlo
  rw [htrailer] at hhi
  cases h.at_of_instrAt? hi with
  | prologue hk =>
    have hlt := (List.getElem?_eq_some_iff.mp hk).1
    omega
  | skip _ => exact .confined (confined_b _)
  | spare _ _ => exact .confined confined_nop
  | main hj => exact h.main_uses _ _ hj
  | trailer hj =>
    unfold Plan.trailer at hj
    split at hj
    · cases hj
    · rename_i hx
      have hlt := hhi p.finish (if_neg hx)
      omega

end Dynarec.Translated
