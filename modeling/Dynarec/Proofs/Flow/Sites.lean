import Dynarec.Proofs.Body.Chain
import Dynarec.Proofs.Flow.Landing
import Dynarec.Proofs.Guest.Address
import Dynarec.Proofs.Translation

/-! # No branch to itself

A direct branch is the last instruction of its block, so its placeholder is the start of a block
only if nothing of its block stands before it. One that branches back has the check of a loop end
before it, and one that branches forward leads to a later block. -/

namespace Dynarec.Compile

open Dynarec.Emit Dynarec.Lower Dynarec.Resolve

/-! ### Parts of a loop end -/

theorem cons_append_check (j i : Guest.Instr) (ps qs : List Part) :
    Part.cons j (ps ++ .check i :: qs) = Part.cons j ps ++ .check i :: qs := by
  unfold Part.cons
  split
  · rfl
  · cases ps with
    | nil => rfl
    | cons p ps =>
      cases p with
      | check k => rfl
      | run c is =>
        simp only [List.cons_append, Part.attach]
        split <;> rfl

/-- The check of a loop end stands between the last instruction and the others. -/
theorem parts_loopEnd (init : List Guest.Instr) (i : Guest.Instr) :
    parts true (init ++ [i]) = parts false init ++ .check i :: Part.cons i [] := by
  induction init with
  | nil => rfl
  | cons j init ih =>
    have hne : (init ++ [i]).isEmpty = false := by
      cases init <;> rfl
    simp only [List.cons_append, parts, hne, Bool.and_false, Bool.false_and, Bool.false_eq_true,
      if_false, ih, cons_append_check]

theorem Part.cons_nil (i : Guest.Instr) : Part.cons i [] = [.run (lowered i) [i]] := by
  unfold Part.cons
  split <;> rfl

/-- The last instruction of a loop is nothing but a placeholder. -/
theorem loopEnd_items (config : Config) {i : Guest.Instr} (h : Guest.Scan.isBackward i = true) :
    ∃ kind target, partsItems config (Part.cons i []) = [.hole kind target (currentOf i)] := by
  unfold Guest.Scan.isBackward at h
  split at h
  · rename_i t hk
    have hlowered : lowered i = .al := by
      simp only [lowered, Guest.Instr.absorbsCondition, hk, if_true]
    refine ⟨if i.cond.isAlways then .branch else .condBranch i.cond, .address t, ?_⟩
    rw [Part.cons_nil, hlowered, partsItems_cons, Part.items, regionItems, if_pos (.inl rfl),
      List.flatMap_singleton, instrItems, items, hk]
    rfl
  · cases h

/-! ### Goals -/

/-- Where a fixup has a goal, it comes from a branch to it or through the program counter. -/
structure Aims (i : Guest.Instr) (t : Word) : Prop where
  branch : i.flags.branch = true
  goal : i.kind = .branch t ∨ t = i.pcReadValue

theorem aims_of_hole? {i : Guest.Instr} (hi : i.Regular) {kind : FixupKind} {target : FixupTarget}
    (h : hole? (currentOf i) i = some (kind, target)) {site : Nat} {t : Word}
    (hg : goal? ⟨kind, target, site, i.address, i.nextPc, i.pcReadValue⟩ = some t) : Aims i t := by
  have hpc : ∀ rm : Guest.Gpr, (if rm.isPc then some i.pcReadValue else none) = some t →
      t = i.pcReadValue := by
    intro rm hrm
    split at hrm
    · exact (Option.some.inj hrm).symm
    · cases hrm
  have hbranch := hi.branch
  cases hk : i.kind with
  | alu op rd rn operand =>
    simp only [hole?, hk] at h
    split at h <;> cases h
    cases hg
  | move rd operand negate =>
    rw [hk] at hbranch
    cases operand with
    | imm v =>
      simp only [hole?, hk] at h
      split at h <;> cases h
      cases hg
    | reg rm =>
      simp only [hole?, hk] at h
      split at h
      · rename_i hrd
        simp only [Bool.and_eq_true] at hrd
        cases h
        refine ⟨?_, .inr (hpc rm hg)⟩
        rw [hbranch]
        simp only [Guest.Kind.writesPc, hrd.1.1, Bool.or_true]
      · split at h <;> cases h
        cases hg
  | branch t' =>
    rw [hk] at hbranch
    simp only [hole?, hk] at h
    refine ⟨hbranch, .inl ?_⟩
    split at h <;> cases h <;> cases hg <;> exact hk
  | branchExchange rm =>
    rw [hk] at hbranch
    simp only [hole?, hk] at h
    cases h
    exact ⟨hbranch, .inr (hpc rm hg)⟩
  | _ =>
    simp only [hole?, hk] at h
    cases h <;> cases hg

theorem aims_of_mem {config : Config} {i : Guest.Instr} (hi : i.Regular) {x : Item}
    (hx : x ∈ instrItems config i) {k : Nat} {f : Fixup} (hf : x.fixup? k = some f) {t : Word}
    (hg : goal? f = some t) : Aims i t := by
  obtain ⟨hhole, heq⟩ := hole?_of_mem hx hf
  rw [heq] at hg
  exact aims_of_hole? hi hhole hg

/-- A goal in parts comes from one of their instructions. -/
theorem aims_of_parts {config : Config} {ps : List Part}
    (hr : ∀ i ∈ ps.flatMap Part.instrs, i.Regular) {x : Item} (hx : x ∈ partsItems config ps)
    {k : Nat} {f : Fixup} (hf : x.fixup? k = some f) {t : Word} (hg : goal? f = some t) :
    ∃ i ∈ ps.flatMap Part.instrs, Aims i t := by
  obtain ⟨p, hp, hx⟩ := List.mem_flatMap.mp hx
  cases p with
  | check i =>
    rcases List.mem_append.mp hx with hx | hx
    · obtain ⟨j, -, rfl⟩ := List.mem_map.mp hx
      cases hf
    · rw [List.mem_singleton.mp hx] at hf
      cases hf
      cases hg
  | run c is =>
    have hrun : x ∈ is.flatMap (instrItems config) := by
      simp only [Part.items, regionItems] at hx
      split at hx
      · exact hx
      · rcases List.mem_cons.mp hx with rfl | hx
        · cases hf
        · exact hx
    obtain ⟨i, hi, hx⟩ := List.mem_flatMap.mp hrun
    have hmem : i ∈ ps.flatMap Part.instrs := List.mem_flatMap.mpr ⟨_, hp, hi⟩
    exact ⟨i, hmem, aims_of_mem (hr i hmem) hx hf hg⟩

/-- In a sound block only the last instruction can have a goal. If it ends a loop, its placeholder
comes right behind the check. -/
theorem aims_of_block {config : Config} {b : Guest.Block} {z : Word} (hs : b.Sound z)
    (hr : ∀ i ∈ b.instrs.toList, i.Regular) {j : Nat} {x : Item}
    (hj : (blockItems config b)[j]? = some x) {k : Nat} {f : Fixup} (hf : x.fixup? k = some f)
    {t : Word} (hg : goal? f = some t) :
    ∃ init i, b.instrs.toList = init ++ [i] ∧ Aims i t ∧
      (Guest.Scan.isBackward i = true →
        j = (partsItems config (parts false init)).length + 5) := by
  obtain ⟨init, i, hi, hplain, hloop⟩ := hs.last
  have hlast : ∀ ps : List Part, (∀ j ∈ ps.flatMap Part.instrs, j ∈ init) →
      x ∉ partsItems config ps := by
    intro ps hps hx
    have hreg : ∀ j ∈ init, j.Regular :=
      fun j hj => hr j (hi ▸ List.mem_append_left _ hj)
    obtain ⟨j, hj, haims⟩ := aims_of_parts (fun j hj => hreg j (hps j hj)) hx hf hg
    have hb := haims.branch
    rw [hplain j (hps j hj)] at hb
    cases hb
  have hinstrs : (blockParts b).flatMap Part.instrs = init ++ [i] :=
    (instrs_parts _ _).trans hi
  have hregular : ∀ j ∈ (blockParts b).flatMap Part.instrs, j.Regular := by
    rw [hinstrs, ← hi]
    exact hr
  obtain ⟨j', hj', haims⟩ := aims_of_parts hregular (List.mem_of_getElem? hj) hf hg
  have hlastj : j' = i := by
    rw [hinstrs] at hj'
    rcases List.mem_append.mp hj' with hmem | hmem
    · have hb := haims.branch
      rw [hplain j' hmem] at hb
      cases hb
    · exact List.mem_singleton.mp hmem
  subst hlastj
  refine ⟨init, j', hi, haims, fun hback => ?_⟩
  obtain ⟨kind, target, hhole⟩ := loopEnd_items config hback
  have hparts : blockItems config b =
      partsItems config (parts false init) ++
        (syncItems j' ++ [.hole kind target (currentOf j')]) := by
    rw [blockItems, blockParts, hi, hloop.trans hback, parts_loopEnd, partsItems_append,
      partsItems_cons, hhole]
    rfl
  have hlen : (syncItems j').length = 5 := rfl
  rw [hparts] at hj
  -- It is no item of the other instructions, and none of the check.
  rcases Nat.lt_or_ge j (partsItems config (parts false init)).length with hlt | hle
  · rw [List.getElem?_append_left hlt] at hj
    refine absurd (List.mem_of_getElem? hj) (hlast (parts false init) fun k hk => ?_)
    rwa [instrs_parts] at hk
  · obtain ⟨n, rfl⟩ := Nat.exists_eq_add_of_le hle
    rw [List.getElem?_append_right hle, Nat.add_sub_cancel_left] at hj
    rcases Nat.lt_or_ge n 5 with hlt | hge
    · rw [List.getElem?_append_left hlt] at hj
      rcases List.mem_append.mp (List.mem_of_getElem? hj) with hx | hx
      · obtain ⟨o, -, rfl⟩ := List.mem_map.mp hx
        cases hf
      · cases List.mem_singleton.mp hx
        cases hf
        cases hg
    · have hbound := (List.getElem?_eq_some_iff.mp hj).1
      rw [List.length_append, hlen, List.length_singleton] at hbound
      omega

theorem partsItems_bodyParts (config : Config) (bs : List Guest.Block) :
    partsItems config (bodyParts bs) = bs.flatMap (blockItems config) := by
  unfold partsItems bodyParts
  rw [List.flatMap_assoc]
  rfl

/-- Two places in one list: they are one, or the first stands behind the second, or before it. -/
theorem split_cases {α : Type} {pre post pre' post' : List α} {x y : α}
    (h : pre ++ x :: post = pre' ++ y :: post') :
    (pre = pre' ∧ x = y) ∨ (∃ w, pre = pre' ++ y :: w) ∨ ∃ w, pre' = pre ++ x :: w := by
  rcases List.append_eq_append_iff.mp h with ⟨w, hp, hw⟩ | ⟨w, hp, hw⟩
  · cases w with
    | nil =>
      cases hw
      exact .inl ⟨(hp.trans (List.append_nil pre)).symm, rfl⟩
    | cons z w =>
      cases hw
      exact .inr (.inr ⟨w, hp⟩)
  · cases w with
    | nil =>
      cases hw
      exact .inl ⟨hp.trans (List.append_nil pre'), rfl⟩
    | cons z w =>
      cases hw
      exact .inr (.inl ⟨w, hp⟩)

/-- Two blocks of one list: the first is the second or stands behind it, or it stands before. -/
theorem block_cases {bs pre post pre' post' : List Guest.Block} {b b' : Guest.Block}
    (h : bs = pre ++ b :: post) (h' : bs = pre' ++ b' :: post') :
    (∃ cs, pre = pre' ++ cs) ∨ ∃ cs, pre' = pre ++ b :: cs := by
  rcases split_cases (h.symm.trans h') with ⟨rfl, -⟩ | ⟨cs, hcs⟩ | hcs
  · exact .inl ⟨[], (List.append_nil pre).symm⟩
  · exact .inl ⟨_, hcs⟩
  · exact .inr hcs

end Dynarec.Compile

namespace Dynarec.Translated

open Dynarec.Emit Dynarec.Compile

variable {options : Options} {dispatch : DispatchTable} {img : Guest.Image} {entry : Word}
  {c : Compiled} {t : Guest.Trace} {p : Plan}

section

variable (h : Translated options dispatch img entry c t p) (hf : img.finish < wordCount)

include h hf

/-- An instruction that aims back, at its own block or one before, is a branch back; unless the
unit covers the whole address space and the program counter wraps around. -/
theorem backward_of_aims (hb : c.guestBytes < 0xFFFFFFFC) {pre post pre' cs : List Guest.Block}
    {b b' : Guest.Block} (hbs : p.blocks = pre ++ b :: post) (hpre : pre = pre' ++ cs)
    {post' : List Guest.Block} (hbs' : p.blocks = pre' ++ b' :: post') {init : List Guest.Instr}
    {i : Guest.Instr} (hi : b.instrs.toList = init ++ [i]) (ha : Aims i b'.start) :
    Guest.Scan.isBackward i = true := by
  obtain ⟨z, hz⟩ := h.chain
  have hlow := h.low hf
  have hinstrs : Guest.blockInstrs p.blocks =
      Guest.blockInstrs pre ++ (init ++ [i]) ++ Guest.blockInstrs post := by
    simp only [Guest.blockInstrs, hbs, List.flatMap_append, List.flatMap_cons, hi,
      List.append_assoc]
  have hpreInstrs : Guest.blockInstrs pre = Guest.blockInstrs pre' ++ Guest.blockInstrs cs := by
    rw [hpre]
    exact List.flatMap_append
  have hlast : i.address.toNat =
      entry.toNat + 4 * ((Guest.blockInstrs pre).length + init.length) := by
    refine Guest.Chain.toNat_last (hbs ▸ hz) (fun j hj => hlow j ?_) hi
    rw [hinstrs]
    refine List.mem_append_left _ ?_
    simpa only [Guest.blockInstrs, List.flatMap_append, List.flatMap_cons, List.flatMap_nil,
      List.append_nil, hi] using hj
  have hstart : b'.start.toNat = entry.toNat + 4 * (Guest.blockInstrs pre').length := by
    refine Guest.Chain.toNat_start (hbs' ▸ hz) fun j hj => hlow j ?_
    rw [hinstrs, hpreInstrs, List.append_assoc, List.append_assoc]
    exact List.mem_append_left _ hj
  have hle : b'.start.toNat ≤ i.address.toNat := by
    have hlen := congrArg List.length hpreInstrs
    rw [List.length_append] at hlen
    omega
  rcases ha.goal with hk | hpc
  · simp only [Guest.Scan.isBackward, hk, decide_eq_true_eq]
    exact hle
  · exfalso
    have hiLow : i.Low := hlow i (by
      rw [hinstrs]
      exact List.mem_append_left _ (List.mem_append_right _
        (List.mem_append_right _ List.mem_cons_self)))
    have hbelow := hiLow.below
    have h8 : (8 : Word).toNat = 8 := rfl
    have hlen := congrArg List.length hinstrs
    simp only [List.length_append, List.length_singleton] at hlen
    rw [h.guestBytes_eq] at hb
    simp only [wordCount] at hbelow
    rw [hpc, hiLow.regular.pcReadValue, BitVec.toNat_add, h8] at hle hstart
    omega

/-- A placeholder that branches back, to its own index or before it, comes right behind the check of
a loop, and branches to the check or before it. -/
theorem loops_of_goal (hb : c.guestBytes < 0xFFFFFFFC) :
    AllFrom (fun k x => ∀ f, x.fixup? k = some f → ∀ a, goal? f = some a →
      ∀ index, p.targets a = some index → index ≤ k →
        ∃ pre i post, bodyParts p.blocks = pre ++ .check i :: post ∧
          k = p.room + (partsItems p.setting.config pre).length + 5 ∧
          index ≤ p.room + (partsItems p.setting.config pre).length) p.room p.body := by
  obtain ⟨z, hz⟩ := h.chain
  rw [h.body_eq hz, allFrom_append]
  constructor
  · rw [partsItems_bodyParts]
    refine allFrom_flatMap fun pre b post hbs j x hj f hfix a hg index ht hle => ?_
    obtain ⟨m, hs⟩ := Guest.Chain.sound (hbs ▸ hz)
    have hmem : b ∈ p.blocks := hbs ▸ List.mem_append_right _ List.mem_cons_self
    obtain ⟨init, i, hi, haims, hsite⟩ := aims_of_block hs (h.regular b hmem) hj hfix hg
    have hlt : j < (blockItems p.setting.config b).length := (List.getElem?_eq_some_iff.mp hj).1
    obtain ⟨pre', b', post', hbs', rfl, hindex⟩ := h.targets_eq_some ht
    rw [partsItems_bodyParts] at hindex
    rcases block_cases hbs hbs' with ⟨cs, hcs⟩ | ⟨cs, hcs⟩
    · have hback := h.backward_of_aims hf hb hbs hcs hbs' hi haims
      have hloop : b.isLoopEnd = true := by
        obtain ⟨init', i', hi', -, hloop⟩ := hs.last
        obtain ⟨-, hii⟩ := List.append_inj' (hi.symm.trans hi') rfl
        cases hii
        exact hloop.trans hback
      refine ⟨bodyParts pre ++ parts false init, i, Part.cons i [] ++ bodyParts post, ?_, ?_, ?_⟩
      · rw [hbs, bodyParts, List.flatMap_append, List.flatMap_cons, blockParts, hi, hloop,
          parts_loopEnd]
        simp only [bodyParts, List.append_assoc, List.cons_append]
      · rw [partsItems_append, partsItems_bodyParts, List.length_append, hsite hback]
        omega
      · rw [partsItems_append, partsItems_bodyParts, List.length_append, hcs, List.flatMap_append,
          List.length_append]
        omega
    · rw [hcs, List.flatMap_append, List.flatMap_cons, List.length_append,
        List.length_append] at hindex
      omega
  · intro j x hj f hfix
    have hmem := List.mem_of_getElem? hj
    unfold endItems at hmem
    split at hmem
    · exact absurd hmem List.not_mem_nil
    · refine absurd hfix (forall_exitItems (Q := fun x => x.fixup? _ ≠ some f) ?_ ?_ x hmem)
      · exact fun i hi => by cases hi
      · exact fun c hc => by cases hc

/-- No placeholder is where the block starts that it branches to. -/
theorem apart (hb : c.guestBytes < 0xFFFFFFFC) :
    AllFrom (fun k x => ∀ f, x.fixup? k = some f → ∀ a, goal? f = some a → p.targets a ≠ some k)
      p.room p.body := by
  intro j x hj f hfix a hg ht
  obtain ⟨pre, i, post, -, hk, hle⟩ :=
    h.loops_of_goal hf hb j x hj f hfix a hg _ ht (Nat.le_refl _)
  omega

end

end Dynarec.Translated
