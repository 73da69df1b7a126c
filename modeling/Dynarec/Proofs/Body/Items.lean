import Dynarec.Proofs.Body.Listing
import Dynarec.Proofs.Lower.Shape

/-! # The items of a body

The runs of a block's parts are its instructions in order. So the items of a body are those of
its instructions, of the checks at loop ends, of the branches around regions, and of exits. -/

namespace Dynarec.Compile

open Dynarec.Emit Dynarec.Lower

/-! ### Instructions of parts -/

/-- The instructions of a part. -/
def Part.instrs : Part → List Guest.Instr
  | check _ => []
  | run _ is => is

theorem instrs_attach (c : Cond) (js : List Guest.Instr) (ps : List Part) :
    (Part.attach c js ps).flatMap Part.instrs = js ++ ps.flatMap Part.instrs := by
  unfold Part.attach
  split
  · split
    · simp only [List.flatMap_cons, Part.instrs, List.append_assoc]
    · simp only [List.flatMap_cons, Part.instrs]
  · simp only [List.flatMap_cons, Part.instrs]

theorem instrs_cons (i : Guest.Instr) (ps : List Part) :
    (Part.cons i ps).flatMap Part.instrs = i :: ps.flatMap Part.instrs := by
  unfold Part.cons
  split
  · rfl
  · exact instrs_attach (lowered i) [i] ps

/-- The runs of a block's parts are its instructions. -/
theorem instrs_parts (isLoopEnd : Bool) (is : List Guest.Instr) :
    (parts isLoopEnd is).flatMap Part.instrs = is := by
  induction is with
  | nil => rfl
  | cons i is ih =>
    unfold parts
    split
    · rename_i h
      have his : is = [] := by
        simp only [Bool.and_eq_true, List.isEmpty_iff] at h
        exact h.2
      rw [List.flatMap_cons, instrs_cons, his]
      rfl
    · rw [instrs_cons, ih]

theorem check_mem_of_run {i : Guest.Instr} {c : Cond} {is : List Guest.Instr} {ps : List Part} :
    .check i ∈ .run c is :: ps ↔ .check i ∈ ps :=
  ⟨fun h => (List.mem_cons.mp h).resolve_left nofun, List.mem_cons_of_mem _⟩

/-- Instructions are put before parts without a check. -/
theorem check_mem_cons {i j : Guest.Instr} {ps : List Part} :
    .check i ∈ Part.cons j ps ↔ .check i ∈ ps := by
  unfold Part.cons
  split
  · exact check_mem_of_run
  · unfold Part.attach
    split
    · split
      · exact check_mem_of_run.trans check_mem_of_run.symm
      · exact check_mem_of_run
    · exact check_mem_of_run

/-- A check stands before the last instruction of a loop, and only there. -/
theorem check_mem_parts {isLoopEnd : Bool} {is : List Guest.Instr} {i : Guest.Instr} :
    .check i ∈ parts isLoopEnd is ↔ isLoopEnd = true ∧ is.getLast? = some i := by
  induction is with
  | nil => exact iff_of_false List.not_mem_nil fun h => nomatch h.2
  | cons j is ih =>
    cases is with
    | nil =>
      cases isLoopEnd with
      | true =>
        show .check i ∈ .check j :: Part.cons j [] ↔ _
        rw [List.mem_cons, check_mem_cons, or_iff_left List.not_mem_nil, Part.check.injEq,
          List.getLast?_singleton, Option.some.injEq, and_iff_right rfl, eq_comm]
      | false =>
        refine iff_of_false (fun h => ?_) fun h => nomatch h.1
        exact absurd (check_mem_cons.mp h) List.not_mem_nil
    | cons k is =>
      have hparts : parts isLoopEnd (j :: k :: is) = Part.cons j (parts isLoopEnd (k :: is)) := by
        rw [parts, List.isEmpty_cons, Bool.and_false, if_neg Bool.false_ne_true]
      rw [hparts, check_mem_cons, ih, List.getLast?_cons_cons]

/-- The instructions of a run are under its test, and none but the last sets flags. -/
def Part.Uniform : Part → Prop
  | check _ => True
  | run c is => (∀ i ∈ is, lowered i = c) ∧ ∀ i ∈ is.dropLast, i.setsFlags = false

theorem uniform_attach {c : Cond} {i : Guest.Instr} {ps : List Part} (hi : lowered i = c)
    (hs : i.setsFlags = false) (h : ∀ p ∈ ps, p.Uniform) :
    ∀ p ∈ Part.attach c [i] ps, p.Uniform := by
  have hsingle : Part.Uniform (.run c [i]) :=
    ⟨fun j hj => by rw [List.mem_singleton.mp hj]; exact hi, fun j hj => absurd hj List.not_mem_nil⟩
  unfold Part.attach
  split
  · rename_i c' is more
    obtain ⟨⟨hrun, hflags⟩, hmore⟩ := List.forall_mem_cons.mp h
    split
    · rename_i hc
      refine List.forall_mem_cons.mpr ⟨⟨List.forall_mem_cons.mpr ⟨hi, hc ▸ hrun⟩, ?_⟩, hmore⟩
      cases is with
      | nil => exact fun j hj => absurd hj List.not_mem_nil
      | cons k is => exact List.forall_mem_cons.mpr ⟨hs, hflags⟩
    · exact List.forall_mem_cons.mpr ⟨hsingle, h⟩
  · exact List.forall_mem_cons.mpr ⟨hsingle, h⟩

theorem uniform_cons {i : Guest.Instr} {ps : List Part} (h : ∀ p ∈ ps, p.Uniform) :
    ∀ p ∈ Part.cons i ps, p.Uniform := by
  unfold Part.cons
  split
  · refine List.forall_mem_cons.mpr ⟨⟨fun j hj => ?_, fun j hj => absurd hj List.not_mem_nil⟩, h⟩
    rw [List.mem_singleton.mp hj]
  · rename_i hs
    exact uniform_attach rfl (eq_false_of_ne_true hs) h

theorem uniform_parts (isLoopEnd : Bool) (is : List Guest.Instr) :
    ∀ p ∈ parts isLoopEnd is, p.Uniform := by
  induction is with
  | nil => exact fun p hp => absurd hp List.not_mem_nil
  | cons i is ih =>
    unfold parts
    split
    · refine List.forall_mem_cons.mpr ⟨trivial, uniform_cons fun p hp => ?_⟩
      exact absurd hp List.not_mem_nil
    · exact uniform_cons ih

/-! ### What items there are -/

/-- A fixup among the items of an instruction is the one of its placeholder. -/
theorem hole?_of_mem {config : Config} {i : Guest.Instr} {x : Item} (hx : x ∈ instrItems config i)
    {k : Nat} {f : Fixup} (hf : x.fixup? k = some f) :
    hole? (currentOf i) i = some (f.kind, f.target) ∧
      f = ⟨f.kind, f.target, k, i.address, i.nextPc, i.pcReadValue⟩ := by
  obtain ⟨is, -, his⟩ := items_eq config (currentOf i) i
  unfold instrItems at hx
  rw [his] at hx
  rcases List.mem_append.mp hx with hx | hx
  · obtain ⟨j, -, rfl⟩ := List.mem_map.mp hx
    cases hf
  · obtain ⟨q, hq, rfl⟩ := List.mem_map.mp hx
    cases hf
    exact ⟨Option.mem_toList.mp hq, rfl⟩

/-- A property of items that holds of all finished instructions and exits, of the checks, and of
the items of every instruction, holds of a whole block. -/
theorem forall_blockItems {config : Config} {b : Guest.Block} {Q : Item → Prop}
    (hop : ∀ i, Q (.op i)) (hsync : b.isLoopEnd = true → ∀ i, b.instrs.toList.getLast? = some i →
      Q (.hole .syncPoint .none (currentOf i)))
    (hinstr : ∀ i ∈ b.instrs.toList, ∀ x ∈ instrItems config i, Q x) :
    ∀ x ∈ blockItems config b, Q x := by
  intro x hx
  obtain ⟨p, hp, hx⟩ := List.mem_flatMap.mp hx
  cases p with
  | check i =>
    rcases List.mem_append.mp hx with hx | hx
    · obtain ⟨j, -, rfl⟩ := List.mem_map.mp hx
      exact hop j
    · rw [List.mem_singleton.mp hx]
      exact hsync (check_mem_parts.mp hp).1 i (check_mem_parts.mp hp).2
  | run c is =>
    have his : ∀ i ∈ is, i ∈ b.instrs.toList := by
      intro i hi
      rw [← instrs_parts b.isLoopEnd b.instrs.toList]
      exact List.mem_flatMap.mpr ⟨_, hp, hi⟩
    have hrun : ∀ y ∈ is.flatMap (instrItems config), Q y := by
      intro y hy
      obtain ⟨i, hi, hy⟩ := List.mem_flatMap.mp hy
      exact hinstr i (his i hi) y hy
    simp only [Part.items, regionItems] at hx
    split at hx
    · exact hrun x hx
    · rcases List.mem_cons.mp hx with rfl | hx
      · exact hop _
      · exact hrun x hx

theorem forall_exitItems {e : Setting} {guest : Word} {Q : Item → Prop} (hop : ∀ i, Q (.op i))
    (hexit : ∀ c, Q (.exit c)) : ∀ x ∈ exitItems e guest, Q x := by
  intro x hx
  rcases List.mem_append.mp hx with hx | hx
  · obtain ⟨j, -, rfl⟩ := List.mem_map.mp hx
    exact hop j
  · rw [List.mem_singleton.mp hx]
    exact hexit _

theorem forall_itemsAfter {e : Setting} {bs : List Guest.Block} {Q : Item → Prop}
    (hexit : ∀ guest, ∀ x ∈ exitItems e guest, Q x)
    (hblock : ∀ b ∈ bs, ∀ x ∈ blockItems e.config b, Q x) (finish : Word) (ended : Bool) :
    ∀ x ∈ itemsAfter e finish ended bs, Q x := by
  induction bs generalizing finish ended with
  | nil =>
    unfold itemsAfter
    split
    · exact fun x hx => absurd hx List.not_mem_nil
    · exact hexit finish
  | cons b bs ih =>
    intro x hx
    rcases List.mem_append.mp hx with hx | hx
    · rcases List.mem_append.mp hx with hx | hx
      · unfold gapItems at hx
        split at hx
        · exact hexit finish x hx
        · exact absurd hx List.not_mem_nil
      · exact hblock b List.mem_cons_self x hx
    · exact ih (fun c hc => hblock c (List.mem_cons_of_mem _ hc)) _ _ x hx

/-- A property of the items of every exit and of every block holds of a whole body. -/
theorem forall_bodyItems_of_blocks {e : Setting} {bs : List Guest.Block} {Q : Item → Prop}
    (hexit : ∀ guest, ∀ x ∈ exitItems e guest, Q x)
    (hblock : ∀ b ∈ bs, ∀ x ∈ blockItems e.config b, Q x) : ∀ x ∈ bodyItems e bs, Q x := by
  cases bs with
  | nil => exact fun x hx => absurd hx List.not_mem_nil
  | cons b bs =>
    intro x hx
    rcases List.mem_append.mp hx with hx | hx
    · exact hblock b List.mem_cons_self x hx
    · exact forall_itemsAfter hexit (fun c hc => hblock c (List.mem_cons_of_mem _ hc)) _ _ x hx

/-- A property of items that holds of all finished instructions and exits, of the checks, and of
the items of every instruction, holds of a whole body. -/
theorem forall_bodyItems {e : Setting} {bs : List Guest.Block} {Q : Item → Prop}
    (hop : ∀ i, Q (.op i)) (hexit : ∀ c, Q (.exit c))
    (hsync : ∀ b ∈ bs, b.isLoopEnd = true → ∀ i, b.instrs.toList.getLast? = some i →
      Q (.hole .syncPoint .none (currentOf i)))
    (hinstr : ∀ b ∈ bs, ∀ i ∈ b.instrs.toList, ∀ x ∈ instrItems e.config i, Q x) :
    ∀ x ∈ bodyItems e bs, Q x :=
  forall_bodyItems_of_blocks (fun _ => forall_exitItems hop hexit)
    fun b hb => forall_blockItems hop (hsync b hb) (hinstr b hb)

/-! ### Where blocks start -/

theorem infix_flatMap {α β : Type} (f : α → List β) {x : α} {xs : List α} (h : x ∈ xs) :
    f x <:+: xs.flatMap f := by
  rw [List.flatMap_def]
  exact List.infix_of_mem_flatten (List.mem_map_of_mem h)

/-- What an instruction becomes stands in one piece. -/
theorem infix_instrItems (config : Config) {b : Guest.Block} {i : Guest.Instr}
    (hi : i ∈ b.instrs.toList) : instrItems config i <:+: blockItems config b := by
  rw [← instrs_parts b.isLoopEnd b.instrs.toList] at hi
  obtain ⟨p, hp, hi⟩ := List.mem_flatMap.mp hi
  refine List.IsInfix.trans ?_ (infix_flatMap (Part.items config) hp)
  cases p with
  | check j => exact absurd hi List.not_mem_nil
  | run c is =>
    have hrun := infix_flatMap (instrItems config) hi
    simp only [Part.items, regionItems]
    split
    · exact hrun
    · exact List.infix_cons hrun

theorem infix_blockItems (e : Setting) {bs : List Guest.Block} {b : Guest.Block} (hb : b ∈ bs) :
    blockItems e.config b <:+: bodyItems e bs := by
  have hafter : ∀ (cs : List Guest.Block) (finish : Word) (ended : Bool), b ∈ cs →
      blockItems e.config b <:+: itemsAfter e finish ended cs := by
    intro cs
    induction cs with
    | nil => exact fun _ _ h => absurd h List.not_mem_nil
    | cons c cs ih =>
      intro finish ended h
      rw [itemsAfter]
      rcases List.mem_cons.mp h with rfl | h
      · exact List.infix_append _ _ _
      · exact (ih _ _ h).trans (List.suffix_append _ _).isInfix
  cases bs with
  | nil => exact absurd hb List.not_mem_nil
  | cons c cs =>
    rcases List.mem_cons.mp hb with rfl | hb
    · exact (List.prefix_append _ _).isInfix
    · exact (hafter cs _ _ hb).trans (List.suffix_append _ _).isInfix

/-- An instruction behind which control never passes on has a placeholder. -/
theorem hole?_of_leaves (c : Current) {i : Guest.Instr} (h : i.kind.leaves = true) :
    ∃ p, hole? c i = some p := by
  cases hk : i.kind with
  | alu op rd rn operand =>
    simp only [hk, Guest.Kind.leaves, Guest.Kind.writesPc] at h
    simp only [hole?, hk, h, if_true]
    exact ⟨_, rfl⟩
  | move rd operand negate =>
    simp only [hk, Guest.Kind.leaves, Guest.Kind.writesPc] at h
    cases operand with
    | imm v =>
      simp only [hole?, hk, h, if_true]
      exact ⟨_, rfl⟩
    | reg rm =>
      simp only [hole?, hk, h, Bool.true_and, if_true]
      split <;> exact ⟨_, rfl⟩
  | branch t => exact ⟨_, by simp only [hole?, hk]; rfl⟩
  | branchExchange rm => exact ⟨_, by simp only [hole?, hk]; rfl⟩
  | tableBranch rn rm halfword => exact ⟨_, by simp only [hole?, hk]; rfl⟩
  | _ => simp [hk, Guest.Kind.leaves, Guest.Kind.writesPc] at h

/-- A block behind which control never passes on has at least one word. -/
theorem blockItems_ne_nil (config : Config) {b : Guest.Block} (h : blockEnds b = true) :
    blockItems config b ≠ [] := by
  unfold blockEnds at h
  cases hlast : b.instrs.toList.getLast? with
  | none =>
    rw [hlast] at h
    cases h
  | some i =>
    rw [hlast] at h
    have hends : (i.cond.isAlways && i.kind.leaves) = true := h
    rw [Bool.and_eq_true] at hends
    obtain ⟨p, hp⟩ := hole?_of_leaves (currentOf i) hends.2
    obtain ⟨is, -, his⟩ := items_eq config (currentOf i) i
    have hmem : Item.hole p.1 p.2 (currentOf i) ∈ instrItems config i := by
      unfold instrItems holeItems at *
      rw [his, hp]
      exact List.mem_append_right _ List.mem_cons_self
    exact List.ne_nil_of_mem ((infix_instrItems config (List.mem_of_getLast? hlast)).subset hmem)

theorem exitItems_ne_nil (e : Setting) (guest : Word) : exitItems e guest ≠ [] := by
  unfold exitItems
  exact List.append_ne_nil_of_right_ne_nil _ (List.cons_ne_nil _ _)

/-- Where control can pass on, something follows. -/
theorem itemsAfter_ne_nil (e : Setting) (finish : Word) (bs : List Guest.Block) :
    itemsAfter e finish false bs ≠ [] := by
  induction bs generalizing finish with
  | nil => exact exitItems_ne_nil e finish
  | cons b bs ih =>
    unfold itemsAfter
    cases hb : blockEnds b with
    | true =>
      exact List.append_ne_nil_of_left_ne_nil
        (List.append_ne_nil_of_right_ne_nil _ (blockItems_ne_nil e.config hb)) _
    | false => exact List.append_ne_nil_of_right_ne_nil _ (ih b.finish)

theorem block_and_after_pos (e : Setting) (b : Guest.Block) (bs : List Guest.Block) :
    0 < (blockItems e.config b).length + (itemsAfter e b.finish (blockEnds b) bs).length := by
  cases hb : blockEnds b with
  | true =>
    have := List.length_pos_iff.mpr (blockItems_ne_nil e.config hb)
    omega
  | false =>
    have := List.length_pos_iff.mpr (itemsAfter_ne_nil e b.finish bs)
    omega

theorem startsAfter_lt (e : Setting) (n : Nat) (finish : Word) (ended : Bool)
    (bs : List Guest.Block) :
    ∀ p ∈ startsAfter e n finish ended bs, p.2 < n + (itemsAfter e finish ended bs).length := by
  induction bs generalizing n finish ended with
  | nil => exact fun p hp => absurd hp List.not_mem_nil
  | cons b bs ih =>
    intro p hp
    have hpos := block_and_after_pos e b bs
    simp only [itemsAfter, List.length_append]
    rcases List.mem_cons.mp hp with rfl | hp
    · dsimp only
      omega
    · have := ih _ _ _ p hp
      omega

/-- Every block starts inside the body. -/
theorem bodyStarts_lt (e : Setting) (n : Nat) (bs : List Guest.Block) :
    ∀ p ∈ bodyStarts e n bs, p.2 < n + (bodyItems e bs).length := by
  cases bs with
  | nil => exact fun p hp => absurd hp List.not_mem_nil
  | cons b bs =>
    intro p hp
    have hpos := block_and_after_pos e b bs
    simp only [bodyItems, List.length_append]
    rcases List.mem_cons.mp hp with rfl | hp
    · dsimp only
      omega
    · have := startsAfter_lt e _ _ _ _ p hp
      omega

theorem le_startsAfter (e : Setting) (n : Nat) (finish : Word) (ended : Bool)
    (bs : List Guest.Block) : ∀ p ∈ startsAfter e n finish ended bs, n ≤ p.2 := by
  induction bs generalizing n finish ended with
  | nil => exact fun p hp => absurd hp List.not_mem_nil
  | cons b bs ih =>
    intro p hp
    rcases List.mem_cons.mp hp with rfl | hp
    · exact Nat.le_add_right _ _
    · have := ih _ _ _ p hp
      omega

theorem le_bodyStarts (e : Setting) (n : Nat) (bs : List Guest.Block) :
    ∀ p ∈ bodyStarts e n bs, n ≤ p.2 := by
  cases bs with
  | nil => exact fun p hp => absurd hp List.not_mem_nil
  | cons b bs =>
    intro p hp
    rcases List.mem_cons.mp hp with rfl | hp
    · exact Nat.le_refl _
    · have := le_startsAfter e _ _ _ _ p hp
      omega

end Dynarec.Compile
