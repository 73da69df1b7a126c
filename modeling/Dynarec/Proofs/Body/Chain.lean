import Dynarec.Proofs.Body.Items
import Dynarec.Proofs.Guest.Trace

/-! # The body of a chain of blocks

In a chain each block starts where the one before ends, so no exits stand between blocks. The body
is then one list of parts with at most one exit behind it, and block starts are offsets in it. -/

namespace Dynarec.Compile

open Dynarec.Emit Dynarec.Lower

/-- The parts of all blocks. -/
def bodyParts (bs : List Guest.Block) : List Part := bs.flatMap blockParts

/-- Whether control never passes on behind the last of some blocks, which follow on something that
ended or not. -/
def endsAfter (ended : Bool) (bs : List Guest.Block) : Bool :=
  (bs.getLast?.map blockEnds).getD ended

/-- The exit behind a body that control can pass on from. -/
def endItems (e : Setting) (finish : Word) (ended : Bool) : List Item :=
  if ended then [] else exitItems e finish

/-- Where blocks start that are emitted side by side from index `n` on. -/
def startsFrom (config : Config) (n : Nat) : List Guest.Block → List (Word × Nat)
  | [] => []
  | b :: bs => (b.start, n) :: startsFrom config (n + (blockItems config b).length) bs

theorem endsAfter_cons (ended : Bool) (b : Guest.Block) (bs : List Guest.Block) :
    endsAfter ended (b :: bs) = endsAfter (blockEnds b) bs := by
  unfold endsAfter
  cases bs with
  | nil => rfl
  | cons c bs =>
    rw [List.getLast?_cons_cons]
    cases h : (c :: bs).getLast? with
    | none => exact absurd (List.getLast?_eq_none_iff.mp h) (List.cons_ne_nil _ _)
    | some d => rfl

theorem itemsAfter_chain (e : Setting) {a z : Word} (ended : Bool) {bs : List Guest.Block}
    (h : Guest.Chain a bs z) :
    itemsAfter e a ended bs =
      partsItems e.config (bodyParts bs) ++ endItems e z (endsAfter ended bs) := by
  induction bs generalizing a ended with
  | nil =>
    cases h
    rfl
  | cons b bs ih =>
    obtain ⟨hb, m, hs, hrest⟩ := h
    have hgap : gapItems e a ended b.start = [] := by
      simp only [gapItems, hb, bne_self_eq_false, Bool.and_false, Bool.false_eq_true, if_false]
    have hparts : bodyParts (b :: bs) = blockParts b ++ bodyParts bs := List.flatMap_cons
    rw [itemsAfter, hgap, List.nil_append, hs.finish_eq, ih _ hrest, endsAfter_cons, hparts,
      partsItems_append, List.append_assoc]
    rfl

theorem bodyItems_chain (e : Setting) {a z : Word} {bs : List Guest.Block}
    (h : Guest.Chain a bs z) (hn : bs ≠ []) :
    bodyItems e bs =
      partsItems e.config (bodyParts bs) ++ endItems e z (endsAfter false bs) := by
  cases bs with
  | nil => exact absurd rfl hn
  | cons b bs =>
    obtain ⟨hb, m, hs, hrest⟩ := h
    have hparts : bodyParts (b :: bs) = blockParts b ++ bodyParts bs := List.flatMap_cons
    rw [bodyItems, hs.finish_eq, itemsAfter_chain e _ hrest, endsAfter_cons, hparts,
      partsItems_append, List.append_assoc]
    rfl

theorem startsAfter_chain (e : Setting) (n : Nat) {a z : Word} (ended : Bool)
    {bs : List Guest.Block} (h : Guest.Chain a bs z) :
    startsAfter e n a ended bs = startsFrom e.config n bs := by
  induction bs generalizing a n ended with
  | nil => rfl
  | cons b bs ih =>
    obtain ⟨hb, m, hs, hrest⟩ := h
    have hgap : gapItems e a ended b.start = [] := by
      simp only [gapItems, hb, bne_self_eq_false, Bool.and_false, Bool.false_eq_true, if_false]
    simp only [startsAfter, hgap, List.length_nil, Nat.add_zero, startsFrom, hs.finish_eq,
      ih _ _ hrest]

theorem bodyStarts_chain (e : Setting) (n : Nat) {a z : Word} {bs : List Guest.Block}
    (h : Guest.Chain a bs z) : bodyStarts e n bs = startsFrom e.config n bs := by
  cases bs with
  | nil => rfl
  | cons b bs =>
    obtain ⟨hb, m, hs, hrest⟩ := h
    simp only [bodyStarts, startsFrom, hs.finish_eq, startsAfter_chain e _ _ hrest]

/-- A block that starts somewhere has that many items before it. -/
theorem mem_startsFrom {config : Config} {n : Nat} {bs : List Guest.Block} {a : Word} {k : Nat}
    (h : (a, k) ∈ startsFrom config n bs) :
    ∃ pre b post, bs = pre ++ b :: post ∧ a = b.start ∧
      k = n + (partsItems config (bodyParts pre)).length := by
  induction bs generalizing n with
  | nil => exact absurd h List.not_mem_nil
  | cons b bs ih =>
    rcases List.mem_cons.mp h with heq | h
    · cases heq
      exact ⟨[], b, bs, rfl, rfl, rfl⟩
    · obtain ⟨pre, c, post, hbs, ha, hk⟩ := ih h
      refine ⟨b :: pre, c, post, by rw [hbs]; rfl, ha, ?_⟩
      have hparts : bodyParts (b :: pre) = blockParts b ++ bodyParts pre := List.flatMap_cons
      have hlen : (partsItems config (blockParts b)).length = (blockItems config b).length := rfl
      rw [hk, hparts, partsItems_append, List.length_append, hlen]
      omega

/-- The instructions of all parts are those of the blocks. -/
theorem instrs_bodyParts (bs : List Guest.Block) :
    (bodyParts bs).flatMap Part.instrs = bs.flatMap (·.instrs.toList) := by
  induction bs with
  | nil => rfl
  | cons b bs ih =>
    have hparts : bodyParts (b :: bs) = blockParts b ++ bodyParts bs := List.flatMap_cons
    rw [hparts, List.flatMap_append, ih, List.flatMap_cons, blockParts, instrs_parts]

theorem uniform_bodyParts (bs : List Guest.Block) : ∀ q ∈ bodyParts bs, q.Uniform := by
  intro q hq
  obtain ⟨b, -, hq⟩ := List.mem_flatMap.mp hq
  exact uniform_parts _ _ q hq

end Dynarec.Compile
