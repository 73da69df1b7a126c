import Dynarec.Proofs.Loops.Checks

/-! # Control runs from front to back

The words of a unit are ordered by the item of the body that they belong to: an item comes with the
sequence it has out of line, and the trailer comes last. Every way but the branch of a loop leads to
a later item, or on within the words of one. -/

namespace Dynarec.Compile

open Dynarec.Emit Dynarec.Host Dynarec.Resolve

namespace Plan

variable (p : Plan)

/-- The word at index `j` belongs to the item at offset `q` of the body, or to a later one, or to
the trailer. -/
def Past (q j : Nat) : Prop := p.room + q ≤ j ∧ j < p.room + p.body.length ∨ p.seqAt q ≤ j

/-- From `j` to `m` control comes nearer to the trailer. -/
structure Rises (j m : Nat) : Prop where
  keeps : ∀ q, p.Past q j → p.Past q m
  later : j < m ∨ ∃ q, p.Past q m ∧ ¬p.Past q j

variable {p}

theorem Rises.trans {j m n : Nat} (h : p.Rises j m) (h' : p.Rises m n) : p.Rises j n := by
  refine ⟨fun q hq => h'.keeps q (h.keeps q hq), ?_⟩
  rcases h.later with hlt | ⟨q, hm, hj⟩
  · rcases h'.later with hlt' | ⟨q, hn, hm⟩
    · exact .inl (Nat.lt_trans hlt hlt')
    · exact .inr ⟨q, hn, fun hj => hm (h.keeps q hj)⟩
  · exact .inr ⟨q, h'.keeps q hm, hj⟩

theorem not_rises_self (j : Nat) : ¬p.Rises j j := by
  intro h
  rcases h.later with hlt | ⟨q, hj, hn⟩
  · exact Nat.lt_irrefl j hlt
  · exact hn hj

/-- On in the body. -/
theorem rises_body {j m : Nat} (hjm : j < m) (hm : m < p.room + p.body.length) : p.Rises j m := by
  refine ⟨fun q hq => .inl ?_, .inl hjm⟩
  have hseq := p.le_seqAt q
  rcases hq with hq | hq <;> omega

/-- On behind the body. -/
theorem rises_behind {j m : Nat} (hj : p.room + p.body.length ≤ j) (hjm : j < m) : p.Rises j m := by
  refine ⟨fun q hq => .inr ?_, .inl hjm⟩
  rcases hq with hq | hq <;> omega

theorem rises_finish {j : Nat} (hj : j < p.finish) : p.Rises j p.finish :=
  ⟨fun q _ => .inr (p.seqAt_le_finish q), .inl hj⟩

/-- From an item to its sequence. -/
theorem rises_enter {q : Nat} (h : p.seqAt q < p.seqAt (q + 1)) :
    p.Rises (p.room + q) (p.seqAt q) := by
  have hlt : q < p.body.length := by
    refine Nat.lt_of_not_le fun hle => Nat.lt_irrefl _ (Nat.lt_of_lt_of_eq h ?_)
    rw [seqAt, seqAt, List.take_of_length_le hle, List.take_of_length_le (Nat.le_succ_of_le hle)]
  have hseq := p.le_seqAt q
  refine ⟨fun n hn => .inr ?_, .inl (by omega)⟩
  rcases hn with hn | hn
  · exact p.seqAt_mono (by omega)
  · have hseq' := p.le_seqAt n
    omega

/-- From a sequence to a later item. -/
theorem rises_back {q j m : Nat} (hlo : p.seqAt q ≤ j) (hhi : j < p.seqAt (q + 1))
    (hm : p.room + q < m) (hm' : m < p.room + p.body.length) : p.Rises j m := by
  have hseq := p.le_seqAt q
  refine ⟨fun n hn => .inl ⟨?_, hm'⟩, .inr ⟨q + 1, .inl ⟨hm, hm'⟩, fun hn => ?_⟩⟩
  · rcases hn with hn | hn
    · omega
    · rcases Nat.lt_or_ge q n with hlt | hge
      · have hmono : p.seqAt (q + 1) ≤ p.seqAt n := p.seqAt_mono hlt
        omega
      · omega
  · rcases hn with hn | hn <;> omega

end Plan

end Dynarec.Compile

namespace Dynarec.Translated

open Dynarec.Emit Dynarec.Compile Dynarec.Host Dynarec.Resolve

variable {options : Options} {dispatch : DispatchTable} {img : Guest.Image} {entry : Word}
  {c : Compiled} {t : Guest.Trace} {p : Plan} (h : Translated options dispatch img entry c t p)
  (hf : img.finish < wordCount) (hb : c.guestBytes < 0xFFFFFFFC)

include h hf hb

/-- Control comes nearer to the trailer, or it takes the branch of a loop, from behind its check to
before it. -/
theorem rises_or_loops (hr : p.prologue.length < p.room → p.prologue.length < p.room % 0x4000000)
    {j m : Nat} (hp : p.Passes j m) : p.Rises j m ∨
      ∃ pre i post, bodyParts p.blocks = pre ++ .check i :: post ∧
        ∃ r, r = (partsItems p.setting.config pre).length ∧ m ≤ p.room + r ∧
          Behind (p.room + r) (p.seqAt (r + 4)) (p.seqAt (r + 6)) j := by
  cases hp with
  | next hne =>
    -- The last word of the body does not lead on, so the next word is on the same side of its end.
    have hstart : p.seqAt 0 = p.room + p.body.length := rfl
    have hne := hne 0
    rcases Nat.lt_or_ge j (p.room + p.body.length) with hlt | hge
    · exact .inl (p.rises_body (Nat.lt_succ_self j) (by omega))
    · exact .inl (p.rises_behind hge (Nat.lt_succ_self j))
  | skipRoom hlt hle hmod =>
    have hlt' := hr hlt
    have hmod' := Nat.mod_le m 0x4000000
    have hpos := h.body_length_pos
    exact .inl (p.rises_body (by omega) (by omega))
  | jump hj =>
    cases hj with
    | check _ _ hm => exact .inl (p.rises_body (by omega) hm)
    | skip _ _ _ hlt hm => exact .inl (p.rises_body (by omega) hm)
    | enter hlt => exact .inl (p.rises_enter hlt)
    | @inside q _ _ hlo hjm hhi =>
      exact .inl (p.rises_behind (Nat.le_trans (p.le_seqAt q) hlo) hjm)
    | back _ _ hlo hhi hm =>
      exact .inl (p.rises_back (Nat.le_of_lt hlo) hhi (by omega) (by omega))
    | leave hj => exact .inl (p.rises_finish hj)
    | @goal q _ _ x f a hx hfix hg ha hj =>
      rcases Nat.lt_or_ge (p.room + q) m with hlt | hge
      · have hbound := (h.targets_bounds ha).2
        rcases hj with rfl | hj
        · exact .inl (p.rises_body hlt hbound)
        · exact .inl (p.rises_back (Nat.le_of_lt hj.1) hj.2 hlt hbound)
      -- A goal that is not ahead belongs to the branch of a loop, five words behind its check.
      · obtain ⟨pre, i, post, hparts, hq, hle⟩ := h.loops_of_goal hf hb q x hx f hfix a hg _ ha hge
        refine .inr ⟨pre, i, post, hparts, _, rfl, hle, ?_⟩
        generalize (partsItems p.setting.config pre).length = r at hq
        have hq' : q = r + 5 := by omega
        subst hq'
        have hmono := p.seqAt_mono (show r + 4 ≤ r + 5 by omega)
        rcases hj with rfl | hj
        · exact .inl (by omega)
        · exact .inr ⟨by omega, hj.2⟩

end Dynarec.Translated
