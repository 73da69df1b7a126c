import Dynarec.Proofs.Run.Call
import Dynarec.Proofs.Run.Frame

/-! # Placing arguments

The moves of arguments into the first registers are made one after the other, and have the effect
of all at once: a source that an earlier move has written to is refused. -/

namespace Dynarec.Emit

open Dynarec.Host Dynarec.Compile

/-! ### Refused sources -/

section Sources

variable {i : Nat} {args : List CallArg} {x : Host.Gpr}

theorem clobbered_reg (hi : i < 32) : (placement i (.reg x :: args)).2 =
    if x.index < i then some x else (placement (i + 1) args).2 := by
  simp only [placement]
  by_cases hx : x = .ofNat i
  · have hindex : ¬x.index < i := by
      rw [hx, Gpr.index_ofNat hi]
      omega
    rw [if_pos hx, if_neg hindex]
  · rw [if_neg hx]
    split <;> rfl

/-- Every argument is placed exactly if no source stands below its place. -/
theorem placed_iff (hi : i + args.length ≤ 32) : (placement i args).2 = none ↔
    ∀ j x, args[j]? = some (.reg x) → i + j ≤ x.index := by
  induction args generalizing i with
  | nil => exact iff_of_true rfl fun j x hj => by cases hj
  | cons a args ih =>
    rw [List.length_cons] at hi
    have hnext := ih (i := i + 1) (by omega)
    -- The sources behind the first argument stand one place further on.
    have htail : (∀ j x, args[j]? = some (.reg x) → i + 1 + j ≤ x.index) ↔
        ∀ j x, (a :: args)[j + 1]? = some (.reg x) → i + (j + 1) ≤ x.index := by
      simp only [List.getElem?_cons_succ, Nat.add_right_comm i 1, ← Nat.add_assoc]
    rw [htail] at hnext
    cases a with
    | imm value =>
      refine hnext.trans ⟨fun h j x hj => ?_, fun h j => h (j + 1)⟩
      cases j with
      | zero => cases hj
      | succ j => exact h j x hj
    | reg y =>
      rw [clobbered_reg (by omega)]
      by_cases hy : y.index < i
      · rw [if_pos hy]
        exact iff_of_false (fun h => by cases h) fun h => absurd (h 0 y rfl) (by omega)
      · rw [if_neg hy]
        refine hnext.trans ⟨fun h j x hj => ?_, fun h j => h (j + 1)⟩
        cases j with
        | zero =>
          cases hj
          omega
        | succ j => exact h j x hj

/-- A refused source stands below its place. -/
theorem below_of_clobbered (hi : i + args.length ≤ 32) (h : (placement i args).2 = some x) :
    ∃ j, args[j]? = some (.reg x) ∧ x.index < i + j := by
  induction args generalizing i with
  | nil => cases h
  | cons a args ih =>
    rw [List.length_cons] at hi
    have hlater : (placement (i + 1) args).2 = some x →
        ∃ j, (a :: args)[j]? = some (.reg x) ∧ x.index < i + j := by
      intro hrest
      obtain ⟨j, hj, hlt⟩ := ih (by omega) hrest
      exact ⟨j + 1, hj, by omega⟩
    cases a with
    | imm value => exact hlater h
    | reg y =>
      rw [clobbered_reg (by omega)] at h
      by_cases hy : y.index < i
      · rw [if_pos hy] at h
        cases h
        exact ⟨0, rfl, hy⟩
      · rw [if_neg hy] at h
        exact hlater h

end Sources

/-! ### The moves as one -/

/-- From `s` to `t` every argument was moved to its place at once, and nothing else has changed. -/
structure Placed (args : List CallArg) (s t : Host.State) : Prop where
  values : ∀ i a, args[i]? = some a → t.x (.ofNat i) = a.value s
  gprs : ∀ q : Host.Gpr, args.length ≤ q.index → t.x q = s.x q
  vregs : t.v = s.v
  flags : t.flags = s.flags
  mem : t.mem = s.mem

/-- The words, wherever they stand, are run through and place the arguments. -/
def Places (words : List Word) (args : List CallArg) : Prop :=
  ∀ (pre post : List Word) (s : Host.State), s.pc = pre.length →
    ∃ t, Visits (instrAt? (pre ++ (words ++ post)).toArray)
        (List.range' pre.length words.length) s t ∧
      t.pc = pre.length + words.length ∧ Placed args s t

theorem places_placement {args : List CallArg} (h : (placement 0 args).2 = none)
    (hcount : args.length ≤ maxCallArgs) :
    Places ((placement 0 args).1.map Host.Instr.encode) args := by
  intro pre post s hs
  have hst := straight_placement 0 args
  have hi : 0 + args.length ≤ 31 := by
    rw [maxCallArgs] at hcount
    omega
  obtain ⟨t, hexec, hv, hflags, hmem, hgprs, hargs⟩ := placement_run h hi s
  have hat := found_of_words pre post (canonical_of_straight hst)
  rw [← hs] at hat
  obtain ⟨hrun, hpc⟩ := visits_of_execAll hat hst hexec
  rw [hs] at hrun hpc
  rw [List.length_map]
  refine ⟨t, hrun, hpc, fun i a ha => ?_, fun q hq => hgprs q (.inr ?_), hv, hflags, hmem⟩
  · rw [← hargs i a ha, Nat.zero_add]
  · rwa [Nat.zero_add]

/-! ### Every list of arguments -/

/-- What comes of placing arguments: which lists are refused and with what error, and that the words
for all others place them. -/
structure PlacesArgs (e : Setting) (s : Emission) (args : List CallArg) : Prop where
  tooMany : ∀ n t, placeArgs args e s = .error (.error (.tooManyArguments n)) t ↔
    7 < args.length ∧ n = args.length ∧ t = s
  moves : ∀ t, placeArgs args e s = .ok () t →
    ∃ words : List Word, t = { s with code := s.code ++ words.toArray } ∧ Places words args
  overwritten : args.length ≤ 7 → ∀ (j : Nat) (x : Host.Gpr),
    args[j]? = some (.reg x) → x.index < j →
      ∃ y t, placeArgs args e s = .error (.error (.argumentClobbered y)) t
  clobbered : ∀ x t, placeArgs args e s = .error (.error (.argumentClobbered x)) t →
    ∃ j : Nat, args[j]? = some (.reg x) ∧ x.index < j
  ends : args.length ≤ 7 →
    (∀ (j : Nat) (x : Host.Gpr), args[j]? = some (.reg x) → j ≤ x.index) →
      ∃ t, placeArgs args e s = .ok () t

section Run

variable (e : Setting) (s : Emission) {args : List CallArg}

theorem placeArgs_tooMany (h : 7 < args.length) :
    placeArgs args e s = .error (.error (.tooManyArguments args.length)) s := by
  simp only [placeArgs, maxCallArgs, gt_iff_lt, if_pos h, run_bind, run_fail]

theorem placeArgs_clobbered (h : args.length ≤ 7) {x : Host.Gpr}
    (hx : (placement 0 args).2 = some x) :
    placeArgs args e s =
      .error (.error (.argumentClobbered x)) (s.extend (ops (placement 0 args).1)) := by
  simp only [placeArgs, maxCallArgs, gt_iff_lt, if_neg (Nat.not_lt.mpr h), hx]
  exact bind_run_ok (asm_run (encodable_placement 0 args) e s)

theorem placeArgs_placed (h : args.length ≤ 7) (hn : (placement 0 args).2 = none) :
    placeArgs args e s = .ok () (s.extend (ops (placement 0 args).1)) :=
  (placeArgs_yields args).run ⟨h, hn⟩

/-- One of three things comes of placing arguments. -/
theorem placeArgs_cases (args : List CallArg) :
    (7 < args.length ∧ placeArgs args e s = .error (.error (.tooManyArguments args.length)) s) ∨
    (args.length ≤ 7 ∧ ∃ x, (placement 0 args).2 = some x ∧ placeArgs args e s =
      .error (.error (.argumentClobbered x)) (s.extend (ops (placement 0 args).1))) ∨
    (args.length ≤ 7 ∧ (placement 0 args).2 = none ∧
      placeArgs args e s = .ok () (s.extend (ops (placement 0 args).1))) := by
  by_cases hcount : 7 < args.length
  · exact .inl ⟨hcount, placeArgs_tooMany e s hcount⟩
  · have hle := Nat.not_lt.mp hcount
    cases hx : (placement 0 args).2 with
    | some x => exact .inr (.inl ⟨hle, x, rfl, placeArgs_clobbered e s hle hx⟩)
    | none => exact .inr (.inr ⟨hle, rfl, placeArgs_placed e s hle hx⟩)

end Run

theorem arguments_placed (e : Setting) (s : Emission) (args : List CallArg) :
    PlacesArgs e s args := by
  have hsources (h : args.length ≤ 7) : (placement 0 args).2 = none ↔
      ∀ (j : Nat) (x : Host.Gpr), args[j]? = some (.reg x) → j ≤ x.index := by
    rw [placed_iff (by omega)]
    simp only [Nat.zero_add]
  rcases placeArgs_cases e s args with ⟨hcount, hrun⟩ | ⟨hcount, y, hy, hrun⟩ | ⟨hcount, hn, hrun⟩
  · have hnot := Nat.not_le.mpr hcount
    refine ⟨fun n t => ?_, fun t ht => ?_, fun h => absurd h hnot, fun x t ht => ?_,
      fun h => absurd h hnot⟩
    · rw [hrun]
      simp only [EStateM.Result.error.injEq, Fault.error.injEq, EmitError.tooManyArguments.injEq,
        hcount, true_and, eq_comm]
    · cases hrun.symm.trans ht
    · cases hrun.symm.trans ht
  · have hnot := Nat.not_lt.mpr hcount
    refine ⟨fun n t => ?_, fun t ht => ?_, fun _ _ _ _ _ => ⟨y, _, hrun⟩, fun x t ht => ?_,
      fun h hfit => ?_⟩
    · exact iff_of_false (fun h => by cases hrun.symm.trans h) fun h => hnot h.1
    · cases hrun.symm.trans ht
    · cases hrun.symm.trans ht
      obtain ⟨j, hj, hlt⟩ := below_of_clobbered (i := 0) (by omega) hy
      exact ⟨j, hj, by omega⟩
    · rw [(hsources h).mpr hfit] at hy
      cases hy
  · have hnot := Nat.not_lt.mpr hcount
    refine ⟨fun n t => ?_, fun t ht => ?_, fun h j x hj hlt => ?_, fun x t ht => ?_,
      fun _ _ => ⟨_, hrun⟩⟩
    · exact iff_of_false (fun h => by cases hrun.symm.trans h) fun h => hnot h.1
    · cases hrun.symm.trans ht
      exact ⟨_, Emission.extend_ops s _, places_placement hn hcount⟩
    · exact absurd ((hsources h).mp hn j x hj) (Nat.not_le.mpr hlt)
    · cases hrun.symm.trans ht

end Dynarec.Emit
