import Dynarec.Proofs.Body.Listing

/-! # If-then blocks spelled out

An if-then instruction emits no word. It puts conditions on the instructions behind it, also on
those of the next block, so a trace is compiled like the one in which every instruction has its
condition written out and no if-then instruction is left. -/

namespace Dynarec.Guest

def Kind.isIfThen : Kind → Bool
  | .ifThen .. => true
  | _ => false

/-- The instruction with the condition that it has in an if-then state. -/
def Instr.under (q : ItState) (i : Instr) : Instr := { i with cond := q.current?.getD i.cond }

/-- What keeps the place of an if-then instruction at the end of a block. -/
def Instr.blank (i : Instr) : Instr :=
  { i with kind := .nop, cond := .al, flags := { i.flags with setsFlags := false } }

/-- The if-then state behind an instruction. -/
def ItState.behind (q : ItState) (i : Instr) : ItState :=
  match i.kind with
  | .ifThen firstcond mask => .start firstcond mask
  | _ => if q.isActive then q.advance else q

/-- The instructions of a block, spelled out from an if-then state on. -/
def spelled (q : ItState) : List Instr → List Instr
  | [] => []
  | i :: rest =>
    if i.kind.isIfThen then
      if rest.isEmpty then [i.blank] else spelled (q.behind i) rest
    else i.under q :: spelled (q.behind i) rest

/-- Whether the last instruction of a block checks for the end of a loop. -/
def checksLoop (isLoopEnd : Bool) (is : List Instr) : Bool :=
  isLoopEnd && !(is.getLast?.map (·.kind.isIfThen)).getD false

namespace Block

def spelled (q : ItState) (b : Block) : Block where
  start := b.start
  isLoopEnd := checksLoop b.isLoopEnd b.instrs.toList
  instrs := (Guest.spelled q b.instrs.toList).toArray

/-- The if-then state behind a block. -/
def behind (q : ItState) (b : Block) : ItState := b.instrs.toList.foldl ItState.behind q

end Block

def spelledBlocks (q : ItState) : List Block → List Block
  | [] => []
  | b :: rest => b.spelled q :: spelledBlocks (b.behind q) rest

variable {q : ItState} {i : Instr} {is : List Instr}

/-! ### Instruction by instruction -/

theorem spelled_ifThen_last (hi : i.kind.isIfThen = true) : spelled q [i] = [i.blank] := by
  rw [spelled, hi]
  rfl

theorem spelled_ifThen_cons (hi : i.kind.isIfThen = true) (j : Instr) (rest : List Instr) :
    spelled q (i :: j :: rest) = spelled (q.behind i) (j :: rest) := by
  rw [spelled, hi]
  rfl

theorem spelled_cons (hi : i.kind.isIfThen = false) (rest : List Instr) :
    spelled q (i :: rest) = i.under q :: spelled (q.behind i) rest := by
  rw [spelled, hi]
  rfl

theorem checksLoop_singleton (isLoopEnd : Bool) (i : Instr) :
    checksLoop isLoopEnd [i] = (isLoopEnd && !i.kind.isIfThen) := rfl

theorem checksLoop_cons_cons (isLoopEnd : Bool) (i j : Instr) (rest : List Instr) :
    checksLoop isLoopEnd (i :: j :: rest) = checksLoop isLoopEnd (j :: rest) := by
  rw [checksLoop, List.getLast?_cons_cons]
  rfl

/-! ### What stays -/

theorem spelled_ne_nil (q : ItState) (h : is ≠ []) : spelled q is ≠ [] := by
  induction is generalizing q with
  | nil => exact absurd rfl h
  | cons i rest ih =>
    unfold spelled
    split
    · split
      · exact List.cons_ne_nil _ _
      · rename_i hrest
        exact ih _ (fun hnil => hrest (List.isEmpty_iff.mpr hnil))
    · exact List.cons_ne_nil _ _

/-- What does not depend on predicates is the same for the last instruction. -/
theorem getLast?_spelled {α : Type} {g : Instr → α} (hu : ∀ q i, g (i.under q) = g i)
    (hb : ∀ i, g i.blank = g i) (q : ItState) (is : List Instr) :
    (spelled q is).getLast?.map g = is.getLast?.map g := by
  induction is generalizing q with
  | nil => rfl
  | cons i rest ih =>
    cases rest with
    | nil =>
      unfold spelled
      split
      · exact congrArg some (hb i)
      · exact congrArg some (hu q i)
    | cons j rest =>
      have hne := spelled_ne_nil (q.behind i) (List.cons_ne_nil j rest)
      rw [List.getLast?_cons_cons, ← ih (q.behind i), spelled]
      split
      · rfl
      · obtain ⟨k, ks, hks⟩ := List.exists_cons_of_ne_nil hne
        rw [hks, List.getLast?_cons_cons]

theorem Block.finish_spelled (q : ItState) (b : Block) : (b.spelled q).finish = b.finish := by
  show ((Guest.spelled q b.instrs.toList).toArray.back?.map Instr.nextPc).getD b.start = _
  rw [List.back?_toArray, getLast?_spelled (fun _ _ => rfl) fun _ => rfl, Array.getLast?_toList]
  rfl

/-! ### Blocks without if-then instructions -/

theorem Instr.under_of_inactive (h : q.isActive = false) (i : Instr) : i.under q = i := by
  unfold Instr.under ItState.current?
  rw [h]
  rfl

theorem ItState.behind_of_inactive (h : q.isActive = false) (hi : i.kind.isIfThen = false) :
    q.behind i = q := by
  unfold ItState.behind
  split
  · rename_i hk
    rw [hk] at hi
    cases hi
  · rw [h]
    rfl

theorem spelled_eq_self (h : q.isActive = false) (his : ∀ i ∈ is, i.kind.isIfThen = false) :
    spelled q is = is := by
  induction is with
  | nil => rfl
  | cons i rest ih =>
    have hi := his i List.mem_cons_self
    rw [spelled_cons hi, ItState.behind_of_inactive h hi, Instr.under_of_inactive h,
      ih fun j hj => his j (List.mem_cons_of_mem _ hj)]

theorem foldl_behind_of_inactive (h : q.isActive = false)
    (his : ∀ i ∈ is, i.kind.isIfThen = false) : is.foldl ItState.behind q = q := by
  induction is with
  | nil => rfl
  | cons i rest ih =>
    rw [List.foldl_cons, ItState.behind_of_inactive h (his i List.mem_cons_self)]
    exact ih fun j hj => his j (List.mem_cons_of_mem _ hj)

theorem Block.spelled_eq_self (h : q.isActive = false) {b : Block}
    (hb : ∀ i ∈ b.instrs.toList, i.kind.isIfThen = false) : b.spelled q = b := by
  have hlast : (b.instrs.toList.getLast?.map (·.kind.isIfThen)).getD false = false := by
    cases hl : b.instrs.toList.getLast? with
    | none => rfl
    | some i => exact hb i (List.mem_of_getLast? hl)
  unfold Block.spelled checksLoop
  rw [hlast, Guest.spelled_eq_self h hb, Bool.not_false, Bool.and_true]

theorem spelledBlocks_eq_self (h : q.isActive = false) {bs : List Block}
    (hbs : ∀ b ∈ bs, ∀ i ∈ b.instrs.toList, i.kind.isIfThen = false) : spelledBlocks q bs = bs := by
  induction bs with
  | nil => rfl
  | cons b rest ih =>
    have hb := hbs b List.mem_cons_self
    rw [spelledBlocks, Block.spelled_eq_self h hb, Block.behind, foldl_behind_of_inactive h hb,
      ih fun c hc => hbs c (List.mem_cons_of_mem _ hc)]

end Dynarec.Guest

namespace Dynarec.Compile

open Dynarec.Emit

variable {q : Guest.ItState} {i : Guest.Instr}

/-! ### Parts of what is spelled out -/

/-- No check stands before an if-then instruction, also if it ends a loop. -/
theorem parts_ifThen_last (hi : i.kind.isIfThen = true) (isLoopEnd : Bool) :
    parts (Guest.checksLoop isLoopEnd [i]) (Guest.spelled q [i]) = [.run .al [i.blank]] := by
  rw [Guest.spelled_ifThen_last hi, Guest.checksLoop_singleton, hi, Bool.not_true, Bool.and_false]
  rfl

theorem parts_ifThen_cons (hi : i.kind.isIfThen = true) (isLoopEnd : Bool) (j : Guest.Instr)
    (rest : List Guest.Instr) :
    parts (Guest.checksLoop isLoopEnd (i :: j :: rest)) (Guest.spelled q (i :: j :: rest)) =
      parts (Guest.checksLoop isLoopEnd (j :: rest)) (Guest.spelled (q.behind i) (j :: rest)) := by
  rw [Guest.spelled_ifThen_cons hi, Guest.checksLoop_cons_cons]

theorem parts_spelled_cons (hi : i.kind.isIfThen = false) (isLoopEnd : Bool)
    (rest : List Guest.Instr) :
    parts (Guest.checksLoop isLoopEnd (i :: rest)) (Guest.spelled q (i :: rest)) =
      if isLoopEnd && rest.isEmpty then .check (i.under q) :: Part.cons (i.under q)
        (parts (Guest.checksLoop isLoopEnd rest) (Guest.spelled (q.behind i) rest))
      else Part.cons (i.under q)
        (parts (Guest.checksLoop isLoopEnd rest) (Guest.spelled (q.behind i) rest)) := by
  rw [Guest.spelled_cons hi]
  cases rest with
  | nil =>
    rw [Guest.checksLoop_singleton, hi, Bool.not_false, Bool.and_true]
    rfl
  | cons j rest =>
    have hne : (Guest.spelled (q.behind i) (j :: rest)).isEmpty = false :=
      List.isEmpty_eq_false_iff.mpr (Guest.spelled_ne_nil _ (List.cons_ne_nil j rest))
    rw [Guest.checksLoop_cons_cons, parts, hne, List.isEmpty_cons, Bool.and_false, Bool.and_false]
    rfl

end Dynarec.Compile
