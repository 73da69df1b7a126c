import Dynarec.Compile
import Dynarec.Proofs.Lower.Listing

/-! # The listing of a body

What the blocks of a trace become. A block is cut into parts: runs of instructions under one
test, and the check at a loop end. A run under `al` stands as it is; any other stands behind a
branch that skips it, unless it has no word at all. -/

namespace Dynarec.Compile

open Dynarec.Emit Dynarec.Lower

/-! ### Parts of a block -/

/-- The condition for which an instruction outside if-then blocks needs a region. -/
def lowered (i : Guest.Instr) : Cond := if i.absorbsCondition then .al else i.cond

inductive Part where
  /-- The check before the last instruction of a loop. -/
  | check (i : Guest.Instr)
  /-- Instructions under one test. -/
  | run (c : Cond) (is : List Guest.Instr)

/-- Puts a run before parts, as one with the first run if that is under the same test. -/
def Part.attach (c : Cond) (js : List Guest.Instr) : List Part → List Part
  | .run c' is :: more =>
    if c' = c then .run c (js ++ is) :: more else .run c js :: .run c' is :: more
  | ps => .run c js :: ps

/-- Puts an instruction before parts. One that sets flags ends its run, since the test of the run
was made on older flags. -/
def Part.cons (i : Guest.Instr) (ps : List Part) : List Part :=
  if i.setsFlags then .run (lowered i) [i] :: ps else Part.attach (lowered i) [i] ps

/-- The parts of a block. -/
def parts (isLoopEnd : Bool) : List Guest.Instr → List Part
  | [] => []
  | i :: rest =>
    if isLoopEnd && rest.isEmpty then .check i :: Part.cons i []
    else Part.cons i (parts isLoopEnd rest)

/-! ### Items -/

/-- What is known as the current instruction while an instruction is emitted. -/
def currentOf (i : Guest.Instr) : Current :=
  { pc := i.address, nextPc := i.nextPc, pcValue := i.pcReadValue, cond := i.cond }

def instrItems (config : Config) (i : Guest.Instr) : List Item := items config (currentOf i) i

/-- The check of the execution counter. -/
def syncOps : List Host.Instr := [
  .ldr .w .scratch .context Record.execCounter,
  .subImm .w .scratch .scratch 1,
  .str .w .scratch .context Record.execCounter,
  .cbnz .scratch 2]

def syncItems (i : Guest.Instr) : List Item :=
  ops syncOps ++ [.hole .syncPoint .none (currentOf i)]

/-- Items under a test. -/
def regionItems (c : Cond) (xs : List Item) : List Item :=
  if c = .al ∨ xs = [] then xs else .op (.bCond c.invert (xs.length + 1)) :: xs

/-- The branch of a region reaches its end. -/
def RegionFits (c : Cond) (xs : List Item) : Prop :=
  c ≠ .al → Host.fits19 (xs.length + 1) = true

namespace Part

def items (config : Config) : Part → List Item
  | check i => syncItems i
  | run c is => regionItems c (is.flatMap (instrItems config))

def Fits (config : Config) : Part → Prop
  | check _ => True
  | run c is => RegionFits c (is.flatMap (instrItems config))

end Part

def partsItems (config : Config) (ps : List Part) : List Item := ps.flatMap (Part.items config)

def PartsFit (config : Config) (ps : List Part) : Prop := ∀ p ∈ ps, Part.Fits config p

@[simp] theorem partsItems_cons (config : Config) (p : Part) (ps : List Part) :
    partsItems config (p :: ps) = p.items config ++ partsItems config ps := List.flatMap_cons ..

theorem partsItems_append (config : Config) (ps qs : List Part) :
    partsItems config (ps ++ qs) = partsItems config ps ++ partsItems config qs :=
  List.flatMap_append

@[simp] theorem partsFit_cons {config : Config} {p : Part} {ps : List Part} :
    PartsFit config (p :: ps) ↔ p.Fits config ∧ PartsFit config ps := List.forall_mem_cons

/-- An empty run under `al` in front changes neither items nor what has to fit. -/
theorem attach_al_nil (config : Config) (ps : List Part) :
    partsItems config (Part.attach .al [] ps) = partsItems config ps ∧
      (PartsFit config (Part.attach .al [] ps) ↔ PartsFit config ps) := by
  have hcons : ∀ qs : List Part,
      partsItems config (.run .al [] :: qs) = partsItems config qs ∧
        (PartsFit config (.run .al [] :: qs) ↔ PartsFit config qs) := by
    intro qs
    rw [partsItems_cons, partsFit_cons]
    exact ⟨rfl, and_iff_right (fun h => absurd rfl h)⟩
  unfold Part.attach
  split
  · split
    · rename_i h
      rw [h, List.nil_append]
      exact ⟨rfl, Iff.rfl⟩
    · exact hcons _
  · exact hcons _

theorem attach_run_eq (c : Cond) (js is : List Guest.Instr) (ps : List Part) :
    Part.attach c js (.run c is :: ps) = .run c (js ++ is) :: ps := by
  simp only [Part.attach, if_true]

theorem attach_run_ne {c c' : Cond} (h : c' ≠ c) (js is : List Guest.Instr) (ps : List Part) :
    Part.attach c js (.run c' is :: ps) = .run c js :: .run c' is :: ps := by
  simp only [Part.attach, h, if_false]

/-- Behind the instructions of a run, parts continue as if the run had been longer. -/
theorem attach_attach (c : Cond) (js ks : List Guest.Instr) (ps : List Part) :
    Part.attach c js (Part.attach c ks ps) = Part.attach c (js ++ ks) ps := by
  cases ps with
  | nil => simp only [Part.attach, if_true]
  | cons p ps =>
    cases p with
    | check i => simp only [Part.attach, if_true]
    | run c' is =>
      by_cases hc : c' = c
      · simp only [Part.attach, hc, if_true, List.append_assoc]
      · simp only [Part.attach, hc, if_false, if_true]

/-- Parts under another test stay apart. -/
theorem attach_of_ne {c c' : Cond} (h : c' ≠ c) (js ks : List Guest.Instr) (ps : List Part) :
    Part.attach c js (Part.attach c' ks ps) = .run c js :: Part.attach c' ks ps := by
  cases ps with
  | nil => simp only [Part.attach, h, if_false]
  | cons p ps =>
    cases p with
    | check i => simp only [Part.attach, h, if_false]
    | run d is =>
      by_cases hd : d = c'
      · simp only [Part.attach, hd, if_true, h, if_false]
      · simp only [Part.attach, hd, if_false, h]

/-! ### Blocks -/

def blockParts (b : Guest.Block) : List Part := parts b.isLoopEnd b.instrs.toList

def blockItems (config : Config) (b : Guest.Block) : List Item := partsItems config (blockParts b)

/-- Whether control never passes on behind the last instruction of a block. -/
def blockEnds (b : Guest.Block) : Bool := (b.instrs.toList.getLast?.map (·.endsFlow)).getD false

/-- The exit between a block that ended at `finish` and one that starts elsewhere. -/
def gapItems (e : Setting) (finish : Word) (ended : Bool) (start : Word) : List Item :=
  if !ended && finish != start then exitItems e finish else []

def itemsAfter (e : Setting) (finish : Word) (ended : Bool) : List Guest.Block → List Item
  | [] => if ended then [] else exitItems e finish
  | b :: rest =>
    gapItems e finish ended b.start ++ blockItems e.config b ++
      itemsAfter e b.finish (blockEnds b) rest

/-- The items of all blocks, with the exits between them and behind them. -/
def bodyItems (e : Setting) : List Guest.Block → List Item
  | [] => []
  | b :: rest => blockItems e.config b ++ itemsAfter e b.finish (blockEnds b) rest

/-- Where the blocks behind an exit or another block start, if they are emitted from index `n`
on. -/
def startsAfter (e : Setting) (n : Nat) (finish : Word) (ended : Bool) :
    List Guest.Block → List (Word × Nat)
  | [] => []
  | b :: rest =>
    let m := n + (gapItems e finish ended b.start).length
    (b.start, m) ::
      startsAfter e (m + (blockItems e.config b).length) b.finish (blockEnds b) rest

/-- Where all blocks start. -/
def bodyStarts (e : Setting) (n : Nat) : List Guest.Block → List (Word × Nat)
  | [] => []
  | b :: rest =>
    (b.start, n) ::
      startsAfter e (n + (blockItems e.config b).length) b.finish (blockEnds b) rest

/-- The exits for these blocks have slots, and the regions reach their ends. -/
def FitsAfter (e : Setting) (finish : Word) (ended : Bool) : List Guest.Block → Prop
  | [] => ended = false → e.dispatch finish ≠ .unaddressable
  | b :: rest =>
    (ended = false ∧ finish ≠ b.start → e.dispatch finish ≠ .unaddressable) ∧
      PartsFit e.config (blockParts b) ∧ FitsAfter e b.finish (blockEnds b) rest

def BodyFits (e : Setting) : List Guest.Block → Prop
  | [] => True
  | b :: rest => PartsFit e.config (blockParts b) ∧ FitsAfter e b.finish (blockEnds b) rest

end Dynarec.Compile
