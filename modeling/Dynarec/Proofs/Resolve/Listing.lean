import Dynarec.Proofs.Emission.Call
import Dynarec.Resolve

/-! # The listing of resolved fixups

What becomes of a placeholder: the instruction written over it, the items appended behind the
code, and what has to hold for that. All of it depends on the fixup, the block starts, the
registers in use and the length of the code so far. -/

namespace Dynarec.Resolve

open Dynarec.Emit

structure Resolved where
  /-- What is written over the placeholder. -/
  patch : Host.Instr
  /-- What is appended behind the code. -/
  tail : List Item := []
  how : Resolution
  /-- Branches reach, and slots are addressable. -/
  fits : Prop := True

/-! ### Sequences -/

/-- A sequence at `n` behind which control comes back. -/
def returning (site n : Nat) (xs : List Item) : Resolved where
  patch := .b (displacement site n)
  tail := xs ++ [.op (.b (displacement (n + xs.length) (site + 1)))]
  how := .stub
  fits := Host.fits26 (displacement site n) = true ∧
    Host.fits26 (displacement (n + xs.length) (site + 1)) = true

/-- A sequence at `n` that leaves the unit. -/
def leaving (site n : Nat) (xs : List Item) : Resolved where
  patch := .b (displacement site n)
  tail := xs
  how := .stub
  fits := Host.fits26 (displacement site n) = true

def Resolved.when (r : Resolved) (p : Prop) : Resolved := { r with fits := p ∧ r.fits }

/-- Leaves the unit for the address that is written already. -/
def leaveItems (e : Setting) : List Item := ops (dispatchOps e none) ++ [.exit .always]

/-- Leaves the unit if the scratch register is not zero. -/
def leaveNonzeroItems (e : Setting) : List Item :=
  ops (dispatchOps e none ++ [.cbz .scratch 2]) ++ [.exit (.nonzero .scratch)]

/-- Leaves the unit unless the guest goes on at `expected`. -/
def continuationItems (e : Setting) (expected : Word) : List Item :=
  ops ([.ldr .w .scratch .context Record.dispatchAddress] ++ Host.loadWord .dispatch expected ++
    [.data .eor .w .scratch .scratch .dispatch]) ++ leaveNonzeroItems e

/-- Writes the answer of a routine as the address where the guest goes on. -/
def answerOps : List Host.Instr := [.str .w (.ofNat 0) .context Record.dispatchAddress]

def callItems (e : Setting) (u : RegisterUse) (nextPc : Word) (target : Option Word) : List Item :=
  ops (target.elim [] addressOps ++ dispatchOps e target ++
    hostCallOps e.shape u .full (.register .dispatch) contextArgs answerOps) ++
    continuationItems e nextPc

def trapItems (e : Setting) (u : RegisterUse) (nextPc : Word) (helper : DWord)
    (args : List CallArg) : List Item :=
  ops (hostCallOps e.shape u .skipContext (.helper helper) args answerOps) ++
    continuationItems e nextPc

def syncPointItems (e : Setting) (u : RegisterUse) (pc : Word) : List Item :=
  ops (hostCallOps e.shape u .full (.helper e.config.helpers.syncCheck) [.reg .context]
    [.mov .x .dispatch (.ofNat 0)] ++ addressOps pc ++ [.mov .w .scratch .dispatch]) ++
    leaveNonzeroItems e

def timerReadItems (e : Setting) (u : RegisterUse) (rt rt2 : Guest.Gpr) : List Item :=
  ops (hostCallOps e.shape u .skipContext (.helper e.config.helpers.timerRead) [.reg .context] [
    .str .w (.ofNat 0) .context (Record.gpr rt),
    .lsrX .scratch (.ofNat 0) 32,
    .str .w .scratch .context (Record.gpr rt2)])

/-- A guest register as an argument. -/
def argOf (r : Guest.Gpr) (pcValue : Word) : CallArg :=
  if r.isPc then .imm (pcValue.setWidth 64) else .reg (Host.pinned r)

def tableArgs (pcValue : Word) (rn rm : Guest.Gpr) (halfword : Bool) : List CallArg :=
  [.reg .context, argOf rn pcValue, argOf rm pcValue, .imm (if halfword then 1 else 0),
    .imm (pcValue.setWidth 64)]

def tableBranchItems (e : Setting) (u : RegisterUse) (pcValue : Word) (rn rm : Guest.Gpr)
    (halfword : Bool) : List Item :=
  ops (hostCallOps e.shape u .skipContext (.helper e.config.helpers.tableBranch)
    (tableArgs pcValue rn rm halfword) answerOps) ++ leaveItems e

/-! ### Direct branches -/

section Direct

variable (e : Setting) (targets : Word → Option Nat) (site n : Nat)

def trampolined (t : Word) : Resolved where
  patch := .b (displacement site n)
  tail := exitItems e t
  how := .trampoline
  fits := e.dispatch t ≠ .unaddressable ∧ Host.fits26 (displacement site n) = true

def directed (t : Word) : Resolved :=
  match targets t with
  | none => trampolined e site n t
  | some index =>
    if displacement site index = 1 then { patch := .nop, how := .elided }
    else if Host.fits26 (displacement site index) then
      { patch := .b (displacement site index), how := .patched }
    else trampolined e site n t

/-- The branch from the long form to the target, if it reaches. -/
def nearBranch (index : Option Nat) : Option Int :=
  (index.map (displacement (n + 2))).filter Host.fits26

def longDirected (cond : Cond) (t : Word) (index : Option Nat) : Resolved where
  patch := .b (displacement site n)
  tail := ops [.bCond cond 2, .b (displacement (n + 1) (site + 1))] ++
    match nearBranch n index with
    | some disp => [.op (.b disp)]
    | none => exitItems e t
  how := .longBranch (nearBranch n index).isNone
  fits := Host.fits26 (displacement (n + 1) (site + 1)) = true ∧
    (nearBranch n index = none → e.dispatch t ≠ .unaddressable) ∧
    Host.fits26 (displacement site n) = true

def condDirected (cond : Cond) (t : Word) : Resolved :=
  match targets t with
  | some index =>
    if displacement site index = 1 then { patch := .nop, how := .elided }
    else if Host.fits19 (displacement site index) then
      { patch := .bCond cond (displacement site index), how := .patched }
    else longDirected e site n cond t (some index)
  | none =>
    if Host.fits19 (displacement site n) then
      { patch := .bCond cond (displacement site n), tail := exitItems e t, how := .trampoline,
        fits := e.dispatch t ≠ .unaddressable }
    else longDirected e site n cond t none

end Direct

/-! ### All kinds -/

/-- A fixup without a usable target. -/
def unusable : Resolved where
  patch := .nop
  how := .stub
  fits := False

/-- What becomes of a placeholder when the code has `n` words. -/
def resolved (e : Setting) (u : RegisterUse) (targets : Word → Option Nat) (f : Fixup) (n : Nat) :
    Resolved :=
  match f.kind, f.target with
  | .branch, .address t => directed e targets f.site n t
  | .condBranch cond, .address t => condDirected e targets f.site n cond t
  | .call, .address t =>
    (returning f.site n (callItems e u f.nextPc (some t))).when (e.dispatch t ≠ .unaddressable)
  | .indirectCall, _ => returning f.site n (callItems e u f.nextPc none)
  | .indirectBranch, .register rm =>
    if rm.isPc then directed e targets f.site n f.pcValue
    else leaving f.site n
      (.op (.str .w (Host.pinned rm) .context Record.dispatchAddress) :: leaveItems e)
  | .indirectBranch, .none => leaving f.site n (leaveItems e)
  | .tableBranch halfword, .registers rn rm =>
    leaving f.site n (tableBranchItems e u f.pcValue rn rm halfword)
  | .syncPoint, _ => returning f.site n (syncPointItems e u f.pc)
  | .softwareInterrupt imm, _ =>
    returning f.site n (trapItems e u f.nextPc e.config.helpers.softwareInterrupt
      [.reg .context, .imm (imm.setWidth 64), .imm (f.nextPc.setWidth 64)])
  | .exception kind imm, _ =>
    returning f.site n (trapItems e u f.nextPc e.config.helpers.exception
      [.reg .context, .imm kind.number, .imm (f.pc.setWidth 64), .imm (imm.setWidth 64)])
  | .timerRead, .registers rt rt2 =>
    (returning f.site n (timerReadItems e u rt rt2)).when (rt.isPc = false ∧ rt2.isPc = false)
  | _, _ => unusable

/-! ### All fixups of a body -/

/-- What becomes of an item at index `k` when the code has `n` words. -/
def piece (e : Setting) (u : RegisterUse) (targets : Word → Option Nat) (k n : Nat) (x : Item) :
    Item × List Item :=
  match x.fixup? k with
  | some f => (.op (resolved e u targets f n).patch, (resolved e u targets f n).tail)
  | none => (x, [])

/-- What becomes of the items from index `k` on: each item as it is in the end, with the sequence
that is appended for it. -/
def pieces (e : Setting) (u : RegisterUse) (targets : Word → Option Nat) (k n : Nat) :
    List Item → List (Item × List Item)
  | [] => []
  | x :: rest =>
    let p := piece e u targets k n x
    p :: pieces e u targets (k + 1) (n + p.2.length) rest

/-- The items in the end, without the sequences. -/
def itemsOf (ps : List (Item × List Item)) : List Item := ps.map Prod.fst

/-- The sequences, one behind the other. -/
def tailsOf (ps : List (Item × List Item)) : List Item := ps.flatMap Prod.snd

/-- All fixups of the items from index `k` on can be resolved. -/
def ResolveFits (e : Setting) (u : RegisterUse) (targets : Word → Option Nat) (k n : Nat) :
    List Item → Prop
  | [] => True
  | x :: rest =>
    (∀ f, x.fixup? k = some f → (resolved e u targets f n).fits) ∧
      ResolveFits e u targets (k + 1) (n + (piece e u targets k n x).2.length) rest

/-- The count of the fixups of the items from index `k` on, added to a tally. -/
def tallied (e : Setting) (u : RegisterUse) (targets : Word → Option Nat) (k n : Nat)
    (tally : Tally) : List Item → Tally
  | [] => tally
  | x :: rest =>
    let next := match x.fixup? k with
      | some f => tally.add (resolved e u targets f n).how
      | none => tally
    tallied e u targets (k + 1) (n + (piece e u targets k n x).2.length) next rest

end Dynarec.Resolve
