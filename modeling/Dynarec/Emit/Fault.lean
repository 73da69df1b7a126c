import Dynarec.Cond
import Dynarec.Guest.Register
import Dynarec.Host.Register

/-! # What can go wrong while code is emitted

An error is a cause that the caller is told about. An abort is a broken contract of the code
buffer, the encoder or the slot arithmetic: nothing is said about the state behind it. -/

namespace Dynarec.Emit

/-- The two pools of temporary registers. -/
inductive RegClass where
  | gpr | vreg
  deriving DecidableEq, Repr

def RegClass.name : RegClass → String
  | gpr => "gpr"
  | vreg => "fpsimd"

inductive EmitError where
  | poolExhausted (cls : RegClass)
  | unmappedGuestRegister (r : Guest.Gpr)
  | branchOutOfRange (site target : Nat) (disp : Int)
  | conditionalRegionTooLong (site : Nat) (disp : Int)
  | invalidRegionCondition (c : Cond)
  | tooManyArguments (count : Nat)
  | argumentClobbered (source : Host.Gpr)
  | missingFixupTarget (kind : String) (site : Nat)
  | notAPlaceholder (site : Nat)
  | prologueTooLarge (needed reserved : Nat)
  | spillAreaTooLarge (bytes : Nat)
  deriving DecidableEq, Repr

def EmitError.message : EmitError → String
  | poolExhausted cls => cls.name ++ " temporary pool exhausted"
  | unmappedGuestRegister r => "guest register " ++ r.name ++ " has no host mapping"
  | branchOutOfRange site target disp =>
    "branch at word " ++ toString site ++ " cannot reach word " ++ toString target ++
      " (displacement " ++ toString disp ++ ")"
  | conditionalRegionTooLong site disp =>
    "conditional region opened at word " ++ toString site ++ " is " ++ toString disp ++ " words long"
  | invalidRegionCondition c => "cannot open a branch-over region for condition " ++ c.name
  | tooManyArguments count =>
    "host call takes " ++ toString count ++ " arguments, at most 7 are supported"
  | argumentClobbered source =>
    "argument source x" ++ toString source.index ++ " would be clobbered before it is read"
  | missingFixupTarget kind site =>
    kind ++ " fixup at word " ++ toString site ++ " has no usable target"
  | notAPlaceholder site => "word " ++ toString site ++ " is not a branch placeholder"
  | prologueTooLarge needed reserved =>
    "prologue needs " ++ toString needed ++ " words but only " ++ toString reserved ++
      " were reserved"
  | spillAreaTooLarge bytes =>
    "spill area of " ++ toString bytes ++ " bytes exceeds the addressable frame"

inductive Fault where
  | error (e : EmitError)
  | abort
  deriving DecidableEq, Repr

end Dynarec.Emit
