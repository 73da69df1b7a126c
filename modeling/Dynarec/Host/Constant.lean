import Dynarec.Host.Instr

/-! # Loading constants

The instructions that put a constant into a register: one wide move for the first sixteen-bit
part that is not zero, and one insertion for every other. -/

namespace Dynarec.Host

/-- Loads a 32-bit constant: one instruction if either half is zero, else two (`emit_mov_imm32`). -/
def loadWord (rd : Gpr) (value : Word) : List Instr :=
  let lo := value.extractLsb' 0 16
  let hi := value.extractLsb' 16 16
  if hi == 0 then [.movz .w rd lo 0]
  else if lo == 0 then [.movz .w rd hi 1]
  else [.movz .w rd lo 0, .movk .w rd hi 1]

/-- The sixteen-bit parts of a double word that are not zero, with their places, lowest first. -/
def nonzeroParts (value : DWord) : List (BitVec 2 × BitVec 16) :=
  ([0, 1, 2, 3] : List (BitVec 2)).filterMap fun p =>
    let part := value.extractLsb' (16 * p.toNat) 16
    if part == 0 then none else some (p, part)

/-- Loads a 64-bit constant: one instruction a part that is not zero, and one for zero
(`emit_mov_imm64`). -/
def loadDWord (rd : Gpr) (value : DWord) : List Instr :=
  match nonzeroParts value with
  | [] => [.movz .x rd 0 0]
  | (p, part) :: rest => .movz .x rd part p :: rest.map fun (q, part) => .movk .x rd part q

end Dynarec.Host
