import Std.Data.HashMap
import Dynarec.Word

/-! # Dispatch tables

A dispatch table says for a guest address in which host memory slot the address of its code is
kept. A slot table numbers guest addresses in the order of their first insertion and keeps their
slots side by side, eight bytes each, from a base address on. -/

namespace Dynarec.Emit

/-- The answer of a dispatch table. -/
inductive SlotLookup where
  /-- The table does not know the guest address. -/
  | absent
  /-- The slot at a host address. -/
  | found (host : DWord)
  /-- The slot would lie past the end of the host address space. -/
  | unaddressable
  deriving DecidableEq, Repr

/-- A table is known by its answers. -/
abbrev DispatchTable := Word → SlotLookup

/-- The table without entries. -/
def DispatchTable.empty : DispatchTable := fun _ => .absent

/-- The table of the given pairs, where a later pair replaces an earlier one. -/
def DispatchTable.ofList (pairs : List (Word × DWord)) : DispatchTable :=
  let map := Std.HashMap.ofList pairs
  fun guest => match map[guest]? with
    | some host => .found host
    | none => .absent

structure SlotTable where
  base : DWord
  numbers : Std.HashMap Word Nat := {}

namespace SlotTable

def size (t : SlotTable) : Nat := t.numbers.size

def isEmpty (t : SlotTable) : Bool := t.numbers.isEmpty

/-- The host address of a slot number, if the address space has it. -/
def slot (t : SlotTable) (number : Nat) : SlotLookup :=
  let host := t.base.toNat + 8 * number
  if host < dwordCount then .found (BitVec.ofNat 64 host) else .unaddressable

/-- The number of the next new slot. Numbers have 32 bits; the count never passes them, since
there are no more guest addresses. -/
def nextNumber (t : SlotTable) : Nat := min t.size (wordCount - 1)

/-- The slot of a guest address (`slot_for`). -/
def lookup (t : SlotTable) : DispatchTable := fun guest =>
  match t.numbers[guest]? with
  | some number => t.slot number
  | none => .absent

/-- Registers a guest address, unless it is known already. -/
def insert (t : SlotTable) (guest : Word) : SlotTable :=
  { t with numbers := t.numbers.insertIfNew guest t.nextNumber }

/-- Registers guest addresses in order. Fails if one of them gets no addressable slot. -/
def insertAll? (t : SlotTable) : List Word → Option SlotTable
  | [] => some t
  | guest :: rest =>
    let t := t.insert guest
    match t.lookup guest with
    | .found _ => t.insertAll? rest
    | _ => none

end SlotTable

end Dynarec.Emit
