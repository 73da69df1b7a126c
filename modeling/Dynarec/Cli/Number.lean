import Dynarec.Word

/-! # Numbers on the command line

Unsigned 64-bit numbers in decimal or hexadecimal. One plus sign may stand in front. In addresses
underscores may stand anywhere and are passed over. -/

namespace Dynarec.Cli

/-- Why a text is no number. -/
inductive NumberError where
  | empty
  | invalidDigit
  | tooLarge
  deriving DecidableEq, Repr

def NumberError.message : NumberError → String
  | empty => "cannot parse integer from empty string"
  | invalidDigit => "invalid digit found in string"
  | tooLarge => "number too large to fit in target type"

/-- The value of a digit below the radix. -/
def digit? (radix : Nat) (c : Char) : Option Nat :=
  let value? :=
    if '0' ≤ c && c ≤ '9' then some (c.toNat - '0'.toNat)
    else if 'a' ≤ c && c ≤ 'z' then some (c.toNat - 'a'.toNat + 10)
    else if 'A' ≤ c && c ≤ 'Z' then some (c.toNat - 'A'.toNat + 10)
    else none
  value?.filter (· < radix)

/-- Reads digits behind those that gave `acc`. The first character that is no digit, or that
takes the number past 64 bits, decides. -/
def readDigits (radix : Nat) (acc : Nat) : List Char → Except NumberError Nat
  | [] => .ok acc
  | c :: rest =>
    match digit? radix c with
    | none => .error .invalidDigit
    | some d =>
      if acc * radix + d < dwordCount then readDigits radix (acc * radix + d) rest
      else .error .tooLarge

/-- Reads a number. A plus sign alone is no number. -/
def readNumber (radix : Nat) : List Char → Except NumberError Nat
  | [] => .error .empty
  | '+' :: [] => .error .invalidDigit
  | '+' :: rest => readDigits radix 0 rest
  | cs => readDigits radix 0 cs

/-- Why a text is no address. -/
inductive AddressError where
  | number (text : String) (e : NumberError)
  | wide (text : String)
  deriving DecidableEq, Repr

def AddressError.message : AddressError → String
  | number text e => "invalid address '" ++ text ++ "': " ++ e.message
  | wide text => "address '" ++ text ++ "' does not fit in 32 bits"

/-- The digits of an address and their radix: hexadecimal behind `0x` or `0X`. -/
def addressDigits (s : String) : Nat × List Char :=
  match s.toList with
  | '0' :: 'x' :: rest | '0' :: 'X' :: rest => (16, rest.filter (· != '_'))
  | cs => (10, cs.filter (· != '_'))

/-- Reads a host address (`parse_host_address`). -/
def hostAddress (s : String) : Except AddressError DWord :=
  let (radix, digits) := addressDigits s
  match readNumber radix digits with
  | .ok n => .ok (BitVec.ofNat 64 n)
  | .error e => .error (.number s e)

/-- Reads a guest address (`parse_address`). -/
def guestAddress (s : String) : Except AddressError Word :=
  match hostAddress s with
  | .ok n => if n.toNat < wordCount then .ok (n.setWidth 32) else .error (.wide s)
  | .error e => .error e

end Dynarec.Cli
