import Dynarec.Cli.Number

/-! # Command line arguments

The program takes two flags and a subcommand. The subcommand `translate` takes the image and its
own options, and the two flags again. An option's value is looked at when the next argument
settles it, so an unknown argument behind a bad value is reported first, and a known one is
not. -/

namespace Dynarec.Cli

/-- Why the arguments are not a request. -/
inductive UsageError where
  | displayHelp
  | displayVersion
  | helpOnMissing
  | missingSubcommand
  | invalidSubcommand
  | missingRequired
  | unknownArgument
  | invalidValue
  | valueValidation
  | argumentConflict
  | tooManyValues
  deriving DecidableEq, Repr

/-- A request to compile units of an image. -/
structure Arguments where
  metrics : Bool := false
  verbose : Bool := false
  image : String := ""
  base : Word := 0
  entries : Array Word := #[]
  maxInsns : Nat := 1024
  helperBase : DWord := 0
  slotBase : Option DWord := none
  output : Option String := none
  deriving DecidableEq, Repr

/-! ### Parameters -/

inductive Param where
  | help | version | metrics | verbose
  | base | entry | maxInsns | helperBase | slotBase | output | image
  deriving DecidableEq, Repr

def Param.takesValue : Param → Bool
  | help | version | metrics | verbose => false
  | _ => true

/-- Where in the arguments we are: before the subcommand or behind it. -/
inductive Scope where
  | program | translate
  deriving DecidableEq, Repr

/-- The parameter of a long option. -/
def Scope.long? : Scope → String → Option Param
  | _, "help" => some .help
  | _, "metrics" => some .metrics
  | _, "verbose" => some .verbose
  | program, "version" => some .version
  | translate, "base" => some .base
  | translate, "entry" => some .entry
  | translate, "max-insns" => some .maxInsns
  | translate, "helper-base" => some .helperBase
  | translate, "slot-base" => some .slotBase
  | translate, "output" => some .output
  | _, _ => none

/-- The parameter of a short option. -/
def Scope.short? : Scope → Char → Option Param
  | _, 'h' => some .help
  | _, 'v' => some .verbose
  | program, 'V' => some .version
  | translate, 'o' => some .output
  | _, _ => none

/-! ### Reading -/

/-- Arguments read so far. -/
structure Reading where
  result : Arguments := {}
  /-- Parameters that may be given only once and were. -/
  seen : List Param := []
  /-- The last parameter with a value, and the value once it is there. -/
  pending : Option (Param × Option String) := none
  /-- Whether the next argument is the pending value. -/
  awaiting : Bool := false
  hasImage : Bool := false

namespace Reading

def checked {ε α : Type} : Except ε α → Except UsageError α
  | .ok a => .ok a
  | .error _ => .error .valueValidation

/-- A path must not be empty. -/
def path (s : String) : Except UsageError String :=
  if s.isEmpty then .error .invalidValue else .ok s

/-- Puts a value into the request. -/
def store (a : Arguments) (p : Param) (s : String) : Except UsageError Arguments :=
  match p with
  | .base => do .ok { a with base := ← checked (guestAddress s) }
  | .entry => do .ok { a with entries := a.entries.push (← checked (guestAddress s)) }
  | .maxInsns => do .ok { a with maxInsns := ← checked (readNumber 10 s.toList) }
  | .helperBase => do .ok { a with helperBase := ← checked (hostAddress s) }
  | .slotBase => do .ok { a with slotBase := some (← checked (hostAddress s)) }
  | .output => do .ok { a with output := some (← path s) }
  | .image => do .ok { a with image := ← path s }
  | .metrics => .ok { a with metrics := true }
  | .verbose => .ok { a with verbose := true }
  | .help => .error .displayHelp
  | .version => .error .displayVersion

/-- Takes a parameter with its value; all but entries may be given once. -/
def accept (r : Reading) (p : Param) (s : String) : Except UsageError Reading := do
  if r.seen.contains p then .error .argumentConflict
  let result ← store r.result p s
  .ok { r with result, seen := if p = .entry then r.seen else p :: r.seen }

/-- Takes the pending parameter. -/
def settle (r : Reading) : Except UsageError Reading :=
  let r' := { r with pending := none, awaiting := false }
  match r.pending with
  | none => .ok r'
  | some (_, none) => .error .invalidValue
  | some (p, some s) => r'.accept p s

/-- A flag. -/
def flag (r : Reading) (p : Param) : Except UsageError Reading := do (← r.settle).accept p ""

/-- An option with its value attached, or with a value to come. -/
def option (r : Reading) (p : Param) (value : Option String) : Except UsageError Reading := do
  let r ← r.settle
  match value with
  | some s => r.accept p s
  | none => .ok { r with pending := some (p, none), awaiting := true }

/-- The name and the attached value of a long option without its dashes. -/
def splitLong (cs : List Char) : String × Option String :=
  match cs.span (· != '=') with
  | (name, []) => (String.ofList name, none)
  | (name, _ :: value) => (String.ofList name, some (String.ofList value))

def long (scope : Scope) (r : Reading) (cs : List Char) : Except UsageError Reading :=
  let (name, value) := splitLong cs
  match scope.long? name, value with
  | none, _ => .error .unknownArgument
  | some p, value =>
    if p.takesValue then r.option p value
    else if value.isSome then .error .tooManyValues
    else r.flag p

/-- Short options in one argument; one that takes a value takes the rest, behind an equals sign
if there is one. -/
def shorts (scope : Scope) (r : Reading) : List Char → Except UsageError Reading
  | [] => .ok r
  | c :: rest =>
    match scope.short? c with
    | none => .error .unknownArgument
    | some p =>
      if p.takesValue then
        match rest with
        | [] => r.option p none
        | '=' :: value => r.option p (some (String.ofList value))
        | value => r.option p (some (String.ofList value))
      else do shorts scope (← r.flag p) rest

/-- A value without dashes that belongs to no option. -/
def positional (r : Reading) (s : String) : Except UsageError Reading :=
  if r.hasImage then .error .unknownArgument
  else do .ok { (← r.settle) with pending := some (.image, some s), hasImage := true }

/-- Reads the arguments of `translate`. Behind a lone `--` all are positional. -/
def translate (r : Reading) (trailing : Bool) : List String → Except UsageError Reading
  | [] => r.settle
  | s :: rest => do
    if trailing then translate (← r.positional s) true rest
    else match s.toList with
      | ['-', '-'] => translate r true rest
      | '-' :: '-' :: cs => translate (← long .translate r cs) false rest
      | '-' :: c :: cs => translate (← shorts .translate r (c :: cs)) false rest
      | _ =>
        if r.awaiting then
          let pending := r.pending.map fun (p, _) => (p, some s)
          translate { r with pending, awaiting := false } false rest
        else translate (← r.positional s) false rest

end Reading

/-! ### The program -/

/-- The request of `translate` under the flags given before it. -/
def readTranslate (before : Arguments) (args : List String) : Except UsageError Arguments := do
  let r ← Reading.translate {} false args
  if !r.hasImage then .error .missingRequired
  .ok { r.result with
    metrics := before.metrics || r.result.metrics
    verbose := before.verbose || r.result.verbose }

/-- What `help` is asked about: nothing, a subcommand, or no subcommand at all. -/
def readHelp : List String → UsageError
  | [] | ["translate"] | ["help"] => .displayHelp
  | _ => .invalidSubcommand

/-- Reads the arguments before the subcommand, and the subcommand. -/
def readProgram (r : Reading) : List String → Except UsageError Arguments
  | [] => .error (if r.seen.isEmpty then .helpOnMissing else .missingSubcommand)
  | "translate" :: rest => readTranslate r.result rest
  | "help" :: rest => .error (readHelp rest)
  | s :: rest =>
    match s.toList with
    | ['-', '-'] => .error (afterDashes r rest)
    | '-' :: '-' :: cs => do readProgram (← Reading.long .program r cs) rest
    | '-' :: c :: cs => do readProgram (← Reading.shorts .program r (c :: cs)) rest
    | _ => .error .invalidSubcommand
where
  /-- Behind a lone `--` there is no subcommand any more. -/
  afterDashes (r : Reading) : List String → UsageError
    | [] => if r.seen.isEmpty then .helpOnMissing else .missingSubcommand
    | s :: _ => if s = "translate" || s = "help" then .unknownArgument else .invalidSubcommand

/-- Reads the command line. -/
def Arguments.read (args : List String) : Except UsageError Arguments := readProgram {} args

end Dynarec.Cli
