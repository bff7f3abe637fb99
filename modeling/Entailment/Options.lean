import Entailment.Search.Limits

/-! Arguments of the program. They are read from left to right, and the first one
that is wrong or asks for the version or for help decides. -/
namespace Entailment

structure Options where
  /-- File that holds the base between runs. -/
  path : Option String
  /-- How often more detail was asked for. -/
  verbosity : Nat
  maxIterations : Option Nat
  /-- Milliseconds for one search. -/
  timeout : Option Nat
deriving DecidableEq, Inhabited, Repr

/-- What the arguments ask for. -/
inductive Request where
  | run (options : Options)
  | version
  | help
  | invalid
deriving DecidableEq, Inhabited, Repr

/-- Options that take a value. -/
inductive Setting where
  | path
  | maxIterations
  | timeout
deriving DecidableEq, Repr

namespace Options

def empty : Options := ⟨none, 0, none, none⟩

def limits (o : Options) : Limits :=
  ⟨some (o.maxIterations.getD Limits.defaultIterations), o.timeout.map Duration.ofMilliseconds⟩

/-- A whole number of 64 bits: digits after an optional plus sign. -/
def number? (text : String) : Option Nat :=
  let digits := match text.toList with
    | '+' :: cs => cs
    | cs => cs
  let n := digits.foldl (fun n c => n * 10 + (c.toNat - 48)) 0
  if !digits.isEmpty && digits.all Char.isDigit && n < UInt64.size then some n else none

/-- Gives a setting its value, which must be of its kind. No setting has two values. -/
def set (o : Options) (setting : Setting) (value : String) : Option Options :=
  match setting with
  | .path => if o.path.isSome || value.isEmpty then none else some { o with path := some value }
  | .maxIterations =>
    if o.maxIterations.isSome then none
    else (number? value).map fun n => { o with maxIterations := some n }
  | .timeout =>
    if o.timeout.isSome then none
    else (number? value).map fun n => { o with timeout := some n }

/-- How far a group of one-letter options leads. -/
inductive Letters where
  | done (options : Options)
  /-- The last letter needs the next argument. -/
  | awaits (options : Options) (setting : Setting)
  | ends (request : Request)

/-- Reads one-letter options. The rest of a group after a setting is its value,
less a leading equals sign. -/
def readLetters (o : Options) : List Char → Letters
  | [] => .done o
  | 'v' :: cs => readLetters { o with verbosity := o.verbosity + 1 } cs
  | 'V' :: _ => .ends .version
  | 'h' :: _ => .ends .help
  | ['p'] => .awaits o .path
  | 'p' :: cs =>
    let value := match cs with
      | '=' :: cs => cs
      | cs => cs
    match o.set .path (String.ofList value) with
    | some o => .done o
    | none => .ends .invalid
  | _ => .ends .invalid

/-- The setting of a long name. -/
def setting? : String → Option Setting
  | "path" => some .path
  | "max-iterations" => some .maxIterations
  | "timeout-ms" => some .timeout
  | _ => none

/-- A long option without its dashes, cut at the first equals sign. -/
def splitLong (cs : List Char) : String × Option String :=
  (String.ofList (cs.takeWhile (· != '=')),
    match cs.dropWhile (· != '=') with
    | _ :: value => some (String.ofList value)
    | [] => none)

/-- Whether an argument can be the value of the option before it. -/
def isValue (arg : String) : Bool :=
  match arg.toList with
  | '-' :: _ :: _ => false
  | _ => true

/-- Reads arguments, of which the first may be the value that `pending` waits for. -/
def readFrom (o : Options) (pending : Option Setting) : List String → Request
  | [] => if pending.isSome then .invalid else .run o
  | arg :: args =>
    match pending with
    | some setting =>
      if isValue arg then
        match o.set setting arg with
        | some o => readFrom o none args
        | none => .invalid
      else .invalid
    | none =>
      match arg.toList with
      | ['-', '-'] => if args.isEmpty then .run o else .invalid
      | '-' :: '-' :: name =>
        match splitLong name with
        | ("verbose", none) => readFrom { o with verbosity := o.verbosity + 1 } none args
        | ("version", none) => .version
        | ("help", none) => .help
        | (name, value) =>
          match setting? name, value with
          | some setting, some value =>
            match o.set setting value with
            | some o => readFrom o none args
            | none => .invalid
          | some setting, none => readFrom o (some setting) args
          | none, _ => .invalid
      | '-' :: c :: cs =>
        match readLetters o (c :: cs) with
        | .done o => readFrom o none args
        | .awaits o setting => readFrom o (some setting) args
        | .ends request => request
      | _ => .invalid

def parse (args : List String) : Request := readFrom empty none args

end Options

end Entailment
