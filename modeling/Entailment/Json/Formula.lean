import Entailment.Atom
import Entailment.Formula.Basic
import Entailment.Json.Form

/-! Terms, atoms and formulas as JSON. -/
namespace Entailment

namespace Term

mutual

def toJson (σ : Symbols) : Term → Json
  | .var x => .ofFields [("Var", .ofString (σ.name x))]
  | .const c => .ofFields [("Const", .ofString (σ.name c))]
  | .app f args =>
    .ofFields [("Function", .array [.ofString (σ.name f), .array (toJsonAll σ args)])]

def toJsonAll (σ : Symbols) : List Term → List Json
  | [] => []
  | t :: ts => toJson σ t :: toJsonAll σ ts

end

/-- Reads a list of terms, given how each of them is read. -/
def listOfJson (term : Json → Decoding Term) : Json → Decoding (List Term)
  | .array items => items.mapM term
  | _ => failure

/-- Reads a term under `depth` brackets at most. -/
def ofJson : Nat → Json → Decoding Term
  | _ + 1, .object [(some "Var", name)] => Term.var <$> name.symbol
  | _ + 1, .object [(some "Const", name)] => Term.const <$> name.symbol
  | depth + 3, .object [(some "Function", parts)] => do
    let (f, args) ← parts.pair Json.symbol (listOfJson (ofJson depth))
    return .app f args
  | _, _ => failure

/-- Reads a list of terms. -/
def allOfJson : Nat → Json → Decoding (List Term)
  | depth + 1, j => listOfJson (ofJson depth) j
  | 0, _ => failure

end Term

namespace Atom

/-- A relation with its arguments. -/
def relationToJson (σ : Symbols) (p : Symbol) (args : List Term) : Json :=
  .ofFields [("spelling", .ofString (σ.name p)), ("args", .array (Term.toJsonAll σ args))]

def toJson (σ : Symbols) : Atom → Json
  | .rel p args => .ofFields [("Rel", relationToJson σ p args)]
  | .eq t u => .ofFields [("Eq", .array [t.toJson σ, u.toJson σ])]

/-- Reads a relation with its arguments, in whichever order they are written. -/
def relationOfJson : Nat → Json → Decoding (Symbol × List Term)
  | depth + 1, j =>
    match j.parts ["spelling", "args"] with
    | some [name, args] =>
      if j.hasBefore "spelling" "args" then do
        let p ← name.symbol
        let args ← Term.allOfJson depth args
        return (p, args)
      else do
        let args ← Term.allOfJson depth args
        let p ← name.symbol
        return (p, args)
    | _ => failure
  | 0, _ => failure

def ofJson : Nat → Json → Decoding Atom
  | depth + 1, .object [(some "Rel", r)] => do
    let (p, args) ← relationOfJson depth r
    return .rel p args
  | depth + 2, .object [(some "Eq", sides)] => do
    let (t, u) ← sides.pair (Term.ofJson depth) (Term.ofJson depth)
    return .eq t u
  | _, _ => failure

end Atom

namespace Formula

def toJson (σ : Symbols) : Formula → Json
  | .rel p args =>
    .ofFields [("Rel", .array [.ofString (σ.name p), .array (Term.toJsonAll σ args)])]
  | .eq t u => .ofFields [("Eq", .array [t.toJson σ, u.toJson σ])]
  | .not f => .ofFields [("Not", f.toJson σ)]
  | .and f g => .ofFields [("And", .array [f.toJson σ, g.toJson σ])]
  | .or f g => .ofFields [("Or", .array [f.toJson σ, g.toJson σ])]
  | .imp f g => .ofFields [("Impl", .array [f.toJson σ, g.toJson σ])]
  | .iff f g => .ofFields [("Equiv", .array [f.toJson σ, g.toJson σ])]
  | .all x f => .ofFields [("All", .array [.ofString (σ.name x), f.toJson σ])]
  | .ex x f => .ofFields [("Ex", .array [.ofString (σ.name x), f.toJson σ])]

/-- The connective of a two-place choice. -/
def connective? : String → Option (Formula → Formula → Formula)
  | "And" => some .and
  | "Or" => some .or
  | "Impl" => some .imp
  | "Equiv" => some .iff
  | _ => none

def quantifier? : String → Option (Symbol → Formula → Formula)
  | "All" => some .all
  | "Ex" => some .ex
  | _ => none

/-- Reads a formula under `depth` brackets at most. -/
def ofJson : Nat → Json → Decoding Formula
  | depth + 2, .object [(some "Rel", parts)] => do
    let (r, args) ← parts.pair Json.symbol (Term.allOfJson depth)
    return .rel r args
  | depth + 2, .object [(some "Eq", sides)] => do
    let (t, u) ← sides.pair (Term.ofJson depth) (Term.ofJson depth)
    return .eq t u
  | depth + 1, .object [(some "Not", f)] => Formula.not <$> ofJson depth f
  | depth + 2, .object [(some name, parts)] =>
    match connective? name, quantifier? name with
    | some connect, _ => do
      let (f, g) ← parts.pair (ofJson depth) (ofJson depth)
      return connect f g
    | none, some quantify => do
      let (x, f) ← parts.pair Json.symbol (ofJson depth)
      return quantify x f
    | none, none => failure
  | _, _ => failure

end Formula

end Entailment
