import Entailment.Json.Reader
import Entailment.Symbol

/-! The parts of a JSON value that stands for a structure, a choice, a list or a
number. Reading interns the names it meets, in the order of the text. Values may
be nested only to a fixed depth; a part that is skipped is not counted. -/
namespace Entailment

/-- Reading a value may fail, and may add names to the table. -/
abbrev Decoding := OptionT Naming

instance : MonadLift Option Decoding := ⟨fun a => OptionT.mk (pure a)⟩

namespace Json

/-- How many brackets may be open at once. -/
def maxDepth : Nat := 127

def text? : Json → Option String
  | .string s => s
  | _ => none

/-- A name, which is interned. -/
def symbol (j : Json) : Decoding Symbol := do
  let name ← j.text?
  Symbols.intern name

def bool? : Json → Option Bool
  | .bool b => some b
  | _ => none

/-- The number that digits spell. -/
def digitsValue (digits : List Char) : Nat := digits.foldl (fun n c => n * 10 + (c.toNat - 48)) 0

/-- A whole number below a bound, written with digits only. -/
def nat? (bound : Nat) : Json → Option Nat
  | .number spelling =>
    let digits := spelling.toList
    if digits.all Char.isDigit && digitsValue digits < bound then some (digitsValue digits) else none
  | _ => none

/-- Either nothing or a value. -/
def nullable (read : Json → Option α) : Json → Option (Option α)
  | .null => some none
  | j => (read j).map some

/-- The values of the fields with a given name. A broken name spoils the object. -/
def valuesOf (name : String) : List (Option String × Json) → Option (List Json)
  | [] => some []
  | (none, _) :: _ => none
  | (some other, value) :: fields =>
    (valuesOf name fields).map fun values => if other = name then value :: values else values

/-- The field with a given name, which must not occur twice. -/
def atMostOnce (name : String) (fields : List (Option String × Json)) : Option (Option Json) :=
  match valuesOf name fields with
  | some [] => some none
  | some [value] => some (some value)
  | _ => none

/-- The field with a given name, which must occur exactly once. -/
def once (name : String) (fields : List (Option String × Json)) : Option Json :=
  (atMostOnce name fields).join

/-- The parts of a structure in the order of their names. It is written as an
object, whose other fields are skipped, or as an array of just the parts. -/
def parts (names : List String) : Json → Option (List Json)
  | .object fields => names.mapM fun name => once name fields
  | .array items => if items.length = names.length then some items else none
  | _ => none

/-- Like `parts` for a structure whose fields may be left out, at the end if it is
written as an array. -/
def optionalParts (names : List String) : Json → Option (List (Option Json))
  | .object fields => names.mapM fun name => atMostOnce name fields
  | .array items =>
    if items.length ≤ names.length then
      some (items.map some ++ List.replicate (names.length - items.length) none)
    else none
  | _ => none

/-- Whether an object has `name` before `other`, or has no `other`. -/
def hasBefore (name other : String) : Json → Bool
  | .object fields =>
    fields.findSome? (fun (n, _) =>
      if n = some name then some true else if n = some other then some false else none) |>.getD true
  | _ => true

/-- Reads an array of two parts from left to right. Names in a part are interned
also if a later part is missing or refused, or if the array is too long. -/
def pair {α β : Type} (first : Json → Decoding α) (second : Json → Decoding β) :
    Json → Decoding (α × β)
  | .array (a :: rest) => do
    let a ← first a
    match rest with
    | [] => failure
    | b :: rest =>
      let b ← second b
      if rest.isEmpty then return (a, b) else failure
  | _ => failure

/-- The name of a choice without parts. -/
def choice? : Json → Option String
  | .string s => s
  | .object [(name, .null)] => name
  | _ => none

end Json

end Entailment
