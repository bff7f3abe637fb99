import Entailment.Clause.Clausify
import Entailment.Json.Formula

/-! Literals, clauses, counters and limits as JSON. -/
namespace Entailment

namespace Literal

def toJson (σ : Symbols) (l : Literal) : Json :=
  .ofFields [("atom", l.atom.toJson σ), ("negated", .bool l.negated)]

def ofJson : Nat → Json → Decoding Literal
  | depth + 1, j =>
    match j.parts ["atom", "negated"] with
    | some [atom, negated] => do return ⟨← Atom.ofJson depth atom, ← negated.bool?⟩
    | _ => failure
  | 0, _ => failure

end Literal

namespace Clause

def toJson (σ : Symbols) (c : Clause) : Json :=
  .ofFields [("literals", .array (c.literals.map (Literal.toJson σ)))]

/-- Reads a clause. The literals stay in the order in which they are written. -/
def ofJson : Nat → Json → Decoding Clause
  | depth + 2, j =>
    match j.parts ["literals"] with
    | some [.array literals] => Clause.mk <$> literals.mapM (Literal.ofJson depth)
    | _ => failure
  | _, _ => failure

end Clause

namespace ClauseSet

def toJson (σ : Symbols) (s : ClauseSet) : Json :=
  .ofFields [("clauses", .array (s.clauses.map (Clause.toJson σ)))]

def ofJson : Nat → Json → Decoding ClauseSet
  | depth + 2, j =>
    match j.parts ["clauses"] with
    | some [.array clauses] => ClauseSet.mk <$> clauses.mapM (Clause.ofJson depth)
    | _ => failure
  | _, _ => failure

end ClauseSet

namespace Clausifier

def toJson (k : Clausifier) : Json :=
  .ofFields [("var_counter", .ofNat k.varCounter.toNat),
    ("skolem_counter", .ofNat k.skolemCounter.toNat)]

/-- Reads a counter of 32 bits. -/
def counter? (j : Json) : Option UInt32 := (j.nat? UInt32.size).map UInt32.ofNat

def ofJson? (j : Json) : Option Clausifier :=
  match j.parts ["var_counter", "skolem_counter"] with
  | some [vars, skolems] => do return ⟨← counter? vars, ← counter? skolems⟩
  | _ => none

end Clausifier

namespace Duration

def toJson (d : Duration) : Json :=
  .ofFields [("secs", .ofNat d.seconds), ("nanos", .ofNat d.subsecond)]

/-- Seconds and nanoseconds. The nanoseconds may exceed a second, but all the
seconds together must fit in 64 bits. -/
def ofParts? (seconds nanoseconds : Json) : Option Duration := do
  let s ← seconds.nat? UInt64.size
  let n ← nanoseconds.nat? UInt32.size
  let d : Duration := ⟨s * 1000000000 + n⟩
  if d.seconds < UInt64.size then some d else none

/-- Reads a duration, which has no other fields. -/
def ofJson? (j : Json) : Option Duration :=
  match j with
  | .object [(some "secs", s), (some "nanos", n)] => ofParts? s n
  | .object [(some "nanos", n), (some "secs", s)] => ofParts? s n
  | .array [s, n] => ofParts? s n
  | _ => none

end Duration

namespace Limits

def toJson (l : Limits) : Json :=
  .ofFields [("maxIterations", .ofOption .ofNat l.maxIterations),
    ("timeout", .ofOption Duration.toJson l.timeout)]

/-- Reads limits. What is left out has its default. -/
def ofJson? (j : Json) : Option Limits :=
  match j.optionalParts ["maxIterations", "timeout"] with
  | some [iterations, timeout] => do
    let iterations ← match iterations with
      | some n => n.nullable (Json.nat? UInt64.size)
      | none => some default.maxIterations
    let timeout ← match timeout with
      | some d => d.nullable Duration.ofJson?
      | none => some default.timeout
    return ⟨iterations, timeout⟩
  | _ => none

end Limits

namespace Outcome

/-- The word for an outcome in JSON. -/
def word : Outcome → String
  | .entailed => "ENTAILED"
  | .notEntailed => "NOTENTAILED"
  | .inconclusive => "INCONCLUSIVE"

def toJson (o : Outcome) : Json := .ofString o.word

def ofJson? (j : Json) : Option Outcome :=
  match j.choice? with
  | some "ENTAILED" => some .entailed
  | some "NOTENTAILED" => some .notEntailed
  | some "INCONCLUSIVE" => some .inconclusive
  | _ => none

end Outcome

end Entailment
