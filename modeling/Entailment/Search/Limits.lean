/-! How long a search may go on and how it ends. -/
namespace Entailment

structure Duration where
  nanoseconds : Nat
deriving DecidableEq, Inhabited, Repr

namespace Duration

def ofMilliseconds (ms : Nat) : Duration := ⟨ms * 1000000⟩

/-- Whole seconds. -/
def seconds (d : Duration) : Nat := d.nanoseconds / 1000000000

/-- What is left of the last second, in nanoseconds. -/
def subsecond (d : Duration) : Nat := d.nanoseconds % 1000000000

end Duration

/-- Bounds on one search. They are checked before each selection of a clause. -/
structure Limits where
  maxIterations : Option Nat
  timeout : Option Duration
deriving DecidableEq, Inhabited, Repr

namespace Limits

/-- Selections that a search may make unless told otherwise. -/
def defaultIterations : Nat := 10000

def default : Limits := ⟨some defaultIterations, none⟩

def unbounded : Limits := ⟨none, none⟩

end Limits

inductive Outcome where
  /-- The empty clause was derived. -/
  | entailed
  /-- Nothing new can be derived, and the empty clause was not. -/
  | notEntailed
  /-- The limits were reached. -/
  | inconclusive
deriving DecidableEq, Inhabited, Repr

namespace Outcome

def text : Outcome → String
  | .entailed => "entailed"
  | .notEntailed => "not entailed"
  | .inconclusive => "inconclusive"

end Outcome

end Entailment
