import Entailment.Clause.Basic
import Entailment.Formula.Basic

/-! Formulas that a knowledge base holds. -/
namespace Entailment

/-- Why a formula is held: it was asserted, or it was proven. -/
inductive Provenance where
  | asserted
  | proven
deriving DecidableEq, Inhabited, Repr

namespace Provenance

def text : Provenance → String
  | .asserted => "axiom"
  | .proven => "lemma"

end Provenance

/-- A formula together with its clauses. -/
structure Entry where
  formula : Formula
  clauses : ClauseSet
  provenance : Provenance
deriving DecidableEq, Inhabited

namespace Entry

def render (σ : Symbols) (e : Entry) : String :=
  "[" ++ e.provenance.text ++ "] " ++ e.formula.render σ

end Entry

end Entailment
