import Entailment.Formula.Basic

/-! Removing implications and equivalences, and negation normal form. -/
namespace Entailment.Formula

/-- The formula in terms of `¬`, `∧`, `∨` and quantifiers. -/
def basic : Formula → Formula
  | .rel r args => .rel r args
  | .eq l r => .eq l r
  | .not f => .not f.basic
  | .and f g => .and f.basic g.basic
  | .or f g => .or f.basic g.basic
  | .imp f g => .or (.not f.basic) g.basic
  | .iff f g => .and (.or (.not f.basic) g.basic) (.or (.not g.basic) f.basic)
  | .all x f => .all x f.basic
  | .ex x f => .ex x f.basic

/-- Negation normal form of the formula, or of its negation. -/
def pushNegation : (negated : Bool) → Formula → Formula
  | false, .rel r args => .rel r args
  | true, .rel r args => .not (.rel r args)
  | false, .eq l r => .eq l r
  | true, .eq l r => .not (.eq l r)
  | n, .not f => f.pushNegation !n
  | false, .and f g => .and (f.pushNegation false) (g.pushNegation false)
  | true, .and f g => .or (f.pushNegation true) (g.pushNegation true)
  | false, .or f g => .or (f.pushNegation false) (g.pushNegation false)
  | true, .or f g => .and (f.pushNegation true) (g.pushNegation true)
  | false, .imp f g => .or (f.pushNegation true) (g.pushNegation false)
  | true, .imp f g => .and (f.pushNegation false) (g.pushNegation true)
  | false, .iff f g =>
    .and (.or (f.pushNegation true) (g.pushNegation false))
      (.or (g.pushNegation true) (f.pushNegation false))
  | true, .iff f g =>
    .or (.and (f.pushNegation false) (g.pushNegation true))
      (.and (g.pushNegation false) (f.pushNegation true))
  | false, .all x f => .all x (f.pushNegation false)
  | true, .all x f => .ex x (f.pushNegation true)
  | false, .ex x f => .ex x (f.pushNegation false)
  | true, .ex x f => .all x (f.pushNegation true)

/-- The formula with negations on atoms only and without `→` and `<=>`. -/
def nnf (f : Formula) : Formula := f.pushNegation false

end Entailment.Formula
