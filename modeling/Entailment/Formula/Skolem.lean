import Entailment.Formula.Basic

/-! Skolem terms in place of existential quantifiers. A bound variable becomes
a new constant, or a new function of the universally quantified variables
around it. -/
namespace Entailment

/-- Names in use while Skolem terms are made. -/
structure SkolemState where
  symbols : Symbols
  counter : UInt32

namespace SkolemState

/-- What the names of Skolem symbols start with. -/
def base : String := "$sk"

/-- A new Skolem term over the variables `xs`. -/
def term (xs : List Symbol) : StateM SkolemState Term
  | ⟨σ, counter⟩ =>
    let ((s, counter), σ) := Symbols.fresh base counter σ
    (match xs with
      | [] => .const s
      | _ => .app s (xs.map .var),
     ⟨σ, counter⟩)

end SkolemState

namespace Formula

/-- The term that stands for `x` below the quantifiers around it. -/
def witnessed (ρ : List (Symbol × Term)) (x : Symbol) : Term := (ρ.lookup x).getD (.var x)

/-- Skolemizes below the universal quantifiers of `xs`, outermost first, and the
existential ones replaced by `ρ`, innermost first. -/
def skolemBelow (xs : List Symbol) (ρ : List (Symbol × Term)) :
    Formula → StateM SkolemState Formula
  | .rel r args => return .rel r (args.map (Term.subst (witnessed ρ)))
  | .eq l r => return .eq (l.subst (witnessed ρ)) (r.subst (witnessed ρ))
  | .not f => return .not (← f.skolemBelow xs ρ)
  | .and f g => return .and (← f.skolemBelow xs ρ) (← g.skolemBelow xs ρ)
  | .or f g => return .or (← f.skolemBelow xs ρ) (← g.skolemBelow xs ρ)
  | .imp f g => return .imp (← f.skolemBelow xs ρ) (← g.skolemBelow xs ρ)
  | .iff f g => return .iff (← f.skolemBelow xs ρ) (← g.skolemBelow xs ρ)
  | .all x f => return .all x (← f.skolemBelow (xs ++ [x]) ρ)
  | .ex x f => do
    let t ← SkolemState.term xs
    f.skolemBelow xs ((x, t) :: ρ)

/-- The formula without existential quantifiers. It is meant for negation normal
forms with distinct binders. New symbols are numbered from `counter`, whose last
value is returned. -/
def skolemize (f : Formula) (counter : UInt32) : Naming (Formula × UInt32) := fun σ =>
  let (f, s) := f.skolemBelow [] [] ⟨σ, counter⟩
  ((f, s.counter), s.symbols)

end Formula

end Entailment
