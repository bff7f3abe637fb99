import Entailment.Formula.Basic

/-! Giving every quantifier a name of its own. The first quantifier of a name
keeps it; a later one gets the name without its old suffix, followed by an
underscore and a number, and the variables it binds follow. -/
namespace Entailment

/-- Names in use while binders are made distinct. -/
structure BinderState where
  symbols : Symbols
  counter : UInt32
  /-- Names that a quantifier further left binds in the result. -/
  seen : List Symbol

namespace BinderState

/-- The name that a quantifier of `x` gets. -/
def bind (x : Symbol) : StateM BinderState Symbol
  | ⟨σ, counter, seen⟩ =>
    if seen.contains x then
      let ((y, counter), σ) := Symbols.freshLike x counter σ
      (y, ⟨σ, counter, y :: seen⟩)
    else (x, ⟨σ, counter, x :: seen⟩)

end BinderState

namespace Formula

/-- The name that `x` has inside the binders around it. -/
def renamed (ρ : List (Symbol × Symbol)) (x : Symbol) : Symbol := (ρ.lookup x).getD x

/-- Makes binders distinct below binders that were renamed by `ρ`, the innermost
one first. -/
def distinctBelow (ρ : List (Symbol × Symbol)) : Formula → StateM BinderState Formula
  | .rel r args => return .rel r (args.map (Term.rename (renamed ρ)))
  | .eq l r => return .eq (l.rename (renamed ρ)) (r.rename (renamed ρ))
  | .not f => return .not (← f.distinctBelow ρ)
  | .and f g => return .and (← f.distinctBelow ρ) (← g.distinctBelow ρ)
  | .or f g => return .or (← f.distinctBelow ρ) (← g.distinctBelow ρ)
  | .imp f g => return .imp (← f.distinctBelow ρ) (← g.distinctBelow ρ)
  | .iff f g => return .iff (← f.distinctBelow ρ) (← g.distinctBelow ρ)
  | .all x f => do
    let y ← BinderState.bind x
    return .all y (← f.distinctBelow ((x, y) :: ρ))
  | .ex x f => do
    let y ← BinderState.bind x
    return .ex y (← f.distinctBelow ((x, y) :: ρ))

/-- The formula with pairwise different names at its quantifiers. New names are
numbered from `counter`, whose last value is returned. -/
def distinctBinders (f : Formula) (counter : UInt32) : Naming (Formula × UInt32) := fun σ =>
  let (f, s) := f.distinctBelow [] ⟨σ, counter, []⟩
  ((f, s.counter), s.symbols)

end Formula

end Entailment
