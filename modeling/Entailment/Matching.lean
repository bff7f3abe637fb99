import Entailment.Substitution

/-! One-way matching: only variables of the pattern are bound, and those of the
target count as constants, so a variable may be bound to itself. -/
namespace Entailment

mutual

/-- Extends the bindings so that they turn the pattern into the target. What was
bound before a mismatch is kept. -/
def Term.matchTerm : Term → Term → Substitution → Bool × Substitution
  | .var x, t, b =>
    match b.get? x with
    | some u => (u == t, b)
    | none => (true, b.insert x t)
  | .const c, .const d, b => (c == d, b)
  | .app f ps, .app g ts, b =>
    if f = g ∧ ps.length = ts.length then Term.matchAll ps ts b else (false, b)
  | _, _, b => (false, b)

def Term.matchAll : List Term → List Term → Substitution → Bool × Substitution
  | p :: ps, t :: ts, b =>
    match p.matchTerm t b with
    | (true, b) => Term.matchAll ps ts b
    | r => r
  | _, _, b => (true, b)

end

/-- The extended bindings if all pairs match. -/
def Term.matchAll? (ps ts : List Term) (b : Substitution) : Option Substitution :=
  match Term.matchAll ps ts b with
  | (true, b) => some b
  | (false, _) => none

/-- Matches two atoms. Equations are tried side by side first, then crosswise. -/
def Atom.matchAtom : Atom → Atom → Substitution → Option Substitution
  | .rel r ps, .rel q ts, b =>
    if r = q ∧ ps.length = ts.length then Term.matchAll? ps ts b else none
  | .eq l r, .eq l' r', b =>
    (Term.matchAll? [l, r] [l', r'] b).or (Term.matchAll? [l, r] [r', l'] b)
  | _, _, _ => none

end Entailment
