import Entailment.Substitution

/-! Most general unifiers. Bindings are kept fully applied as they are found,
and a failure tells the two terms that do not fit, as far as they are known. -/
namespace Entailment

inductive UnifyError where
  /-- Relations with different names. -/
  | relations (a b : Atom)
  /-- One relation with different numbers of arguments. -/
  | arities (a b : Atom)
  | equationWithRelation (a b : Atom)
  /-- The variable would have to contain itself. -/
  | occurs (x : Symbol) (t : Term)
  | clash (t u : Term)
deriving DecidableEq

namespace UnifyError

def message (σ : Symbols) : UnifyError → String
  | .relations a b =>
    "Relations '" ++ a.render σ ++ "' and '" ++ b.render σ ++ "' have different names"
  | .arities a b =>
    "Relations '" ++ a.render σ ++ "' and '" ++ b.render σ ++ "' have different numbers of arguments"
  | .equationWithRelation a b =>
    "Cannot unify equation and relation '" ++ a.render σ ++ "' and '" ++ b.render σ ++ "'"
  | .occurs x t => "Variable '" ++ σ.name x ++ "' occurs in '" ++ t.render σ ++ "'"
  | .clash t u => "Cannot unify '" ++ t.render σ ++ "' and '" ++ u.render σ ++ "'"

end UnifyError

namespace Term

mutual

/-- Number of occurrences of variables. -/
def varCount : Term → Nat
  | .var _ => 1
  | .const _ => 0
  | .app _ args => varCounts args

def varCounts : List Term → Nat
  | [] => 0
  | t :: ts => t.varCount + varCounts ts

end

end Term

namespace Substitution

/-- Binds a variable that has no binding yet to what the term stands for. -/
def solve (s : Substitution) (x : Symbol) (t : Term) : Except UnifyError Substitution :=
  let t := s.resolve t
  if t = .var x then .ok s
  else if t.hasVar x then .error (.occurs x t)
  else .ok (s.bind x t)

/-- Two terms that differ at their heads. -/
def clash (s : Substitution) (t u : Term) : Except UnifyError Substitution :=
  .error (.clash (s.resolve t) (s.resolve u))

/-- Extends the substitution pair by pair, as far as the shorter list goes. -/
def unifyAll (one : Term → Term → Substitution → Option (Except UnifyError Substitution)) :
    List Term → List Term → Substitution → Option (Except UnifyError Substitution)
  | t :: ts, u :: us, s =>
    match one t u s with
    | some (.ok s) => unifyAll one ts us s
    | r => r
  | _, _, s => some (.ok s)

/-- Unification with at most `depth` nested calls, or nothing if they do not
suffice. -/
def unifyWithin : (depth : Nat) → Term → Term → Substitution →
    Option (Except UnifyError Substitution)
  | 0, _, _, _ => none
  | depth + 1, .var x, u, s =>
    if u = .var x then some (.ok s)
    else match s.get? x with
    | some t => unifyWithin depth t u s
    | none =>
      match u with
      | .var y =>
        match s.get? y with
        | some u => unifyWithin depth (.var x) u s
        | none => some (s.solve x u)
      | _ => some (s.solve x u)
  | depth + 1, t, .var y, s =>
    match s.get? y with
    | some u => unifyWithin depth t u s
    | none => some (s.solve y t)
  | _ + 1, .const c, .const d, s =>
    if c = d then some (.ok s) else some (s.clash (.const c) (.const d))
  | depth + 1, .app f ts, .app g us, s =>
    if f = g ∧ ts.length = us.length then unifyAll (unifyWithin depth) ts us s
    else some (s.clash (.app f ts) (.app g us))
  | _ + 1, t, u, s => some (s.clash t u)

/-- A depth that suffices when no bound variable occurs in a bound term. Calls
nest no deeper than the terms once they are instantiated, with two more for
following bindings at each level, and each new binding at most doubles their
depth. -/
def depthBound (t u : Term) (s : Substitution) : Nat :=
  let ts := t :: u :: s.bindings.map (·.2)
  (Term.weights ts + 1) * Nat.pow 2 (Term.varCounts ts + 2)

end Substitution

/-- The most general substitution that extends `s` and makes the terms equal. -/
def Term.unify (t u : Term) (s : Substitution) : Except UnifyError Substitution :=
  (s.unifyWithin (s.depthBound t u) t u).getD (s.clash t u)

/-- The same for the terms of two lists, pair by pair. -/
def Term.unifyLists : List Term → List Term → Substitution → Except UnifyError Substitution
  | t :: ts, u :: us, s => do unifyLists ts us (← t.unify u s)
  | _, _, s => .ok s

/-- Relations need equal names and arities; equations are unified side by side. -/
def Atom.unify : Atom → Atom → Substitution → Except UnifyError Substitution
  | .rel r ts, .rel q us, s =>
    if r ≠ q then .error (.relations (.rel r ts) (.rel q us))
    else if ts.length ≠ us.length then .error (.arities (.rel r ts) (.rel q us))
    else Term.unifyLists ts us s
  | .eq l r, .eq l' r', s => Term.unifyLists [l, r] [l', r'] s
  | a, b, _ => .error (.equationWithRelation a b)

end Entailment
