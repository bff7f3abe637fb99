import Entailment.Term.Order

/-! First-order formulas with equality: their text, their free variables and
the scope check that precedes every conversion. -/
namespace Entailment

inductive Formula where
  | rel (r : Symbol) (args : List Term)
  | eq (l r : Term)
  | not (f : Formula)
  | and (f g : Formula)
  | or (f g : Formula)
  | imp (f g : Formula)
  | iff (f g : Formula)
  | all (x : Symbol) (f : Formula)
  | ex (x : Symbol) (f : Formula)
deriving DecidableEq, Inhabited, Repr

namespace Formula

def render (σ : Symbols) : Formula → String
  | .rel r [] => σ.name r
  | .rel r args => σ.name r ++ "(" ++ Term.renderArgs σ args ++ ")"
  | .eq l r => l.render σ ++ " = " ++ r.render σ
  | .not (.eq l r) => l.render σ ++ " ≠ " ++ r.render σ
  | .not f => "¬" ++ f.render σ
  | .and f g => "(" ++ f.render σ ++ " ∧ " ++ g.render σ ++ ")"
  | .or f g => "(" ++ f.render σ ++ " ∨ " ++ g.render σ ++ ")"
  | .imp f g => "(" ++ f.render σ ++ " → " ++ g.render σ ++ ")"
  | .iff f g => "(" ++ f.render σ ++ " <=> " ++ g.render σ ++ ")"
  | .all x f => "(∀" ++ σ.name x ++ ": " ++ f.render σ ++ ")"
  | .ex x f => "(∃" ++ σ.name x ++ ": " ++ f.render σ ++ ")"

/-- Adds the variables of the terms that are neither bound nor found yet. -/
def addFree (bound found : List Symbol) (ts : List Term) : List Symbol :=
  (Term.varsOf ts).foldl
    (fun found x => if bound.contains x || found.contains x then found else found ++ [x]) found

/-- Adds the free variables of a formula below the binders `bound`. -/
def collectFree (bound : List Symbol) : List Symbol → Formula → List Symbol
  | found, .rel _ args => addFree bound found args
  | found, .eq l r => addFree bound found [l, r]
  | found, .not f => collectFree bound found f
  | found, .and f g => collectFree bound (collectFree bound found f) g
  | found, .or f g => collectFree bound (collectFree bound found f) g
  | found, .imp f g => collectFree bound (collectFree bound found f) g
  | found, .iff f g => collectFree bound (collectFree bound found f) g
  | found, .all x f => collectFree (x :: bound) found f
  | found, .ex x f => collectFree (x :: bound) found f

/-- The free variables in order of first occurrence. -/
def freeVars (f : Formula) : List Symbol := collectFree [] [] f

def isClosed (f : Formula) : Bool := f.freeVars.isEmpty

end Formula

/-- Why a formula is refused before conversion. -/
inductive ScopeError where
  /-- The variable is bound by no quantifier. -/
  | free (x : Symbol)
  /-- A quantifier stands inside the scope of another one for the same name. -/
  | rebound (x : Symbol)
deriving DecidableEq, Repr

namespace ScopeError

def message (σ : Symbols) : ScopeError → String
  | .free x => "Variable '" ++ σ.name x ++ "' is not bound by any quantifier"
  | .rebound x =>
    "Variable '" ++ σ.name x ++ "' is bound again inside the scope of a quantifier binding it"

end ScopeError

mutual

/-- Checks that every variable of a term is in scope. -/
def Term.checkScope (scope : List Symbol) : Term → Except ScopeError Unit
  | .var x => if scope.contains x then .ok () else .error (.free x)
  | .const _ => .ok ()
  | .app _ args => Term.checkScopeAll scope args

def Term.checkScopeAll (scope : List Symbol) : List Term → Except ScopeError Unit
  | [] => .ok ()
  | t :: ts => do
    t.checkScope scope
    Term.checkScopeAll scope ts

end

namespace Formula

/-- Checks below the binders `scope`, from left to right. -/
def checkScope (scope : List Symbol) : Formula → Except ScopeError Unit
  | .rel _ args => Term.checkScopeAll scope args
  | .eq l r => Term.checkScopeAll scope [l, r]
  | .not f => f.checkScope scope
  | .and f g | .or f g | .imp f g | .iff f g => do
    f.checkScope scope
    g.checkScope scope
  | .all x f | .ex x f =>
    if scope.contains x then .error (.rebound x) else f.checkScope (x :: scope)

/-- Accepts closed formulas in which no quantifier rebinds a variable that is
already bound around it. -/
def validate (f : Formula) : Except ScopeError Unit := f.checkScope []

end Formula

end Entailment
