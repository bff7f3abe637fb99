import Entailment.Clause.Canonical
import Entailment.Formula.Binder
import Entailment.Formula.NormalForm
import Entailment.Formula.Skolem
import Entailment.Session
import Std.Data.TreeSet

/-! From closed formulas to clauses: negation normal form, distinct binders,
Skolem terms, distribution of `∨` over `∧`. A valid formula without quantifiers
and equations leaves no clause. -/
namespace Entailment

inductive ClausifyError where
  | scope (e : ScopeError)
  /-- A distribution step would create too many clauses. -/
  | tooLarge
deriving DecidableEq, Repr

namespace ClausifyError

/-- The most clauses that one distribution step may create. -/
def sizeLimit : Nat := 200000

def message (σ : Symbols) : ClausifyError → String
  | .scope e => e.message σ
  | .tooLarge =>
    "Conversion to clause normal form would create more than " ++ toString sizeLimit ++ " clauses"

end ClausifyError

namespace Clause

/-- The clause with the literals of both. -/
def union (c d : Clause) : Clause := ofList (c.literals ++ d.literals)

/-- Clauses for the disjunction of two conjunctions of clauses. -/
def distribute (cs ds : List Clause) : Except ClausifyError (List Clause) :=
  if cs.length * ds.length > ClausifyError.sizeLimit then .error .tooLarge
  else .ok (cs.flatMap fun c => ds.map c.union)

/-- The first occurrences of the clauses of a list. -/
def distinct (cs : List Clause) : List Clause :=
  (cs.foldl (fun (seen, kept) c =>
    if seen.contains c then (seen, kept) else (seen.insert c, c :: kept))
    ((∅ : Std.TreeSet Clause), [])).2.reverse

end Clause

namespace Formula

/-- Clauses of the matrix of a formula, or of its negation. Quantifiers are
passed over: what is left of them binds the variables of the clauses. -/
def clauses : (negated : Bool) → Formula → Except ClausifyError (List Clause)
  | n, .rel r args => .ok [.ofList [⟨.rel r args, n⟩]]
  | n, .eq l r => .ok [.ofList [⟨.equation l r, n⟩]]
  | n, .not f => f.clauses !n
  | false, .and f g => return (← f.clauses false) ++ (← g.clauses false)
  | true, .and f g => do Clause.distribute (← f.clauses true) (← g.clauses true)
  | false, .or f g => do Clause.distribute (← f.clauses false) (← g.clauses false)
  | true, .or f g => return (← f.clauses true) ++ (← g.clauses true)
  | false, .imp f g => do Clause.distribute (← f.clauses true) (← g.clauses false)
  | true, .imp f g => return (← f.clauses false) ++ (← g.clauses true)
  | false, .iff f g => do
    let forward ← Clause.distribute (← f.clauses true) (← g.clauses false)
    let backward ← Clause.distribute (← g.clauses true) (← f.clauses false)
    return forward ++ backward
  | true, .iff f g => do
    let left := (← f.clauses false) ++ (← g.clauses true)
    let right := (← g.clauses false) ++ (← f.clauses true)
    Clause.distribute left right
  | n, .all _ f => f.clauses n
  | n, .ex _ f => f.clauses n

end Formula

/-- The counters behind the generated names of one stream of conversions. -/
structure Clausifier where
  varCounter : UInt32
  skolemCounter : UInt32
deriving DecidableEq, Inhabited, Repr

namespace Clausifier

def new : Clausifier := ⟨0, 0⟩

/-- Leaves out tautologies and repetitions. -/
def sift (cs : List Clause) : SessionM ClauseSet := do
  (cs.filter Clause.isTautology).forM fun c => SessionM.note (.tautology c)
  return ⟨Clause.distinct (cs.filter (!·.isTautology))⟩

/-- The clauses of a closed formula, and the counters afterwards. -/
def clausify (f : Formula) (k : Clausifier) :
    SessionM (Except ClausifyError ClauseSet × Clausifier) := do
  match f.validate with
  | .error e => return (.error (.scope e), k)
  | .ok () =>
    let (g, varCounter) ← SessionM.naming (f.basic.nnf.distinctBinders k.varCounter)
    let (g, skolemCounter) ← SessionM.naming (g.skolemize k.skolemCounter)
    SessionM.note (.skolemForm f g)
    match g.clauses false with
    | .error e => return (.error e, ⟨varCounter, skolemCounter⟩)
    | .ok cs =>
      let cs ← sift cs
      SessionM.note (.converted f cs)
      return (.ok cs, ⟨varCounter, skolemCounter⟩)

end Clausifier

end Entailment
