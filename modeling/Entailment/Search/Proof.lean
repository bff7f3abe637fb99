import Entailment.Search.Saturation

/-! Proofs by refutation: a goal follows from clauses if they and the clauses of
its negation lead to the empty clause. -/
namespace Entailment

namespace Ending

/-- What the end of a refutation search says about the goal. -/
def outcome : Ending → Outcome
  | .contradiction => .entailed
  | .saturated => .notEntailed
  | .exhausted => .inconclusive

end Ending

namespace Saturation

/-- Runs a search to its end. Answers on the way are passed over. -/
def finish (s : Saturation) : SessionM (Ending × Saturation) := do
  match ← s.pursue (fun (_ : Unit) _ => return ((), (none : Option Empty))) () with
  | (.ended e, s, _) => return (e, s)

end Saturation

/-- Whether the clauses entail the closed formula `goal`. The names of its Skolem
symbols come from `k`, whose counters are returned. -/
def prove (base : List Clause) (goal : Formula) (k : Clausifier) (limits : Limits) :
    SessionM (Except ClausifyError Outcome × Clausifier) := do
  match ← k.clausify (.not goal) with
  | (.error e, k) => return (.error e, k)
  | (.ok negated, k) =>
    let s ← Saturation.start (base ++ negated.clauses) limits
    let (ending, s) ← s.finish
    SessionM.note (.decided goal ending.outcome s.iterations)
    return (.ok ending.outcome, k)

end Entailment
