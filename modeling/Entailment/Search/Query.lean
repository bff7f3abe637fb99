import Entailment.Search.Proof

/-! Queries: bindings of the leading existential variables of a goal. The
negated goal carries an answer literal with these variables through the
refutation, and a clause of answer literals alone gives a binding. -/
namespace Entailment

namespace Formula

/-- The leading existential variables and the formula below them. -/
def peelExistentials : Formula → List Symbol × Formula
  | .ex x f =>
    let (xs, body) := f.peelExistentials
    (x :: xs, body)
  | f => ([], f)

/-- The formula `∀x1 ... ∀xn: (¬F ∨ $answer(x1, ..., xn))`. -/
def negatedWithAnswer (xs : List Symbol) (body : Formula) : Naming Formula := do
  let answer ← Symbols.intern Atom.answerName
  return xs.foldr .all (.or (.not body) (.rel answer (xs.map .var)))

end Formula

/-- Answers found so far. -/
structure Answers where
  bindings : Std.TreeSet (List Term) Term.cmpAll
  /-- Whether there was an answer that leaves open which of several bindings holds. -/
  disjunctive : Bool

namespace Answers

def empty : Answers := ⟨∅, false⟩

def isEmpty (a : Answers) : Bool := a.bindings.isEmpty && !a.disjunctive

/-- The terms of an answer clause for `n` variables, unless it is disjunctive. -/
def terms? (n : Nat) (c : Clause) : Option (List Term) :=
  match c.literals with
  | [⟨.rel _ args, _⟩] => if args.length = n then some args else none
  | _ => none

/-- Takes in an answer clause; a binding that is new is given back. -/
def receive (n : Nat) (a : Answers) (c : Clause) : SessionM (Answers × Option (List Term)) := do
  match terms? n c with
  | none =>
    SessionM.note (.disjunctiveAnswer c)
    return ({ a with disjunctive := true }, none)
  | some args =>
    if a.bindings.contains args then
      SessionM.note (.repeatedAnswer c)
      return (a, none)
    else
      SessionM.note (.answer c)
      return ({ a with bindings := a.bindings.insert args }, some args)

end Answers

/-- A search for bindings, which can be continued after each one. -/
structure Query where
  /-- The search, unless it has ended. -/
  saturation : Option Saturation
  vars : List Symbol
  answers : Answers
  /-- How the search ended. -/
  outcome : Option Outcome

namespace Query

/-- A query with an answer, also with a disjunctive one, is entailed however its
search ends. -/
def finalOutcome (e : Ending) (a : Answers) : Outcome :=
  if a.isEmpty then e.outcome else .entailed

/-- Closes the query. -/
def finish (e : Ending) (s : Saturation) (a : Answers) (q : Query) : SessionM Query := do
  let outcome := finalOutcome e a
  SessionM.note (.queryFinished outcome s.iterations a.bindings.size)
  return { q with saturation := none, answers := a, outcome := some outcome }

/-- The substitution for a list of found terms. -/
def binding (q : Query) (args : List Term) : Substitution := .ofList (q.vars.zip args)

/-- The binding that the end of a search brings: a contradiction needs none. -/
def lastBinding : Ending → List Substitution
  | .contradiction => [.empty]
  | _ => []

/-- Goes on to the next binding. -/
def next (q : Query) : SessionM (Option Substitution × Query) := do
  match q.saturation with
  | none => return (none, q)
  | some s =>
    match ← s.pursue (Answers.receive q.vars.length) q.answers with
    | (.found args, s, a) =>
      return (some (q.binding args), { q with saturation := some s, answers := a })
    | (.ended e, s, a) => return ((lastBinding e).head?, ← q.finish e s a)

/-- The next bindings, at most `n`. -/
def take : Nat → Query → SessionM (List Substitution × Query)
  | 0, q => return ([], q)
  | n + 1, q => do
    match ← q.next with
    | (none, q) => return ([], q)
    | (some b, q) =>
      let (bs, q) ← q.take n
      return (b :: bs, q)

/-- All bindings up to the end of the search. -/
def all (q : Query) : SessionM (List Substitution × Query) := do
  match q.saturation with
  | none => return ([], q)
  | some s =>
    let collect (state : Answers × List Substitution) (c : Clause) :
        SessionM ((Answers × List Substitution) × Option Empty) := do
      let (a, args) ← state.1.receive q.vars.length c
      return ((a, args.toList.map q.binding ++ state.2), none)
    match ← s.pursue collect (q.answers, []) with
    | (.ended e, s, (a, bs)) => return (bs.reverse ++ lastBinding e, ← q.finish e s a)

end Query

/-- Starts a search for bindings of the leading existential variables of `goal`.
A goal without any has at most the empty binding. -/
def query (base : List Clause) (goal : Formula) (k : Clausifier) (limits : Limits) :
    SessionM (Except ClausifyError Query × Clausifier) := do
  let (xs, body) := goal.peelExistentials
  let target ← SessionM.naming (Formula.negatedWithAnswer xs body)
  match ← k.clausify target with
  | (.error e, k) => return (.error e, k)
  | (.ok cs, k) =>
    SessionM.note (.querying goal xs.length)
    let s ← Saturation.start (base ++ cs.clauses) limits
    return (.ok ⟨some s, xs, .empty, none⟩, k)

end Entailment
