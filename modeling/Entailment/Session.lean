import Entailment.KnowledgeBase.Entry
import Entailment.Search.Limits

/-! What surrounds a computation: the table of names, the journal of what
happened, and the means a search may use up. -/
namespace Entailment

/-- Levels of detail, the coarsest first. -/
inductive Level where
  | info
  | debug
  | trace
deriving DecidableEq, Inhabited, Repr

namespace Level

def rank : Level → Nat
  | .info => 1
  | .debug => 2
  | .trace => 3

def text : Level → String
  | .info => "INFO"
  | .debug => "DEBUG"
  | .trace => "TRACE"

end Level

/-- Something worth noting. -/
inductive Note where
  | skolemForm (formula result : Formula)
  | tautology (c : Clause)
  | converted (formula : Formula) (clauses : ClauseSet)
  | duplicate (c : Clause)
  | subsumed (c : Clause)
  | stored (id : Nat) (c : Clause)
  | given (id : Nat) (c : Clause)
  | decided (goal : Formula) (outcome : Outcome) (iterations : Nat)
  | querying (goal : Formula) (arity : Nat)
  | queryFinished (outcome : Outcome) (iterations answers : Nat)
  | disjunctiveAnswer (c : Clause)
  | repeatedAnswer (c : Clause)
  | answer (c : Clause)
  | added (entry : Entry)
  | rejected (formula : Formula) (outcome : Outcome)
deriving Inhabited

namespace Note

def level : Note → Level
  | .skolemForm .. | .tautology _ | .duplicate _ | .subsumed _ => .trace
  | .converted .. | .stored .. | .given .. => .debug
  | .disjunctiveAnswer _ | .repeatedAnswer _ | .answer _ => .debug
  | .decided .. | .querying .. | .queryFinished .. | .added .. | .rejected .. => .info

def message (σ : Symbols) : Note → String
  | .skolemForm f g => "skolem normal form of " ++ f.render σ ++ ": " ++ g.render σ
  | .tautology c => "dropping tautology " ++ c.render σ
  | .converted f cs => f.render σ ++ " converts to " ++ cs.render σ
  | .duplicate c => "dropping duplicate " ++ c.render σ
  | .subsumed c => "dropping subsumed " ++ c.render σ
  | .stored id c => "[" ++ toString id ++ "] " ++ c.render σ
  | .given id c => "given [" ++ toString id ++ "] " ++ c.render σ
  | .decided goal outcome n =>
    goal.render σ ++ " is " ++ outcome.text ++ " (" ++ toString n ++ " iterations)"
  | .querying goal n => "querying " ++ goal.render σ ++ " for " ++ toString n ++ " variables"
  | .queryFinished outcome n k =>
    "query finished as " ++ outcome.text ++ " after " ++ toString n ++ " iterations with " ++
      toString k ++ " answers"
  | .disjunctiveAnswer c => "disjunctive answer " ++ c.render σ
  | .repeatedAnswer c => "repeated answer " ++ c.render σ
  | .answer c => "answer " ++ c.render σ
  | .added e =>
    "added " ++ e.provenance.text ++ " " ++ e.formula.render σ ++ " as " ++ e.clauses.render σ
  | .rejected f outcome => "rejected lemma " ++ f.render σ ++ ": " ++ outcome.text

end Note

/-- Notes up to a level of detail, in order. Without a level nothing is kept. -/
structure Journal where
  level : Option Level
  notes : Array Note
deriving Inhabited

namespace Journal

def silent : Journal := ⟨none, #[]⟩

def keeps (j : Journal) (level : Level) : Bool := j.level.any (level.rank ≤ ·.rank)

def record (note : Note) (j : Journal) : Journal :=
  if j.keeps note.level then { j with notes := j.notes.push note } else j

end Journal

structure Session where
  symbols : Symbols
  journal : Journal
  /-- The time a search has spent when it has made so many selections. -/
  clock : Nat → Duration
  /-- The number of selections after which a search without a bound is given up. -/
  horizon : Nat

namespace Session

/-- A session that knows no names and writes no journal, in which no time passes
and no search could be carried beyond the horizon. -/
def new : Session := ⟨.empty, .silent, fun _ => ⟨0⟩, UInt64.size⟩

instance : Inhabited Session := ⟨new⟩

end Session

/-- Computations inside a session. -/
abbrev SessionM := StateM Session

namespace SessionM

/-- Runs a computation on the table of names. -/
def naming {α : Type} (x : Naming α) : SessionM α
  | ⟨σ, journal, clock, horizon⟩ =>
    let (a, σ) := x σ
    (a, ⟨σ, journal, clock, horizon⟩)

def note (n : Note) : SessionM Unit
  | ⟨σ, journal, clock, horizon⟩ => ((), ⟨σ, journal.record n, clock, horizon⟩)

end SessionM

end Entailment
