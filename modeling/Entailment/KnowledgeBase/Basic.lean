import Entailment.Search.Query

/-! A knowledge base: axioms and proven lemmas, which only grow in number. All
its conversions share one pair of counters, so that generated names stay apart. -/
namespace Entailment

structure KnowledgeBase where
  entries : List Entry
  clausifier : Clausifier
  limits : Limits
deriving DecidableEq

namespace KnowledgeBase

def new (limits : Limits) : KnowledgeBase := ⟨[], .new, limits⟩

instance : Inhabited KnowledgeBase := ⟨new .default⟩

def size (kb : KnowledgeBase) : Nat := kb.entries.length

def isEmpty (kb : KnowledgeBase) : Bool := kb.entries.isEmpty

/-- The formulas in the order in which they were added. -/
def formulas (kb : KnowledgeBase) : List Formula := kb.entries.map Entry.formula

/-- The clauses of all entries. -/
def clauses (kb : KnowledgeBase) : List Clause := kb.entries.flatMap (·.clauses.clauses)

/-- Converts a formula and appends it. -/
def add (f : Formula) (provenance : Provenance) (kb : KnowledgeBase) :
    SessionM (Except ClausifyError Unit × KnowledgeBase) := do
  match ← kb.clausifier.clausify f with
  | (.error e, k) => return (.error e, { kb with clausifier := k })
  | (.ok cs, k) =>
    let entry := ⟨f, cs, provenance⟩
    SessionM.note (.added entry)
    return (.ok (), { kb with clausifier := k, entries := kb.entries ++ [entry] })

/-- Adds a formula without any check for consistency. -/
def addAxiom (f : Formula) (kb : KnowledgeBase) :
    SessionM (Except ClausifyError Unit × KnowledgeBase) :=
  kb.add f .asserted

def prove (goal : Formula) (kb : KnowledgeBase) :
    SessionM (Except ClausifyError Outcome × KnowledgeBase) := do
  let (result, k) ← Entailment.prove kb.clauses goal kb.clausifier kb.limits
  return (result, { kb with clausifier := k })

/-- Adds a formula if the base entails it. -/
def addLemma (f : Formula) (kb : KnowledgeBase) :
    SessionM (Except ClausifyError Outcome × KnowledgeBase) := do
  match ← kb.prove f with
  | (.ok .entailed, kb) =>
    match ← kb.add f .proven with
    | (.error e, kb) => return (.error e, kb)
    | (.ok (), kb) => return (.ok .entailed, kb)
  | (.ok outcome, kb) =>
    SessionM.note (.rejected f outcome)
    return (.ok outcome, kb)
  | (.error e, kb) => return (.error e, kb)

def query (goal : Formula) (kb : KnowledgeBase) :
    SessionM (Except ClausifyError Query × KnowledgeBase) := do
  let (result, k) ← Entailment.query kb.clauses goal kb.clausifier kb.limits
  return (result, { kb with clausifier := k })

end KnowledgeBase

end Entailment
