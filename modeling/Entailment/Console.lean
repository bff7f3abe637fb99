import Entailment.Formula.Parser
import Entailment.KnowledgeBase.Basic

/-! Commands to a knowledge base, one on each line, and what they print. -/
namespace Entailment.Console

def usage : String :=
  "Usage:\n" ++
  "    help                Show this help screen\n" ++
  "    list                List content of the knowledge base\n" ++
  "    axiom <formula>     Add axiom to the knowledge base\n" ++
  "    lemma <formula>     Prove and add lemma to the knowledge base\n" ++
  "    prove <formula>     Prove formula\n" ++
  "    query <formula>     Show the bindings that satisfy the formula\n" ++
  "\n" ++
  "Formulas use \\all x: F, \\ex x: F, !, &, |, ->, <->, = and !=.\n" ++
  "Everything after # is a comment."

inductive Command where
  | empty
  | help
  | list
  | assert (text : String)
  | prove (text : String)
  | proveAndAdd (text : String)
  | query (text : String)
  | unknown (verb : String)
deriving DecidableEq, Repr

/-- The command of a verb. Its letters may be large or small; only ASCII letters
matter, since no other letter has a small form that a verb contains. -/
def Command.ofVerb (verb : List Char) (argument : String) : Command :=
  match String.ofList (verb.map Char.toLower) with
  | "" => .empty
  | "help" => .help
  | "list" => .list
  | "axiom" => .assert argument
  | "lemma" => .proveAndAdd argument
  | "prove" => .prove argument
  | "query" => .query argument
  | _ => .unknown (String.ofList verb)

/-- Reads a line: a verb and what follows it, up to a comment. -/
def parseCommand (line : String) : Command :=
  let code := match Text.splitFirst (· == '#') line.toList with
    | some (code, _) => code
    | none => line.toList
  let code := Text.trim code
  let (verb, rest) := (Text.splitFirst Text.isBlank code).getD (code, [])
  .ofVerb verb (String.ofList (Text.trim rest))

def error (message : String) : String := "Error: " ++ message

/-- A number right-aligned to three places. -/
def ordinal (n : Nat) : String :=
  let digits := toString n
  String.ofList (List.replicate (3 - digits.length) ' ') ++ digits

def listing (σ : Symbols) (kb : KnowledgeBase) : String :=
  "\n".intercalate (kb.entries.zipIdx.map fun (e, i) => ordinal (i + 1) ++ ". " ++ e.render σ)

/-- Replies to an attempt to prove a formula. -/
def proofReply : Outcome → String
  | .entailed => "Formula is entailed by the knowledge base."
  | .notEntailed => "Formula is not entailed by the knowledge base."
  | .inconclusive => "Could not decide within the search limits."

/-- Replies to an attempt to add a lemma. -/
def lemmaReply : Outcome → String
  | .entailed => "Lemma was proven and was added to the knowledge base."
  | .notEntailed => "Lemma was not proven and was not added to the knowledge base."
  | .inconclusive =>
    "Lemma could not be proven within the search limits and was not added to the knowledge base."

/-- Replies to a query: its bindings, or why there are none. -/
def queryReply (σ : Symbols) (bindings : List Substitution) (outcome : Option Outcome) : String :=
  if bindings.isEmpty then
    match outcome with
    | some .entailed => "Query is entailed by the knowledge base, but no single binding satisfies it."
    | some .inconclusive => "No answer found within the search limits."
    | _ => error "Query is not entailed by the knowledge base."
  else "\n".intercalate (bindings.map (Substitution.render σ))

/-- Carries out a command on the formula of a text. -/
def withFormula (text : String) (kb : KnowledgeBase)
    (act : Formula → SessionM (Except ClausifyError String × KnowledgeBase)) :
    SessionM (String × KnowledgeBase) := do
  if text.isEmpty then return (error "Expected 1 argument", kb)
  match ← SessionM.naming (Formula.parse text) with
  | .error e => return (error (e.message (← get).symbols), kb)
  | .ok f =>
    match ← act f with
    | (.ok reply, kb) => return (reply, kb)
    | (.error e, kb) => return (error (e.message (← get).symbols), kb)

def assert (kb : KnowledgeBase) (f : Formula) :
    SessionM (Except ClausifyError String × KnowledgeBase) := do
  let (result, kb) ← kb.addAxiom f
  return (result.map fun () => "", kb)

def prove (kb : KnowledgeBase) (f : Formula) :
    SessionM (Except ClausifyError String × KnowledgeBase) := do
  let (result, kb) ← kb.prove f
  return (result.map proofReply, kb)

def proveAndAdd (kb : KnowledgeBase) (f : Formula) :
    SessionM (Except ClausifyError String × KnowledgeBase) := do
  let (result, kb) ← kb.addLemma f
  return (result.map lemmaReply, kb)

def query (kb : KnowledgeBase) (f : Formula) :
    SessionM (Except ClausifyError String × KnowledgeBase) := do
  match ← kb.query f with
  | (.error e, kb) => return (.error e, kb)
  | (.ok q, kb) =>
    let (bindings, q) ← q.all
    return (.ok (queryReply (← get).symbols bindings q.outcome), kb)

/-- Carries out one line and gives what is to be shown. -/
def execute (line : String) (kb : KnowledgeBase) : SessionM (String × KnowledgeBase) := do
  match parseCommand line with
  | .empty => return ("", kb)
  | .help => return (usage, kb)
  | .list => return (listing (← get).symbols kb, kb)
  | .assert text => withFormula text kb (assert kb)
  | .prove text => withFormula text kb (prove kb)
  | .proveAndAdd text => withFormula text kb (proveAndAdd kb)
  | .query text => withFormula text kb (query kb)
  | .unknown verb => return (error ("'" ++ verb ++ "' is not a valid command\n" ++ usage), kb)

/-- Carries out lines in order. -/
def executeAll : List String → KnowledgeBase → SessionM (List String × KnowledgeBase)
  | [], kb => return ([], kb)
  | line :: lines, kb => do
    let (reply, kb) ← execute line kb
    let (replies, kb) ← executeAll lines kb
    return (reply :: replies, kb)

end Entailment.Console
