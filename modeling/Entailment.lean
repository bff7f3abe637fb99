import Entailment.Atom
import Entailment.Clause.Basic
import Entailment.Clause.Canonical
import Entailment.Clause.Clausify
import Entailment.Console
import Entailment.FileTree
import Entailment.Formula.Basic
import Entailment.Formula.Binder
import Entailment.Formula.NormalForm
import Entailment.Formula.Parser
import Entailment.Formula.Skolem
import Entailment.Formula.Token
import Entailment.Inference
import Entailment.Json.Basic
import Entailment.Json.Clause
import Entailment.Json.Form
import Entailment.Json.Formula
import Entailment.Json.Reader
import Entailment.Json.Snapshot
import Entailment.KnowledgeBase.Basic
import Entailment.KnowledgeBase.Entry
import Entailment.KnowledgeBase.Snapshot
import Entailment.Main
import Entailment.Matching
import Entailment.Options
import Entailment.Pool
import Entailment.Program
import Entailment.Proofs.Alignment
import Entailment.Proofs.AnswerLiteral
import Entailment.Proofs.Answers
import Entailment.Proofs.Binder
import Entailment.Proofs.Bindings
import Entailment.Proofs.Bookkeeping
import Entailment.Proofs.Bounds
import Entailment.Proofs.Budget
import Entailment.Proofs.Canonical
import Entailment.Proofs.Clause
import Entailment.Proofs.ClauseForm
import Entailment.Proofs.Clausify
import Entailment.Proofs.Closure
import Entailment.Proofs.Command
import Entailment.Proofs.Completeness
import Entailment.Proofs.Course
import Entailment.Proofs.Decoding
import Entailment.Proofs.Duplicates
import Entailment.Proofs.Embedding
import Entailment.Proofs.Enumeration
import Entailment.Proofs.Fairness
import Entailment.Proofs.FreeVariables
import Entailment.Proofs.Idempotence
import Entailment.Proofs.Inference
import Entailment.Proofs.Instances
import Entailment.Proofs.Interning
import Entailment.Proofs.Interpretation
import Entailment.Proofs.JsonText
import Entailment.Proofs.KnowledgeBase
import Entailment.Proofs.Legibility
import Entailment.Proofs.Lexeme
import Entailment.Proofs.Lifting
import Entailment.Proofs.Listing
import Entailment.Proofs.Matching
import Entailment.Proofs.Matrix
import Entailment.Proofs.NormalClause
import Entailment.Proofs.NormalForm
import Entailment.Proofs.Occurrence
import Entailment.Proofs.Operand
import Entailment.Proofs.Parser
import Entailment.Proofs.Persistence
import Entailment.Proofs.Polarity
import Entailment.Proofs.Pool
import Entailment.Proofs.Positions
import Entailment.Proofs.Premises
import Entailment.Proofs.Propositional
import Entailment.Proofs.Query
import Entailment.Proofs.Readability
import Entailment.Proofs.Reading
import Entailment.Proofs.Recast
import Entailment.Proofs.Refutation
import Entailment.Proofs.Relabel
import Entailment.Proofs.Renaming
import Entailment.Proofs.Rendering
import Entailment.Proofs.Repetition
import Entailment.Proofs.Restoration
import Entailment.Proofs.RoundTrip
import Entailment.Proofs.Saturation
import Entailment.Proofs.Scope
import Entailment.Proofs.Separation
import Entailment.Proofs.Session
import Entailment.Proofs.Signature
import Entailment.Proofs.Skolem
import Entailment.Proofs.Stability
import Entailment.Proofs.Store
import Entailment.Proofs.Substitution
import Entailment.Proofs.Subsumption
import Entailment.Proofs.Symbol
import Entailment.Proofs.Tampering
import Entailment.Proofs.Term
import Entailment.Proofs.Termination
import Entailment.Proofs.Tiling
import Entailment.Proofs.Timestamp
import Entailment.Proofs.Transcript
import Entailment.Proofs.Truth
import Entailment.Proofs.Unification.Calls
import Entailment.Proofs.Unification.Depth
import Entailment.Proofs.Unification.Exact
import Entailment.Proofs.Unification.MostGeneral
import Entailment.Proofs.Variants
import Entailment.Proofs.Verdict
import Entailment.Seal.Basic
import Entailment.Seal.Sha3
import Entailment.Search.Limits
import Entailment.Search.Proof
import Entailment.Search.Query
import Entailment.Search.Saturation
import Entailment.Session
import Entailment.Sorting
import Entailment.StateFile
import Entailment.Substitution
import Entailment.Symbol
import Entailment.Term.Basic
import Entailment.Term.Order
import Entailment.Text.Backspace
import Entailment.Text.Blank
import Entailment.Text.BreakClass
import Entailment.Text.Cluster
import Entailment.Timestamp
import Entailment.Unification
