import Entailment.Formula.Basic
import Entailment.Formula.Token

/-! Reading formulas and ground terms. Negation binds tightest, then `&`, `|`,
`->` and `<->`; implication groups to the right, the others to the left, and
the body of a quantifier extends as far to the right as it can. An identifier
bound by an enclosing quantifier is a variable; any other one is a relation at
formula level and a constant or function inside a term, each with one arity.

Names enter the table when their token is read, also by a text that is refused
later. -/
namespace Entailment

/-- What the reader was looking for. -/
inductive Wanted where
  | kind (k : TokenKind)
  | relation
  | identifier
  | variable
  | endOfInput
deriving DecidableEq, Repr

namespace Wanted

def text : Wanted → String
  | .kind k => k.text
  | .relation => "relation identifier"
  | .identifier => "identifier"
  | .variable => "variable to bind"
  | .endOfInput => "end of input"

end Wanted

/-- What the reader met instead. -/
inductive Found where
  | token (t : Token)
  | unknown (u : UnknownChar)
  | endOfInput
deriving DecidableEq, Repr

namespace Found

def text : Found → String
  | .token t => t.text ++ " at position " ++ toString t.pos
  | .unknown u => u.message
  | .endOfInput => "end of input"

end Found

inductive ParseError where
  | expected (wanted : Wanted) (found : Found)
  | emptyFormula
  | unknownChar (u : UnknownChar)
  | relationArity (r : Symbol) (arity got : Nat)
  | functionArity (f : Symbol) (arity got : Nat)
  | constantAndFunction (s : Symbol)
  | variableApplied (x : Symbol)
  | variableAsFormula (x : Symbol)
deriving DecidableEq, Repr

namespace ParseError

def message (σ : Symbols) : ParseError → String
  | .expected wanted found => "Expected " ++ wanted.text ++ " but got " ++ found.text
  | .emptyFormula => "Expected a formula but got empty input"
  | .unknownChar u => u.message
  | .relationArity r arity got =>
    "Relation '" ++ σ.name r ++ "' should have arity " ++ toString arity ++ " but has " ++
      toString got
  | .functionArity f arity got =>
    "Function '" ++ σ.name f ++ "' should have arity " ++ toString arity ++ " but has " ++
      toString got
  | .constantAndFunction s =>
    "Identifier '" ++ σ.name s ++ "' is used both as a constant and a function"
  | .variableApplied x => "Bound variable '" ++ σ.name x ++ "' cannot be applied to arguments"
  | .variableAsFormula x => "Bound variable '" ++ σ.name x ++ "' cannot be used as a formula"

end ParseError

/-- The rest of the input and what the part before it has settled. -/
structure ReaderState where
  symbols : Symbols
  tokens : List Token
  stop : Option UnknownChar
  /-- Relations met so far, with their arities. -/
  relations : List (Symbol × Nat)
  /-- Functions met so far, with their arities. -/
  functions : List (Symbol × Nat)
  constants : List Symbol

/-- A reading step; a failed one keeps the names it has met. -/
abbrev Reader := ExceptT ParseError (StateM ReaderState)

namespace Reader

def start (stream : TokenStream) (σ : Symbols) : ReaderState :=
  ⟨σ, stream.tokens, stream.stop, [], [], []⟩

/-- What stands next in the input. -/
def found : Reader Found := do
  let s ← get
  match s.tokens, s.stop with
  | t :: _, _ => return .token t
  | [], some u => return .unknown u
  | [], none => return .endOfInput

def expected {α : Type} (wanted : Wanted) : Reader α := do
  throw (.expected wanted (← found))

/-- Takes the next token if it has the kind. -/
def accept (kind : TokenKind) : Reader Bool := do
  match (← get).tokens with
  | t :: rest =>
    if t.kind = kind then
      modify ({ · with tokens := rest })
      return true
    else return false
  | [] => return false

def expect (kind : TokenKind) : Reader Unit := do
  unless ← accept kind do
    expected (.kind kind)

def intern (name : String) : Reader Symbol :=
  modifyGet fun ⟨σ, tokens, stop, relations, functions, constants⟩ =>
    let (s, σ) := Symbols.intern name σ
    (s, ⟨σ, tokens, stop, relations, functions, constants⟩)

/-- Takes an identifier and interns it. -/
def identifier (wanted : Wanted) : Reader Symbol := do
  match (← get).tokens with
  | t :: rest =>
    if t.kind = .ident then
      modify ({ · with tokens := rest })
      intern t.spelling
    else expected wanted
  | [] => expected wanted

/-- Further items, each after a separator. -/
def after {α : Type} (separator : TokenKind) (item : Reader α) : Nat → Reader (List α)
  | 0 => return []
  | fuel + 1 => do
    if ← accept separator then
      let a ← item
      return a :: (← after separator item fuel)
    else return []

/-- A bracketed list of terms, if there is one. -/
def arguments (term : Reader Term) (fuel : Nat) : Reader (Option (List Term)) := do
  if ← accept .lparen then
    let t ← term
    let ts ← after .comma term fuel
    expect .rparen
    return some (t :: ts)
  else return none

/-- The term that an identifier and its arguments stand for. -/
def makeTerm (scope : List Symbol) (s : Symbol) : Option (List Term) → Reader Term
  | none => do
    if scope.contains s then return .var s
    if ((← get).functions.lookup s).isSome then throw (.constantAndFunction s)
    modify fun st => { st with constants := s :: st.constants }
    return .const s
  | some args => do
    if scope.contains s then throw (.variableApplied s)
    if (← get).constants.contains s then throw (.constantAndFunction s)
    match (← get).functions.lookup s with
    | some arity =>
      if args.length ≠ arity then throw (.functionArity s arity args.length)
    | none => modify fun st => { st with functions := (s, args.length) :: st.functions }
    return .app s args

/-- A term below the binders `scope`. Nesting takes tokens, so the number of
tokens bounds its depth. -/
def term (scope : List Symbol) : Nat → Reader Term
  | 0 => expected .identifier
  | fuel + 1 => do
    let s ← identifier .identifier
    makeTerm scope s (← arguments (term scope fuel) fuel)

/-- The relation atom that an identifier and its arguments stand for. -/
def makeRelation (scope : List Symbol) (r : Symbol) (args : Option (List Term)) :
    Reader Formula := do
  if scope.contains r then
    throw (if args.isSome then .variableApplied r else .variableAsFormula r)
  let args := args.getD []
  match (← get).relations.lookup r with
  | some arity =>
    if args.length ≠ arity then throw (.relationArity r arity args.length)
  | none => modify fun st => { st with relations := (r, args.length) :: st.relations }
  return .rel r args

/-- A relation applied to terms or an equation. -/
def atomic (scope : List Symbol) (fuel : Nat) : Reader Formula := do
  let s ← identifier .relation
  let args ← arguments (term scope fuel) fuel
  if ← accept .eq then
    let l ← makeTerm scope s args
    return .eq l (← term scope fuel)
  if ← accept .ne then
    let l ← makeTerm scope s args
    return .not (.eq l (← term scope fuel))
  makeRelation scope s args

/-- A quantifier sign, if there is one. -/
def quantifier : Reader (Option (Symbol → Formula → Formula)) := do
  if ← accept .all then return some .all
  if ← accept .ex then return some .ex
  return none

/-- Bound names up to the colon, each with its quantifier; a name after a comma
may bring a new one. -/
def binders (q : Symbol → Formula → Formula) :
    Nat → Reader (List ((Symbol → Formula → Formula) × Symbol))
  | 0 => expected .variable
  | fuel + 1 => do
    let x ← identifier .variable
    if ← accept .colon then return [(q, x)]
    expect .comma
    let q' ← quantifier
    return (q, x) :: (← binders (q'.getD q) fuel)

/-- The number of negation signs in front. -/
def negations : Nat → Reader Nat
  | 0 => return 0
  | fuel + 1 => do
    if ← accept .not then return (← negations fuel) + 1
    return 0

/-- A formula below all connectives: negated, quantified, bracketed or atomic. -/
def operand (formula : List Symbol → Reader Formula) (scope : List Symbol) (fuel : Nat) :
    Reader Formula := do
  let n ← negations fuel
  let f ← do
    match ← quantifier with
    | some q =>
      let bs ← binders q fuel
      let body ← formula ((bs.map (·.2)).reverse ++ scope)
      pure (bs.foldr (fun b f => b.1 b.2 f) body)
    | none =>
      if ← accept .lparen then
        let f ← formula scope
        expect .rparen
        pure f
      else atomic scope fuel
  return n.repeat .not f

/-- Operands joined to the left. -/
def joinLeft (kind : TokenKind) (join : Formula → Formula → Formula) (operand : Reader Formula)
    (fuel : Nat) : Reader Formula := do
  let f ← operand
  return (← after kind operand fuel).foldl join f

/-- Folds a non-empty list of operands to the right. -/
def foldRight (join : Formula → Formula → Formula) : Formula → List Formula → Formula
  | f, [] => f
  | f, g :: gs => join f (foldRight join g gs)

/-- Operands joined to the right. -/
def joinRight (kind : TokenKind) (join : Formula → Formula → Formula) (operand : Reader Formula)
    (fuel : Nat) : Reader Formula := do
  let f ← operand
  return foldRight join f (← after kind operand fuel)

/-- A formula below the binders `scope`. Nesting takes tokens, so the number of
tokens bounds its depth. -/
def formula : Nat → List Symbol → Reader Formula
  | 0, _ => expected .relation
  | fuel + 1, scope =>
    let negated := operand (formula fuel) scope fuel
    let conjunction := joinLeft .and .and negated fuel
    let disjunction := joinLeft .or .or conjunction fuel
    let implication := joinRight .imp .imp disjunction fuel
    joinLeft .iff .iff implication fuel

/-- Fails unless the input is used up. The message tells what follows the token
that should not be there. -/
def done (atStop : UnknownChar → ParseError) : Reader Unit := do
  let s ← get
  match s.tokens, s.stop with
  | _ :: rest, _ =>
    set { s with tokens := rest }
    expected .endOfInput
  | [], some u => throw (atStop u)
  | [], none => return ()

/-- Runs a reader on a text. -/
def run {α : Type} (reader : Nat → Reader α) (text : String) : Naming (Except ParseError α) :=
  fun σ =>
    let stream := Token.scan text
    let (result, s) := ExceptT.run (reader (stream.tokens.length + 1)) (start stream σ)
    (result, s.symbols)

end Reader

/-- Reads a formula. -/
def Formula.parse (text : String) : Naming (Except ParseError Formula) :=
  Reader.run (fun fuel => do
    if (← Reader.found) = .endOfInput then throw .emptyFormula
    let f ← Reader.formula fuel []
    Reader.done .unknownChar
    return f) text

/-- Reads a term. No identifier is bound, so the term is ground. -/
def Term.parse (text : String) : Naming (Except ParseError Term) :=
  Reader.run (fun fuel => do
    let t ← Reader.term [] fuel
    Reader.done fun _ => .expected .endOfInput .endOfInput
    return t) text

end Entailment
