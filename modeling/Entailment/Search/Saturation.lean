import Entailment.Clause.Clausify
import Entailment.Inference

/-! Given-clause saturation. Clauses wait in a passive set; one after the other
is selected, becomes active and is combined with all active clauses. Mostly the
lightest passive clause is selected, and every fifth time the oldest one. -/
namespace Entailment

/-- What a search has come upon. -/
inductive Finding where
  | contradiction
  /-- A clause of answer literals only. It has one literal unless the answer is
  disjunctive. -/
  | answer (c : Clause)
deriving DecidableEq, Inhabited, Repr

/-- Pairs by their first part, then by their second. -/
abbrev pairOrder : Nat × Nat → Nat × Nat → Ordering :=
  compareLex (compareOn Prod.fst) (compareOn Prod.snd)

/-- The state of a search. Clauses are numbered in the order in which they are
stored. -/
structure Saturation where
  clauses : Array Clause
  /-- Numbers of the selected clauses, in order of selection. -/
  active : Array Nat
  /-- Passive clauses, each with its priority in front of its number. -/
  byWeight : Std.TreeSet (Nat × Nat) pairOrder
  /-- Passive clauses by number. -/
  byAge : Std.TreeSet Nat
  /-- Canonical forms of the clauses that were looked at. -/
  seen : Std.TreeSet Clause
  /-- What was found and not reported yet, oldest first. -/
  pending : List Finding
  varCounter : UInt32
  /-- Number of clauses taken out of the passive set. -/
  picks : Nat
  /-- Number of selections made. -/
  iterations : Nat
  limits : Limits

namespace Saturation

/-- Of this many selections in a row one takes the oldest clause. -/
def pickPeriod : Nat := 5

def init (limits : Limits) : Saturation :=
  ⟨#[], #[], ∅, ∅, ∅, [], 0, 0, 0, limits⟩

def clause (s : Saturation) (id : Nat) : Clause := s.clauses.getD id .empty

/-- Smaller is selected sooner. -/
def priority (c : Clause) : Nat := c.size + c.weight

/-- New names for variables, in order. -/
def freshNames : List Symbol → UInt32 → Naming (List (Symbol × Symbol) × UInt32)
  | [], counter => return ([], counter)
  | x :: xs, counter => do
    let (y, counter) ← Symbols.freshLike x counter
    let (names, counter) ← freshNames xs counter
    return ((x, y) :: names, counter)

/-- A copy of the clause whose variables occur nowhere else. -/
def renameApart (c : Clause) (s : Saturation) : SessionM (Clause × Saturation) := do
  let (names, counter) ← SessionM.naming (freshNames c.vars s.varCounter)
  return (c.rename fun x => (names.lookup x).getD x, { s with varCounter := counter })

def report (f : Finding) (s : Saturation) : Saturation := { s with pending := s.pending ++ [f] }

/-- Whether a stored clause subsumes `c`. -/
def isSubsumed (c : Clause) (s : Saturation) : Bool :=
  s.active.any (fun id => (s.clause id).subsumes c) ||
    s.byAge.any (fun id => (s.clause id).subsumes c)

/-- Adds a clause to the passive set. -/
def store (c : Clause) : Saturation → Saturation
  | ⟨clauses, active, byWeight, byAge, seen, pending, varCounter, picks, iterations, limits⟩ =>
    let id := clauses.size
    ⟨clauses.push c, active, byWeight.insert (priority c, id), byAge.insert id, seen, pending,
      varCounter, picks, iterations, limits⟩

/-- Takes in a clause: findings are reported, redundant clauses dropped, and any
other one is stored with variables of its own. -/
def insert (c : Clause) (s : Saturation) : SessionM Saturation := do
  if c.isEmpty then return s.report .contradiction
  if c.isTautology then
    SessionM.note (.tautology c)
    return s
  if c.isAnswer (← get).symbols then return s.report (.answer c)
  let form ← SessionM.naming c.canonical
  if s.seen.contains form then
    SessionM.note (.duplicate c)
    return s
  let s := { s with seen := s.seen.insert form }
  if s.isSubsumed c then
    SessionM.note (.subsumed c)
    return s
  let (c, s) ← s.renameApart c
  SessionM.note (.stored s.clauses.size c)
  return s.store c

def insertAll (cs : List Clause) (s : Saturation) : SessionM Saturation :=
  cs.foldlM (fun s c => s.insert c) s

/-- A search that has not selected anything yet. -/
def start (cs : List Clause) (limits : Limits) : SessionM Saturation :=
  insertAll cs (init limits)

/-- The next clause to select, removed from the passive set. An attempt that finds nothing
passive ends the search and is not counted, so after saturation `picks` is still the number
of clauses taken. -/
def pick (s : Saturation) : Option (Nat × Saturation) :=
  let picks := s.picks + 1
  if picks % pickPeriod = 0 then
    s.byAge.min?.map fun id =>
      (id, { s with
        picks := picks
        byAge := s.byAge.erase id
        byWeight := s.byWeight.erase (priority (s.clause id), id) })
  else
    s.byWeight.min?.map fun (weight, id) =>
      (id, { s with
        picks := picks
        byAge := s.byAge.erase id
        byWeight := s.byWeight.erase (weight, id) })

/-- What follows from a clause alone. -/
def unaryConsequences (σ : Symbols) (given : Clause) : List Clause :=
  given.factors σ ++ given.equalityResolvents

/-- What follows from a clause and an active one. -/
def consequences (σ : Symbols) (given other : Clause) : List Clause :=
  given.resolvents σ other ++ given.paramodulants σ other ++ other.paramodulants σ given

/-- What follows from a clause and a copy of itself. -/
def selfConsequences (σ : Symbols) (given copy : Clause) : List Clause :=
  given.resolvents σ copy ++ given.paramodulants σ copy

/-- Makes a clause active and takes in everything that follows. -/
def activate (id : Nat) (s : Saturation) : SessionM Saturation := do
  let given := s.clause id
  SessionM.note (.given id given)
  let σ := (← get).symbols
  let alone := unaryConsequences σ given
  let joint := s.active.toList.flatMap fun other => consequences σ given (s.clause other)
  let s := { s with active := s.active.push id, iterations := s.iterations + 1 }
  let (copy, s) ← s.renameApart given
  let own := selfConsequences (← get).symbols given copy
  s.insertAll (alone ++ joint ++ own)

/-- One selection, or nothing if no passive clause is left. -/
def select (s : Saturation) : SessionM (Option Saturation) :=
  match s.pick with
  | none => return none
  | some (id, s) => return some (← s.activate id)

/-- Selections that the limits still allow. -/
def remaining (s : Saturation) (horizon : Nat) : Nat :=
  s.limits.maxIterations.getD horizon - s.iterations

def isTimedOut (s : Saturation) (clock : Nat → Duration) : Bool :=
  s.limits.timeout.any fun t => t.nanoseconds ≤ (clock s.iterations).nanoseconds

end Saturation

/-- How a search comes to its end. -/
inductive Ending where
  | contradiction
  | saturated
  | exhausted
deriving DecidableEq, Inhabited, Repr

/-- What a search is interrupted with: something a listener asked for, or its end. -/
inductive Report (γ : Type) where
  | found (g : γ)
  | ended (e : Ending)
deriving Inhabited

namespace Saturation

/-- Hands pending answers to a listener until it asks to stop or a contradiction
turns up. Gives the report, what is still pending, and the listener's state. -/
def drain {β γ : Type} (listen : β → Clause → SessionM (β × Option γ)) :
    List Finding → β → SessionM (Option (Report γ) × List Finding × β)
  | [], b => return (none, [], b)
  | .contradiction :: rest, b => return (some (.ended .contradiction), rest, b)
  | .answer c :: rest, b => do
    let (b, stop) ← listen b c
    match stop with
    | some g => return (some (.found g), rest, b)
    | none => drain listen rest b

/-- Goes on with the search for at most `n` selections. -/
def pursueFor {β γ : Type} (listen : β → Clause → SessionM (β × Option γ)) (n : Nat)
    (s : Saturation) (b : β) : SessionM (Report γ × Saturation × β) := do
  let (report, pending, b) ← drain listen s.pending b
  let s := { s with pending := pending }
  match report with
  | some r => return (r, s, b)
  | none =>
    match n with
    | 0 => return (.ended .exhausted, s, b)
    | n + 1 =>
      if s.isTimedOut (← get).clock then return (.ended .exhausted, s, b)
      match ← s.select with
      | none => return (.ended .saturated, s, b)
      | some s => pursueFor listen n s b

/-- Goes on with the search as long as the limits allow. -/
def pursue {β γ : Type} (listen : β → Clause → SessionM (β × Option γ)) (s : Saturation) (b : β) :
    SessionM (Report γ × Saturation × β) := do
  s.pursueFor listen (s.remaining (← get).horizon) b

/-- Goes on until there is an answer clause to report or the search ends. -/
def next (s : Saturation) : SessionM (Report Clause × Saturation) := do
  let (report, s, _) ← s.pursue (fun (_ : Unit) c => return ((), some c)) ()
  return (report, s)

end Saturation

end Entailment
