import Entailment.Matching

/-! Clauses: disjunctions of literals, kept as increasing lists so that equal
sets of literals are equal clauses. -/
namespace Entailment

/-- Puts a literal in its place in an increasing list, once. -/
def insertLiteral (l : Literal) : List Literal → List Literal
  | [] => [l]
  | k :: ks =>
    match compare l k with
    | .lt => l :: k :: ks
    | .eq => k :: ks
    | .gt => k :: insertLiteral l ks

structure Clause where
  literals : List Literal
deriving DecidableEq, Inhabited, Repr

namespace Clause

/-- The clause of a list of literals: sorted and without repetition. -/
def ofList (ls : List Literal) : Clause := ⟨ls.foldr insertLiteral []⟩

def empty : Clause := ⟨[]⟩

def isEmpty (c : Clause) : Bool := c.literals.isEmpty

def size (c : Clause) : Nat := c.literals.length

def isPositive (c : Clause) : Bool := c.literals.all (!·.negated)

def weight (c : Clause) : Nat := c.literals.foldr (fun l n => l.weight + n) 0

/-- Changes every term and sorts again. -/
def mapTerms (f : Term → Term) (c : Clause) : Clause := ofList (c.literals.map (·.mapTerms f))

def instantiate (s : Substitution) (c : Clause) : Clause := c.mapTerms (Term.instantiate s)

def rename (ρ : Symbol → Symbol) (c : Clause) : Clause := c.mapTerms (Term.rename ρ)

/-- All literals but the one at the index. -/
def without (c : Clause) (i : Nat) : List Literal := c.literals.eraseIdx i

/-- The variables in order of first occurrence. -/
def vars (c : Clause) : List Symbol := Term.varsOf (c.literals.flatMap Literal.terms)

/-- Whether two neighbours have one atom and opposite signs. -/
def hasComplement : List Literal → Bool
  | l :: k :: ls => (l.atom == k.atom && l.negated != k.negated) || hasComplement (k :: ls)
  | _ => false

/-- Whether the literal is an equation `t = t`. -/
def isReflexive : Literal → Bool
  | ⟨.eq l r, false⟩ => l == r
  | _ => false

/-- Whether the clause holds a literal and its negation, or an equation `t = t`. -/
def isTautology (c : Clause) : Bool := hasComplement c.literals || c.literals.any isReflexive

/-- Whether the clause only records an answer to a query. -/
def isAnswer (σ : Symbols) (c : Clause) : Bool :=
  !c.isEmpty && c.literals.all (·.isAnswer σ)

/-- Whether bindings that extend `b` send every literal into the target. -/
def embeds (target : List Literal) : List Literal → Substitution → Bool
  | [], _ => true
  | l :: ls, b => target.any fun k =>
    k.negated == l.negated &&
      match l.atom.matchAtom k.atom b with
      | some b => embeds target ls b
      | none => false

/-- Whether some instance of the clause is part of the other one. A clause with
more literals subsumes no other. -/
def subsumes (c d : Clause) : Bool :=
  c.size ≤ d.size && embeds d.literals c.literals .empty

def render (σ : Symbols) (c : Clause) : String :=
  "\x7b" ++ ", ".intercalate (c.literals.map (Literal.render σ)) ++ "\x7d"

/-- By the literals from left to right, a shorter clause first. -/
def cmpLiterals : List Literal → List Literal → Ordering
  | [], [] => .eq
  | [], _ :: _ => .lt
  | _ :: _, [] => .gt
  | l :: ls, k :: ks => (compare l k).then (cmpLiterals ls ks)

theorem cmpLiterals_self (ls : List Literal) : cmpLiterals ls ls = .eq := by
  induction ls with
  | nil => rfl
  | cons l ls ih => simp [cmpLiterals, ih]

theorem eq_of_cmpLiterals {ls ks : List Literal} (h : cmpLiterals ls ks = .eq) : ls = ks := by
  induction ls generalizing ks with
  | nil => cases ks with
    | nil => rfl
    | cons => simp [cmpLiterals] at h
  | cons l ls ih => cases ks with
    | nil => simp [cmpLiterals] at h
    | cons k ks =>
      simp only [cmpLiterals, Ordering.then_eq_eq, Std.compare_eq_iff_eq] at h
      rw [h.1, ih h.2]

theorem cmpLiterals_swap (ls ks : List Literal) :
    cmpLiterals ls ks = (cmpLiterals ks ls).swap := by
  induction ls generalizing ks with
  | nil => cases ks <;> rfl
  | cons l ls ih => cases ks with
    | nil => rfl
    | cons k ks =>
      simp only [cmpLiterals, Ordering.swap_then, ← ih]
      rw [← Std.OrientedOrd.eq_swap]

theorem cmpLiterals_trans {ls ks ms : List Literal} (h : (cmpLiterals ls ks).isLE)
    (h' : (cmpLiterals ks ms).isLE) : (cmpLiterals ls ms).isLE := by
  induction ls generalizing ks ms with
  | nil => cases ms <;> rfl
  | cons l ls ih => cases ks with
    | nil => simp [cmpLiterals] at h
    | cons k ks => cases ms with
      | nil => simp [cmpLiterals] at h'
      | cons m ms =>
        simp only [cmpLiterals] at h h' ⊢
        refine Term.isLE_then_trans (Term.lt_of_chain Std.LawfulEqOrd.eq_of_compare
          Std.OrientedOrd.eq_swap Std.TransCmp.isLE_trans) ?_ ih h h'
        simp only [Std.compare_eq_iff_eq]
        exact Eq.trans

instance : Ord Clause := ⟨fun c d => cmpLiterals c.literals d.literals⟩

theorem compare_def (c d : Clause) : compare c d = cmpLiterals c.literals d.literals := rfl

instance : Std.TransOrd Clause where
  eq_swap := cmpLiterals_swap _ _
  isLE_trans := cmpLiterals_trans

instance : Std.LawfulEqOrd Clause where
  compare_self := cmpLiterals_self _
  eq_of_compare := by
    rintro ⟨ls⟩ ⟨ks⟩ h
    exact congrArg Clause.mk (eq_of_cmpLiterals h)

end Clause

/-- Clauses in a fixed order, meant as their conjunction. -/
structure ClauseSet where
  clauses : List Clause
deriving DecidableEq, Inhabited, Repr

namespace ClauseSet

def size (cs : ClauseSet) : Nat := cs.clauses.length

def isEmpty (cs : ClauseSet) : Bool := cs.clauses.isEmpty

def hasEmpty (cs : ClauseSet) : Bool := cs.clauses.any Clause.isEmpty

def render (σ : Symbols) (cs : ClauseSet) : String :=
  ", ".intercalate (cs.clauses.map (Clause.render σ))

end ClauseSet

end Entailment
