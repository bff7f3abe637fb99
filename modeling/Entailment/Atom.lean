import Entailment.Term.Order

/-! Atoms and literals. An atom is a relation applied to terms or an equation;
`Atom.equation` fixes the order of the sides, so that both ways of writing an
equation give one atom. -/
namespace Entailment

inductive Atom where
  | rel (r : Symbol) (args : List Term)
  | eq (l r : Term)
deriving Inhabited, Repr

namespace Atom

/-- Relations before equations, then by symbol and terms from left to right. -/
def cmp : Atom → Atom → Ordering
  | .rel r as, .rel s bs => (compare r s).then (Term.cmpAll as bs)
  | .rel .., .eq .. => .lt
  | .eq .., .rel .. => .gt
  | .eq l r, .eq l' r' => (compare l l').then (compare r r')

instance : Ord Atom := ⟨cmp⟩

theorem compare_def (a b : Atom) : compare a b = cmp a b := rfl

instance : Std.TransOrd Atom where
  eq_swap := by
    intro a b
    cases a <;> cases b <;> simp only [compare_def, cmp, Ordering.swap_then, Ordering.swap_lt,
      Ordering.swap_gt]
    · rw [← Std.OrientedOrd.eq_swap, ← Term.cmpAll_swap]
    · rw [← Std.OrientedOrd.eq_swap, ← Std.OrientedOrd.eq_swap]
  isLE_trans := by
    intro a b c h h'
    cases a <;> cases b <;> cases c <;> simp only [compare_def, cmp] at h h' ⊢ <;> try simp at h h'
    · refine Term.isLE_then_trans (Term.lt_of_chain Std.LawfulEqOrd.eq_of_compare
        Std.OrientedOrd.eq_swap Std.TransCmp.isLE_trans) ?_ Std.TransCmp.isLE_trans h h'
      simp only [Std.compare_eq_iff_eq]
      exact Eq.trans
    · rfl
    · rfl
    · refine Term.isLE_then_trans (Term.lt_of_chain Std.LawfulEqOrd.eq_of_compare
        Std.OrientedOrd.eq_swap Std.TransCmp.isLE_trans) ?_ Std.TransCmp.isLE_trans h h'
      simp only [Std.compare_eq_iff_eq]
      exact Eq.trans

instance : Std.LawfulEqOrd Atom where
  compare_self := Std.ReflOrd.compare_self
  eq_of_compare := by
    intro a b h
    cases a <;> cases b <;> simp only [compare_def, cmp, Ordering.then_eq_eq,
      Std.compare_eq_iff_eq, reduceCtorEq] at h
    · rw [h.1, Term.eq_of_cmpAll h.2]
    · rw [h.1, h.2]

instance : DecidableEq Atom := fun a b =>
  decidable_of_iff (compare a b = .eq) Std.compare_eq_iff_eq

/-- The equation of two terms, the smaller side first. -/
def equation (l r : Term) : Atom :=
  if r < l then .eq r l else .eq l r

def isEq : Atom → Bool
  | .eq .. => true
  | .rel .. => false

/-- The relation that carries the bindings of a query through a refutation. -/
def answerName : String := "$answer"

def isAnswer (σ : Symbols) : Atom → Bool
  | .rel r _ => σ.name r == answerName
  | .eq .. => false

/-- The arguments of a relation or the two sides of an equation. -/
def terms : Atom → List Term
  | .rel _ args => args
  | .eq l r => [l, r]

def weight (a : Atom) : Nat := 1 + Term.weights a.terms

/-- The subterm at a path whose first index selects the argument or the side. -/
def at? (a : Atom) : List Nat → Option Term
  | [] => none
  | i :: path => a.terms[i]?.bind (·.at? path)

/-- The atom with a subterm replaced. Only a path into a term changes anything,
and a changed equation is put in order. -/
def replaceAt (a : Atom) (path : List Nat) (u : Term) : Atom :=
  match path, a with
  | [], a => a
  | i :: path, .rel r args => .rel r (args.modify i (·.replaceAt path u))
  | i :: path, .eq l r =>
    equation (if i = 0 then l.replaceAt path u else l) (if i = 1 then r.replaceAt path u else r)

/-- Paths of all subterms that are no variables. -/
def positions (a : Atom) : List (List Nat) := Term.positionsFrom 0 a.terms

def render (σ : Symbols) : Atom → String
  | .rel r [] => σ.name r
  | .rel r args => σ.name r ++ "(" ++ Term.renderArgs σ args ++ ")"
  | .eq l r => l.render σ ++ " = " ++ r.render σ

/-- Changes every term; an equation is put in order again. -/
def mapTerms (f : Term → Term) : Atom → Atom
  | .rel r args => .rel r (args.map f)
  | .eq l r => equation (f l) (f r)

end Atom

structure Literal where
  atom : Atom
  negated : Bool
deriving DecidableEq, Inhabited, Repr

namespace Literal

/-- By atom, and a positive literal before its negation. -/
instance : Ord Literal :=
  ⟨compareLex (compareOn Literal.atom) (compareOn Literal.negated)⟩

instance : Std.TransOrd Literal :=
  inferInstanceAs (Std.TransCmp (compareLex (compareOn Literal.atom) (compareOn Literal.negated)))

instance : Std.LawfulEqOrd Literal where
  compare_self := Std.ReflOrd.compare_self
  eq_of_compare := by
    rintro ⟨a, n⟩ ⟨b, m⟩ h
    simp only [compare, compareLex, compareOn, Ordering.then_eq_eq] at h
    rw [Std.LawfulEqOrd.eq_of_compare (α := Atom) h.1, Std.LawfulEqOrd.eq_of_compare (α := Bool) h.2]

/-- The opposite literal. -/
def not (l : Literal) : Literal := ⟨l.atom, !l.negated⟩

def isAnswer (σ : Symbols) (l : Literal) : Bool := l.atom.isAnswer σ

def weight (l : Literal) : Nat := l.atom.weight

def terms (l : Literal) : List Term := l.atom.terms

def mapTerms (f : Term → Term) (l : Literal) : Literal := ⟨l.atom.mapTerms f, l.negated⟩

def render (σ : Symbols) : Literal → String
  | ⟨.eq l r, true⟩ => l.render σ ++ " != " ++ r.render σ
  | ⟨a, negated⟩ => (if negated then "!" else "") ++ a.render σ

end Literal

end Entailment
