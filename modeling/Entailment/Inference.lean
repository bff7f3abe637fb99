import Entailment.Clause.Basic
import Entailment.Unification

/-! Inference rules on clauses: resolution, factoring, equality resolution and
paramodulation. Premises of the rules for two clauses are meant to share no
variables. Literals that record answers are only carried along. -/
namespace Entailment

/-- Unifiers of two atoms, an equation also with its sides exchanged. -/
def Atom.unifiers (a b : Atom) : List Substitution :=
  let straight := match a.unify b .empty with
    | .ok s => [s]
    | .error _ => []
  match b with
  | .rel .. => straight
  | .eq l r =>
    match a.unify (.eq r l) .empty with
    | .ok s => if straight.contains s then straight else straight ++ [s]
    | .error _ => straight

namespace Clause

/-- The clause of instances of the literals. -/
def combine (ls : List Literal) (s : Substitution) : Clause :=
  ofList (ls.map (·.instantiate s))

/-- Resolution on every pair of literals with opposite signs and unifiable atoms. -/
def resolvents (σ : Symbols) (c d : Clause) : List Clause :=
  c.literals.zipIdx.flatMap fun (l, i) =>
    if l.isAnswer σ then [] else
    d.literals.zipIdx.flatMap fun (k, j) =>
      if k.isAnswer σ || l.negated == k.negated then []
      else (l.atom.unifiers k.atom).map (combine (c.without i ++ d.without j))

/-- Unifiers of two literals of one sign, for each literal with the later ones. -/
def mergers (σ : Symbols) : List Literal → List Substitution
  | [] => []
  | l :: ls =>
    (if l.isAnswer σ then [] else
      ls.flatMap fun k =>
        if k.isAnswer σ || l.negated != k.negated then [] else l.atom.unifiers k.atom) ++
    mergers σ ls

/-- Instances in which two literals of one sign become one. -/
def factors (σ : Symbols) (c : Clause) : List Clause :=
  (mergers σ c.literals).map c.instantiate

/-- Instances without a literal `s != t` whose sides become equal. -/
def equalityResolvents (c : Clause) : List Clause :=
  c.literals.zipIdx.flatMap fun (l, i) =>
    match l with
    | ⟨.eq s t, true⟩ =>
      match s.unify t .empty with
      | .ok u => [combine (c.without i) u]
      | .error _ => []
    | _ => []

/-- Replaces the subterms of `l` that unify with `s` by `t`, one at a time. The
new literal stands after the literals `others`. -/
def replacements (s t : Term) (l : Literal) (others : List Literal) : List Clause :=
  l.atom.positions.filterMap fun path =>
    match l.atom.at? path with
    | none => none
    | some u =>
      match s.unify u .empty with
      | .ok θ => some (combine (others ++ [⟨l.atom.replaceAt path t, l.negated⟩]) θ)
      | .error _ => none

/-- Replaces subterms of `d` that are no variables by way of the positive equations of
`c`, in both directions: `s = t ∨ C` and `L[u] ∨ D` give the instance of
`L[t] ∨ C ∨ D` that makes `s` and `u` equal. -/
def paramodulants (σ : Symbols) (c d : Clause) : List Clause :=
  c.literals.zipIdx.flatMap fun (e, i) =>
    match e with
    | ⟨.eq l r, false⟩ =>
      [(l, r), (r, l)].flatMap fun (s, t) =>
        d.literals.zipIdx.flatMap fun (k, j) =>
          if k.isAnswer σ then [] else replacements s t k (c.without i ++ d.without j)
    | _ => []

end Clause

end Entailment
