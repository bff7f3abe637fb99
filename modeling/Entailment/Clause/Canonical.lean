import Entailment.Clause.Basic

/-! Canonical clauses: one representative for all clauses that differ only in
the names of their variables. -/
namespace Entailment.Clause

/-- The literal with all its variables made one. -/
def erase (v : Symbol) (l : Literal) : Literal := l.mapTerms (Term.subst fun _ => .var v)

/-- The literals by their shape, where all variables count as one. A single
literal needs no order, and then the name of the common variable is not used. -/
def byShape : List Literal → Naming (List Literal)
  | l :: k :: ls => do
    let v ← Symbols.intern "$v"
    let keyed := (l :: k :: ls).map fun l => (erase v l, l)
    return (sortBy (fun a b => (compare a.1 b.1).isLT) keyed).map (·.2)
  | ls => return ls

/-- The clause with its variables renamed to `$v1`, `$v2`, ... in order of first
occurrence, literals of smaller shape first. -/
def canonical (c : Clause) : Naming Clause := do
  let ls ← byShape c.literals
  let xs := Term.varsOf (ls.flatMap Literal.terms)
  let ys ← Symbols.internAll ((List.range' 1 xs.length).map fun n => "$v" ++ toString n)
  let names := xs.zip ys
  return ofList (ls.map (·.mapTerms (Term.rename fun x => (names.lookup x).getD x)))

end Entailment.Clause
