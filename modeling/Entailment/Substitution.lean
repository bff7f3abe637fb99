import Entailment.Atom
import Entailment.Sorting

/-! Finite maps from variables to terms. Bindings are listed by variable, so
two maps with the same bindings are equal. -/
namespace Entailment

/-- Sets a binding in a list ordered by variable. -/
def insertBinding (x : Symbol) (t : Term) : List (Symbol × Term) → List (Symbol × Term)
  | [] => [(x, t)]
  | (y, u) :: rest =>
    if x < y then (x, t) :: (y, u) :: rest
    else if x = y then (x, t) :: rest
    else (y, u) :: insertBinding x t rest

theorem mem_insertBinding {x : Symbol} {t : Term} {p : Symbol × Term} {l : List (Symbol × Term)}
    (h : p ∈ insertBinding x t l) : p = (x, t) ∨ p ∈ l := by
  induction l with
  | nil => simpa [insertBinding] using h
  | cons q rest ih =>
    simp only [insertBinding] at h
    split at h
    · simpa using h
    · split at h
      · simp only [List.mem_cons] at h
        exact h.imp id (List.mem_cons_of_mem q)
      · simp only [List.mem_cons] at h ⊢
        rcases h with h | h
        · exact .inr (.inl h)
        · exact (ih h).imp id .inr

theorem sorted_insertBinding (x : Symbol) (t : Term) {l : List (Symbol × Term)}
    (h : l.Pairwise fun a b => a.1 < b.1) :
    (insertBinding x t l).Pairwise fun a b => a.1 < b.1 := by
  induction l with
  | nil => simp [insertBinding]
  | cons q rest ih =>
    obtain ⟨y, u⟩ := q
    rw [List.pairwise_cons] at h
    simp only [insertBinding]
    split
    · next hlt =>
      refine List.pairwise_cons.mpr ⟨?_, List.pairwise_cons.mpr h⟩
      intro p hp
      rcases List.mem_cons.mp hp with rfl | hp
      · exact hlt
      · exact Nat.lt_trans hlt (h.1 p hp)
    · split
      · next heq => exact List.pairwise_cons.mpr ⟨by simpa [heq] using h.1, h.2⟩
      · next hlt hne =>
        refine List.pairwise_cons.mpr ⟨?_, ih h.2⟩
        intro p hp
        rcases mem_insertBinding hp with rfl | hp
        · have : x.id ≠ y.id := fun he => hne (by cases x; cases y; simp_all)
          simp only [Symbol.lt_def] at hlt ⊢
          omega
        · exact h.1 p hp

structure Substitution where
  bindings : List (Symbol × Term)
  sorted : bindings.Pairwise fun a b => a.1 < b.1
deriving DecidableEq

namespace Substitution

def empty : Substitution := ⟨[], .nil⟩

instance : Inhabited Substitution := ⟨empty⟩

def size (s : Substitution) : Nat := s.bindings.length

def get? (s : Substitution) (x : Symbol) : Option Term := s.bindings.lookup x

def contains (s : Substitution) (x : Symbol) : Bool := (s.get? x).isSome

/-- Sets one binding and leaves the others as they are. -/
def insert (s : Substitution) (x : Symbol) (t : Term) : Substitution :=
  ⟨insertBinding x t s.bindings, sorted_insertBinding x t s.sorted⟩

/-- Changes every bound term. -/
def mapTerms (f : Term → Term) (s : Substitution) : Substitution :=
  ⟨s.bindings.map fun (x, t) => (x, f t), by
    rw [List.pairwise_map]
    exact s.sorted⟩

/-- The term a variable stands for: the bound one, or the variable itself. -/
def apply (s : Substitution) (x : Symbol) : Term := (s.get? x).getD (.var x)

end Substitution

namespace Term

/-- Replaces every bound variable once. -/
def instantiate (s : Substitution) (t : Term) : Term := t.subst s.apply

end Term

namespace Literal

def instantiate (s : Substitution) (l : Literal) : Literal := l.mapTerms (Term.instantiate s)

end Literal

namespace Substitution

/-- Binds `x` to `t` and applies the new binding to the terms bound before. A
variable is not bound to itself. -/
def bind (s : Substitution) (x : Symbol) (t : Term) : Substitution :=
  if t = .var x then s
  else
    let only := empty.insert x t
    (s.mapTerms fun u => if u.hasVar x then u.instantiate only else u).insert x t

/-- Binds one pair after the other. -/
def ofList (pairs : List (Symbol × Term)) : Substitution :=
  pairs.foldl (fun s p => s.bind p.1 p.2) empty

/-- Instantiates until nothing changes. -/
def settle (s : Substitution) : Nat → Term → Term
  | 0, t => t
  | rounds + 1, t =>
    let u := t.instantiate s
    if u = t then t else s.settle rounds u

/-- Follows all chains of bindings. Without a cycle no chain is longer than the
number of bindings, which bounds the rounds. -/
def resolve (s : Substitution) (t : Term) : Term := s.settle (s.size + 1) (t.instantiate s)

/-- The bindings of `xs`, with their terms resolved. -/
def restrict (s : Substitution) (xs : List Symbol) : Substitution :=
  xs.foldl (fun r x => match s.get? x with
    | some t => r.insert x (s.resolve t)
    | none => r) empty

/-- Bindings by the names of the variables. -/
def byName (σ : Symbols) (s : Substitution) : List (Symbol × Term) :=
  sortBy (fun a b => σ.name a.1 < σ.name b.1) s.bindings

def renderBinding (σ : Symbols) (b : Symbol × Term) : String :=
  σ.name b.1 ++ " = " ++ b.2.render σ

def render (σ : Symbols) (s : Substitution) : String :=
  "\x7b" ++ ", ".intercalate ((s.byName σ).map (renderBinding σ)) ++ "\x7d"

end Substitution

end Entailment
