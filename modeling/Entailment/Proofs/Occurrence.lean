import Entailment.Formula.Token
import Entailment.Proofs.Scope

/-! What the names of a formula are used for. A well-formed formula uses a name as a
variable exactly inside the scope of a quantifier for it, and every relation and function
with one arity; so it is closed. -/
namespace Entailment

/-- What a name stands for at one place. -/
inductive Role where
  | binder
  | variable
  | constant
  | function (arity : Nat)
  | relation (arity : Nat)
deriving DecidableEq

/-- A name at one place, below the binders `scope`. -/
structure Occurrence where
  symbol : Symbol
  role : Role
  scope : List Symbol
deriving DecidableEq

/-- Identifiers are non-empty words of ASCII letters, digits and underscores. -/
def Token.IsName (name : String) : Prop := name ≠ "" ∧ ∀ c ∈ name.toList, isIdentChar c = true

namespace Term

mutual

def occurrences (scope : List Symbol) : Term → List Occurrence
  | .var x => [⟨x, .variable, scope⟩]
  | .const c => [⟨c, .constant, scope⟩]
  | .app f args => ⟨f, .function args.length, scope⟩ :: occurrencesAll scope args

def occurrencesAll (scope : List Symbol) : List Term → List Occurrence
  | [] => []
  | t :: ts => t.occurrences scope ++ occurrencesAll scope ts

end

theorem mem_occurrencesAll {scope : List Symbol} {ts : List Term} {o : Occurrence} :
    o ∈ occurrencesAll scope ts ↔ ∃ t ∈ ts, o ∈ t.occurrences scope := by
  induction ts with
  | nil => simp [occurrencesAll]
  | cons t ts ih => simp [occurrencesAll, ih]

@[simp] theorem mem_occurrences_app {scope : List Symbol} {f : Symbol} {args : List Term}
    {o : Occurrence} : o ∈ (app f args).occurrences scope ↔
      o = ⟨f, .function args.length, scope⟩ ∨ ∃ t ∈ args, o ∈ t.occurrences scope := by
  rw [occurrences, List.mem_cons, mem_occurrencesAll]

theorem mem_symbols_iff {scope : List Symbol} {t : Term} {a : Symbol} :
    a ∈ t.symbols ↔ ∃ o ∈ t.occurrences scope, o.symbol = a := by
  induction t using rec_args with
  | var x => simp [occurrences, eq_comm]
  | const c => simp [occurrences, eq_comm]
  | app f args ih =>
    simp only [mem_symbols_app, mem_occurrences_app]
    constructor
    · rintro (rfl | ⟨t, ht, ha⟩)
      · exact ⟨_, .inl rfl, rfl⟩
      · obtain ⟨o, ho, hoa⟩ := (ih t ht).mp ha
        exact ⟨o, .inr ⟨t, ht, ho⟩, hoa⟩
    · rintro ⟨o, rfl | ⟨t, ht, ho⟩, rfl⟩
      · exact .inl rfl
      · exact .inr ⟨t, ht, (ih t ht).mpr ⟨o, ho, rfl⟩⟩

theorem mem_occurrences_of_hasVar {scope : List Symbol} {t : Term} {x : Symbol}
    (h : t.hasVar x = true) : ⟨x, .variable, scope⟩ ∈ t.occurrences scope := by
  induction t using rec_args with
  | var y => simpa [occurrences] using h
  | const c => simp at h
  | app f args ih =>
    obtain ⟨t, ht, hx⟩ := (hasVar_app x f args).mp h
    exact mem_occurrences_app.mpr (.inr ⟨t, ht, ih t ht hx⟩)

end Term

namespace Formula

def occurrences (scope : List Symbol) : Formula → List Occurrence
  | .rel r args => ⟨r, .relation args.length, scope⟩ :: Term.occurrencesAll scope args
  | .eq l r => l.occurrences scope ++ r.occurrences scope
  | .not f => f.occurrences scope
  | .and f g | .or f g | .imp f g | .iff f g => f.occurrences scope ++ g.occurrences scope
  | .all x f | .ex x f => ⟨x, .binder, scope⟩ :: f.occurrences (x :: scope)

theorem mem_symbols_iff {scope : List Symbol} {f : Formula} {a : Symbol} :
    a ∈ f.symbols ↔ ∃ o ∈ f.occurrences scope, o.symbol = a := by
  induction f generalizing scope with
  | rel r args =>
    simp only [symbols, occurrences, List.mem_cons, Term.mem_symbolsAll, Term.mem_occurrencesAll,
      @Term.mem_symbols_iff scope]
    grind
  | eq l r =>
    simp only [symbols, occurrences, List.mem_append, @Term.mem_symbols_iff scope]
    grind
  | not f ih => exact ih
  | and f g ihf ihg | or f g ihf ihg | imp f g ihf ihg | iff f g ihf ihg =>
    simp only [symbols, occurrences, List.mem_append, @ihf scope, @ihg scope]
    grind
  | all x f ih | ex x f ih =>
    simp only [symbols, occurrences, List.mem_cons, @ih (x :: scope)]
    grind

/-- The formula uses the name in the role. -/
def Uses (f : Formula) (a : Symbol) (role : Role) : Prop :=
  ∃ o ∈ f.occurrences [], o.symbol = a ∧ o.role = role

/-- The names are identifiers of the table, a name that is not being bound is a variable
exactly below a quantifier for it, functions have arguments, and the uses of a name as a
relation, a function or a constant do not contradict each other. -/
structure WellFormed (σ : Symbols) (f : Formula) : Prop where
  known : ∀ a ∈ f.symbols, σ.Knows a
  names : ∀ a ∈ f.symbols, Token.IsName (σ.name a)
  bound : ∀ o ∈ f.occurrences [], o.role ≠ .binder → (o.role = .variable ↔ o.symbol ∈ o.scope)
  applied : ∀ a, ¬ f.Uses a (.function 0)
  relations : ∀ a m n, f.Uses a (.relation m) → f.Uses a (.relation n) → m = n
  functions : ∀ a m n, f.Uses a (.function m) → f.Uses a (.function n) → m = n
  constants : ∀ a n, f.Uses a (.function n) → ¬ f.Uses a .constant

/-- Every variable stands below a quantifier for it or is in the scope around the formula. -/
def Covered (scope : List Symbol) (f : Formula) : Prop :=
  ∀ o ∈ f.occurrences scope, o.role = .variable → o.symbol ∈ o.scope

section Closed

variable {σ : Symbols} {scope : List Symbol} {f : Formula} {x : Symbol}

theorem WellFormed.covered_nil (h : f.WellFormed σ) : f.Covered [] := by
  intro o ho hrole
  exact (h.bound o ho (by rw [hrole]; decide)).mp hrole

theorem Covered.mem_of_free (h : f.Covered scope) (hx : f.Free x) : x ∈ scope := by
  induction f generalizing scope with
  | rel r args =>
    obtain ⟨t, ht, hxt⟩ := hx
    have hmem : ⟨x, .variable, scope⟩ ∈ Term.occurrencesAll scope args :=
      Term.mem_occurrencesAll.mpr ⟨t, ht, Term.mem_occurrences_of_hasVar hxt⟩
    exact (List.forall_mem_cons.mp h).2 _ hmem rfl
  | eq l r =>
    obtain ⟨hl, hr⟩ := List.forall_mem_append.mp h
    exact hx.elim (fun hx => hl _ (Term.mem_occurrences_of_hasVar hx) rfl)
      fun hx => hr _ (Term.mem_occurrences_of_hasVar hx) rfl
  | not f ih => exact ih h hx
  | and f g ihf ihg | or f g ihf ihg | imp f g ihf ihg | iff f g ihf ihg =>
    obtain ⟨hf, hg⟩ := List.forall_mem_append.mp h
    exact hx.elim (ihf hf) (ihg hg)
  | all y f ih | ex y f ih =>
    exact (List.mem_cons.mp (ih (List.forall_mem_cons.mp h).2 hx.2)).resolve_left hx.1

theorem WellFormed.freeVars (h : f.WellFormed σ) : f.freeVars = [] := by
  refine List.eq_nil_iff_forall_not_mem.mpr fun x hx => ?_
  exact List.not_mem_nil (h.covered_nil.mem_of_free (mem_freeVars.mp hx))

/-- The scope check of a well-formed formula objects to nothing but a second binder. -/
theorem WellFormed.validate (h : f.WellFormed σ) (x : Symbol) : f.validate ≠ .error (.free x) := by
  intro hfree
  have hexplains := f.explains_validate
  rw [hfree] at hexplains
  exact hexplains.2 (h.covered_nil.mem_of_free hexplains.1)

end Closed

end Formula

end Entailment
