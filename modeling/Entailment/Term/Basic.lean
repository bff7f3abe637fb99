import Entailment.Symbol

/-! Terms over interned names: variables, constants and applications. An
application may have no arguments and then differs from the constant. -/
namespace Entailment

inductive Term where
  | var (x : Symbol)
  | const (c : Symbol)
  | app (f : Symbol) (args : List Term)
deriving Inhabited, Repr

namespace Term

/-- Induction with the hypothesis for every argument of an application. -/
theorem rec_args {P : Term → Prop} (var : ∀ x, P (.var x)) (const : ∀ c, P (.const c))
    (app : ∀ f args, (∀ t ∈ args, P t) → P (.app f args)) : ∀ t, P t :=
  @Term.rec P (fun ts => ∀ t ∈ ts, P t) var const app
    (by simp) (fun t ts ht hts => by simpa using ⟨ht, hts⟩)

def isVar : Term → Bool
  | .var _ => true
  | _ => false

def isConst : Term → Bool
  | .const _ => true
  | _ => false

def isApp : Term → Bool
  | .app .. => true
  | _ => false

mutual

def isGround : Term → Bool
  | .var _ => false
  | .const _ => true
  | .app _ args => areGround args

def areGround : List Term → Bool
  | [] => true
  | t :: ts => t.isGround && areGround ts

end

mutual

/-- Whether the variable occurs in the term. -/
def hasVar (x : Symbol) : Term → Bool
  | .var y => x == y
  | .const _ => false
  | .app _ args => anyHasVar x args

def anyHasVar (x : Symbol) : List Term → Bool
  | [] => false
  | t :: ts => t.hasVar x || anyHasVar x ts

end

mutual

/-- Number of symbol occurrences. -/
def weight : Term → Nat
  | .var _ => 1
  | .const _ => 1
  | .app _ args => 1 + weights args

def weights : List Term → Nat
  | [] => 0
  | t :: ts => t.weight + weights ts

end

mutual

/-- Adds the variables of the term that are not yet in the list at its end. -/
def addVars (found : List Symbol) : Term → List Symbol
  | .var x => if found.contains x then found else found ++ [x]
  | .const _ => found
  | .app _ args => addVarsAll found args

def addVarsAll (found : List Symbol) : List Term → List Symbol
  | [] => found
  | t :: ts => addVarsAll (t.addVars found) ts

end

/-- The variables of several terms in order of first occurrence. -/
def varsOf (ts : List Term) : List Symbol := addVarsAll [] ts

mutual

/-- Puts a term in the place of every variable, all at once. -/
def subst (θ : Symbol → Term) : Term → Term
  | .var x => θ x
  | .const c => .const c
  | .app f args => .app f (substAll θ args)

def substAll (θ : Symbol → Term) : List Term → List Term
  | [] => []
  | t :: ts => t.subst θ :: substAll θ ts

end

/-- Renames every variable. -/
def rename (ρ : Symbol → Symbol) (t : Term) : Term := t.subst fun x => .var (ρ x)

/-- The subterm reached by following argument indices. -/
def at? : Term → List Nat → Option Term
  | t, [] => some t
  | .app _ args, i :: path => args[i]?.bind (·.at? path)
  | _, _ :: _ => none

/-- The term with the subterm at the path replaced; a path that leads nowhere
changes nothing. -/
def replaceAt : Term → List Nat → Term → Term
  | _, [], u => u
  | .app f args, i :: path, u => .app f (args.modify i (·.replaceAt path u))
  | t, _ :: _, _ => t

mutual

/-- Paths of all subterms that are no variables, outermost first. -/
def positions : Term → List (List Nat)
  | .var _ => []
  | .const _ => [[]]
  | .app _ args => [] :: positionsFrom 0 args

/-- Paths into a list of terms whose first index counts from `i`. -/
def positionsFrom (i : Nat) : List Term → List (List Nat)
  | [] => []
  | t :: ts => t.positions.map (i :: ·) ++ positionsFrom (i + 1) ts

end

mutual

def render (σ : Symbols) : Term → String
  | .var x => σ.name x
  | .const c => σ.name c
  | .app f args => σ.name f ++ "(" ++ renderArgs σ args ++ ")"

def renderArgs (σ : Symbols) : List Term → String
  | [] => ""
  | [t] => t.render σ
  | t :: u :: ts => t.render σ ++ ", " ++ renderArgs σ (u :: ts)

end

theorem areGround_eq (ts : List Term) : areGround ts = ts.all isGround := by
  induction ts with
  | nil => rfl
  | cons t ts ih => simp [areGround, ih]

theorem anyHasVar_eq (x : Symbol) (ts : List Term) : anyHasVar x ts = ts.any (hasVar x) := by
  induction ts with
  | nil => rfl
  | cons t ts ih => simp [anyHasVar, ih]

theorem weights_eq (ts : List Term) : weights ts = ts.foldr (fun t n => t.weight + n) 0 := by
  induction ts with
  | nil => rfl
  | cons t ts ih => simp [weights, ih]

theorem addVarsAll_eq (found : List Symbol) (ts : List Term) :
    addVarsAll found ts = ts.foldl addVars found := by
  induction ts generalizing found with
  | nil => rfl
  | cons t ts ih => simp [addVarsAll, ih]

@[simp] theorem substAll_eq (θ : Symbol → Term) (ts : List Term) :
    substAll θ ts = ts.map (subst θ) := by
  induction ts with
  | nil => rfl
  | cons t ts ih => simp [substAll, ih]

@[simp] theorem subst_var (θ : Symbol → Term) (x : Symbol) : (var x).subst θ = θ x := rfl

@[simp] theorem subst_const (θ : Symbol → Term) (c : Symbol) : (const c).subst θ = .const c := rfl

@[simp] theorem subst_app (θ : Symbol → Term) (f : Symbol) (args : List Term) :
    (app f args).subst θ = .app f (args.map (subst θ)) := by
  rw [subst, substAll_eq]

end Term

end Entailment
