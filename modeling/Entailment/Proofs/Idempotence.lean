import Entailment.Proofs.Unification.MostGeneral

/-! Substitutions that stay fully applied. A new binding is applied to the terms bound
before, while its own term is taken as it is. So a substitution stays settled exactly
as long as no term is bound that has a bound variable in it, or the variable that it
is bound to. Unification and restriction take care of that themselves. -/
namespace Entailment

namespace Substitution

variable {s : Substitution} {x : Symbol} {t : Term} {pairs : List (Symbol × Term)}

/-- The term can be bound to the variable as it is. That of a variable to itself is
no binding. -/
def Admits (s : Substitution) (x : Symbol) (t : Term) : Prop :=
  t = .var x ∨ ∀ y, t.hasVar y = true → y ≠ x ∧ s.get? y = none

theorem settled_bind_iff (hs : s.Settled) : (s.bind x t).Settled ↔ s.Admits x t := by
  constructor
  · intro h
    refine or_iff_not_imp_left.mpr fun hne y hy => ?_
    have hfree := h x t (by rw [get?_bind hne, if_pos rfl]) y hy
    rw [get?_bind hne] at hfree
    split at hfree
    · cases hfree
    · exact ⟨‹_›, Option.map_eq_none_iff.mp hfree⟩
  · rintro (rfl | h)
    · rwa [bind, if_pos rfl]
    · refine settled_bind hs (fun y hy => (h y hy).2) (Bool.eq_false_of_not_eq_true fun hx => ?_)
      exact (h x hx).1 rfl

/-- Every pair is admitted by the substitution of those before it. -/
theorem settled_ofList
    (h : ∀ before x t after, pairs = before ++ (x, t) :: after → (ofList before).Admits x t) :
    (ofList pairs).Settled := by
  induction pairs using List.reverseRecOn with
  | nil => exact settled_empty
  | append_singleton before p ih =>
    have hbefore : (ofList before).Settled := ih fun l x t r heq =>
      h l x t (r ++ [p]) (by rw [heq, List.append_assoc, List.cons_append])
    unfold ofList at hbefore ⊢
    rw [List.foldl_append]
    exact (settled_bind_iff hbefore).mpr (h before p.1 p.2 [] rfl)

theorem restrict_append_singleton (s : Substitution) (xs : List Symbol) (x : Symbol) :
    s.restrict (xs ++ [x]) = match s.get? x with
      | some t => (s.restrict xs).insert x (s.resolve t)
      | none => s.restrict xs := by
  unfold restrict
  exact List.foldl_append

/-- Bound terms of a settled substitution are resolved already. -/
theorem get?_restrict (hs : s.Settled) (xs : List Symbol) (y : Symbol) :
    (s.restrict xs).get? y = if y ∈ xs then s.get? y else none := by
  induction xs using List.reverseRecOn with
  | nil => rfl
  | append_singleton xs x ih =>
    rw [restrict_append_singleton]
    cases hx : s.get? x with
    | none =>
      by_cases hy : y = x
      · subst hy
        simp [ih, hx]
      · simp [ih, hy]
    | some t =>
      have hresolved : s.resolve t = t := (hs.resolve_eq t).trans (hs.instantiate_bound hx)
      by_cases hy : y = x
      · simp [get?_insert, hresolved, hy, hx]
      · simp [get?_insert, ih, hy]

theorem Settled.restrict (hs : s.Settled) (xs : List Symbol) : (s.restrict xs).Settled := by
  intro x t hx y hy
  rw [get?_restrict hs] at hx ⊢
  split at hx
  · rw [hs x t hx y hy]
    exact ite_self none
  · cases hx

/-- What is made of the empty substitution when every binding that is asked for is
allowed by then. A single binding is one of the empty substitution. -/
inductive Reachable (allowed : Substitution → Symbol → Term → Prop) : Substitution → Prop
  | empty : Reachable allowed .empty
  | bind {s : Substitution} {x : Symbol} {t : Term} :
      Reachable allowed s → allowed s x t → Reachable allowed (s.bind x t)
  | ofList {pairs : List (Symbol × Term)} :
      (∀ before x t after, pairs = before ++ (x, t) :: after → allowed (.ofList before) x t) →
      Reachable allowed (.ofList pairs)
  | restrict {s : Substitution} (xs : List Symbol) :
      Reachable allowed s → Reachable allowed (s.restrict xs)
  | unify {s r : Substitution} {t u : Term} :
      Reachable allowed s → t.unify u s = .ok r → Reachable allowed r
  | unifyAtoms {s r : Substitution} {a b : Atom} :
      Reachable allowed s → a.unify b s = .ok r → Reachable allowed r

/-- Bindings that are all admitted leave a settled substitution, also when they are given
as a list. -/
theorem Reachable.settled {allowed : Substitution → Symbol → Term → Prop}
    (hallowed : ∀ s x t, Reachable allowed s → allowed s x t → s.Admits x t)
    (h : Reachable allowed s) : s.Settled := by
  induction h with
  | empty => exact settled_empty
  | bind hs hbind ih => exact (settled_bind_iff ih).mpr (hallowed _ _ _ hs hbind)
  | ofList hpairs =>
    refine settled_ofList fun before x t after heq => ?_
    have hbefore : Reachable allowed (.ofList before) := .ofList fun l y u r hl =>
      hpairs l y u (r ++ (x, t) :: after) (by rw [heq, hl, List.append_assoc, List.cons_append])
    exact hallowed _ _ _ hbefore (hpairs before x t after heq)
  | restrict xs _ ih => exact ih.restrict xs
  | @unify s r t u _ hunify ih =>
    have hexact := t.unify_exact ih u
    rw [hunify] at hexact
    exact hexact.1
  | @unifyAtoms s r a b _ hunify ih =>
    have hexact := a.unify_exact ih b
    rw [hunify] at hexact
    exact hexact.1

/-- No variable is bound to itself and no bound variable occurs in a bound term, so that
one round of instantiation resolves every term. -/
structure FullyApplied (s : Substitution) : Prop where
  self : ∀ x, s.get? x ≠ some (.var x)
  range : ∀ x t, s.get? x = some t → ∀ y, t.hasVar y = true → s.get? y = none
  once : ∀ t, s.resolve t = t.instantiate s

theorem Settled.fullyApplied (hs : s.Settled) : s.FullyApplied := by
  refine ⟨fun x hx => ?_, hs, hs.resolve_eq⟩
  have hfree := hs x _ hx x ((Term.hasVar_var x x).mpr rfl)
  rw [hx] at hfree
  cases hfree

/-- All substitutions that can be made are fully applied exactly if no bindings are
allowed but those that are admitted by then. -/
theorem fullyApplied_iff_admits (allowed : Substitution → Symbol → Term → Prop) :
    (∀ s, Reachable allowed s → s.FullyApplied) ↔
      ∀ s x t, Reachable allowed s → allowed s x t → s.Admits x t := by
  constructor
  · intro h s x t hs hbind
    exact (settled_bind_iff (h s hs).range).mp (h _ (hs.bind hbind)).range
  · exact fun h s hs => (hs.settled h).fullyApplied

/-- `y` is bound to `c`, and then `x` to `f(y)`, where the first names are `x`, `y`, `f`
and `c`. -/
def stale : Substitution := ofList [(⟨1⟩, .const ⟨3⟩), (⟨0⟩, .app ⟨2⟩ [.var ⟨1⟩])]

/-- `x` is bound to `y`, and then `y` to `x`. -/
def crossed : Substitution := ofList [(⟨0⟩, .var ⟨1⟩), (⟨1⟩, .var ⟨0⟩)]

/-- Not every sequence of bindings is applied in full: the first one leaves a bound
variable in a bound term, which takes a second round to resolve, and the second one
binds a variable to itself. -/
theorem not_fullyApplied_stale :
    Reachable (fun _ _ _ => True) stale ∧ ¬ stale.FullyApplied ∧
      (Term.var ⟨0⟩).instantiate stale = .app ⟨2⟩ [.var ⟨1⟩] ∧
      stale.resolve (.var ⟨0⟩) = .app ⟨2⟩ [.const ⟨3⟩] ∧
    Reachable (fun _ _ _ => True) crossed ∧ crossed.get? ⟨0⟩ = some (.var ⟨0⟩) := by
  have hreachable (pairs : List (Symbol × Term)) : Reachable (fun _ _ _ => True) (.ofList pairs) :=
    .ofList fun _ _ _ _ _ => trivial
  have honce : (Term.var ⟨0⟩).instantiate stale = .app ⟨2⟩ [.var ⟨1⟩] := by decide
  have hresolve : stale.resolve (.var ⟨0⟩) = .app ⟨2⟩ [.const ⟨3⟩] := by decide
  refine ⟨hreachable _, fun h => ?_, honce, hresolve, hreachable _, by decide⟩
  have heq := h.once (.var ⟨0⟩)
  rw [honce, hresolve] at heq
  exact absurd heq (by decide)

end Substitution

end Entailment
