import Entailment.Proofs.Unification.Depth

/-! Unification computes most general unifiers, of terms and of atoms. -/
namespace Entailment

open Substitution

/-- Replaces the variables of an atom, whose terms keep their places. -/
def Atom.subst (θ : Symbol → Term) : Atom → Atom
  | .rel r args => .rel r (args.map (Term.subst θ))
  | .eq l r => .eq (l.subst θ) (r.subst θ)

theorem Term.unify_exact {s : Substitution} (hs : s.Settled) (t u : Term) :
    s.Exact (fun θ => t.subst θ = u.subst θ) (t.unify u s) := by
  obtain ⟨r, hr⟩ := exists_unifyWithin_depthBound hs t u
  rw [Term.unify, hr]
  exact unifyWithin_exact hs hr

theorem Term.unifyLists_exact {s : Substitution} (hs : s.Settled) {ts us : List Term}
    (hlen : ts.length = us.length) :
    s.Exact (fun θ => ts.map (Term.subst θ) = us.map (Term.subst θ)) (unifyLists ts us s) := by
  induction ts generalizing us s with
  | nil =>
    obtain rfl : us = [] := List.length_eq_zero_iff.mp hlen.symm
    exact Exact.unchanged hs fun _ _ => rfl
  | cons t ts ih =>
    cases us with
    | nil => cases hlen
    | cons u us =>
      simp only [List.map_cons, List.cons.injEq]
      have hhead := Term.unify_exact hs t u
      rw [unifyLists]
      cases h : t.unify u s with
      | error e =>
        rw [h] at hhead
        exact fun θ hθ heq => hhead θ hθ heq.1
      | ok s' =>
        rw [h] at hhead
        exact hhead.trans (ih hhead.1 (Nat.succ.inj hlen))

theorem Atom.unify_exact {s : Substitution} (hs : s.Settled) (a b : Atom) :
    s.Exact (fun θ => a.subst θ = b.subst θ) (a.unify b s) := by
  cases a with
  | rel r ts =>
    cases b with
    | rel q us =>
      rw [Atom.unify]
      split
      · rename_i hrq
        exact fun θ _ h => hrq (Atom.rel.inj h).1
      · split
        · rename_i hlen
          exact fun θ _ h => hlen (by simpa using congrArg List.length (Atom.rel.inj h).2)
        · rename_i hrq hlen
          refine (Term.unifyLists_exact hs (not_not.mp hlen)).congr fun θ _ => ?_
          simp only [Atom.subst, Atom.rel.injEq, not_not.mp hrq, true_and]
    | eq l' r' => exact fun θ _ h => by cases h
  | eq l r =>
    cases b with
    | rel q us => exact fun θ _ h => by cases h
    | eq l' r' =>
      rw [Atom.unify]
      have hlen : [l, r].length = [l', r'].length := rfl
      refine (Term.unifyLists_exact hs hlen).congr fun θ _ => ?_
      simp [Atom.subst]

/-- The map makes the terms equal and gives every bound variable the value of its
term. -/
def Term.Unifier (s : Substitution) (t u : Term) (θ : Symbol → Term) : Prop :=
  t.subst θ = u.subst θ ∧ ∀ x b, s.get? x = some b → θ x = b.subst θ

/-- The same for two atoms. Equations are compared side by side. -/
def Atom.Unifier (s : Substitution) (a b : Atom) (θ : Symbol → Term) : Prop :=
  a.subst θ = b.subst θ ∧ ∀ x t, s.get? x = some t → θ x = t.subst θ

/-- The result is a substitution exactly when there is a solution. It is then
itself a settled solution, and every solution factors through it. -/
def MostGeneral (solution : (Symbol → Term) → Prop) (r : Except UnifyError Substitution) : Prop :=
  ((∃ s, r = .ok s) ↔ ∃ θ, solution θ) ∧
  ∀ s, r = .ok s → solution s.apply ∧ s.Settled ∧
    ∀ θ, solution θ → ∀ x, ((Term.var x).instantiate s).subst θ = θ x

theorem Substitution.Exact.mostGeneral {s : Substitution} {P : (Symbol → Term) → Prop}
    {r : Except UnifyError Substitution} (h : s.Exact P r) :
    MostGeneral (fun θ => P θ ∧ Respects θ s) r := by
  cases r with
  | error e =>
    refine ⟨⟨?_, ?_⟩, nofun⟩
    · rintro ⟨s', ⟨⟩⟩
    · rintro ⟨θ, hP, hθ⟩
      exact absurd hP (h θ hθ)
  | ok s' =>
    have hself : P s'.apply ∧ Respects s'.apply s :=
      ((h.2 s'.apply).mp h.1.respects_apply).symm
    refine ⟨⟨fun _ => ⟨_, hself⟩, fun _ => ⟨s', rfl⟩⟩, ?_⟩
    rintro s'' ⟨⟩
    refine ⟨hself, h.1, fun θ hθ x => ?_⟩
    have hrespects : Respects θ s' := (h.2 θ).mpr hθ.symm
    rw [hrespects.subst_instantiate, Term.subst_var]

/-- Unification of terms and of atoms from a settled substitution is exact and
most general. -/
theorem unify_mostGeneral {s : Substitution} (hs : s.Settled) :
    (∀ t u : Term, MostGeneral (Term.Unifier s t u) (t.unify u s)) ∧
    (∀ a b : Atom, MostGeneral (Atom.Unifier s a b) (a.unify b s)) :=
  ⟨fun t u => (Term.unify_exact hs t u).mostGeneral,
    fun a b => (Atom.unify_exact hs a b).mostGeneral⟩

/-- With `x` bound to `f(y)`, the equation of `x` and `f(c)` binds `y` to `c`. -/
theorem unify_mostGeneral_of_chain :
    (empty.insert ⟨0⟩ (.app ⟨2⟩ [.var ⟨1⟩])).Settled ∧
    (Term.var ⟨0⟩).unify (.app ⟨2⟩ [.const ⟨3⟩]) (empty.insert ⟨0⟩ (.app ⟨2⟩ [.var ⟨1⟩])) =
      .ok (ofList [(⟨0⟩, .app ⟨2⟩ [.const ⟨3⟩]), (⟨1⟩, .const ⟨3⟩)]) ∧
    MostGeneral
      (Term.Unifier (empty.insert ⟨0⟩ (.app ⟨2⟩ [.var ⟨1⟩])) (.var ⟨0⟩) (.app ⟨2⟩ [.const ⟨3⟩]))
      (.ok (ofList [(⟨0⟩, .app ⟨2⟩ [.const ⟨3⟩]), (⟨1⟩, .const ⟨3⟩)])) := by
  have hs : (empty.insert ⟨0⟩ (.app ⟨2⟩ [.var ⟨1⟩])).Settled := by
    intro x t h y hy
    rw [get?_insert] at h
    split at h
    · cases h
      obtain ⟨u, hu, hyu⟩ := (Term.hasVar_app y ⟨2⟩ [.var ⟨1⟩]).mp hy
      rw [List.mem_singleton.mp hu, Term.hasVar_var] at hyu
      subst hyu
      rfl
    · cases h
  have hunify : (Term.var ⟨0⟩).unify (.app ⟨2⟩ [.const ⟨3⟩])
      (empty.insert ⟨0⟩ (.app ⟨2⟩ [.var ⟨1⟩])) =
      .ok (ofList [(⟨0⟩, .app ⟨2⟩ [.const ⟨3⟩]), (⟨1⟩, .const ⟨3⟩)]) := by decide +kernel
  exact ⟨hs, hunify, hunify ▸ (unify_mostGeneral hs).1 _ _⟩

end Entailment
