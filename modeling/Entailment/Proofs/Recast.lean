import Entailment.Proofs.Skolem

/-! What distinct binders and Skolem terms leave of a formula. Its atoms get other terms, its
quantifiers other names, and existential ones go; the connectives stay where they are. -/
namespace Entailment.Formula

/-- The second formula is the first one with other terms in its atoms and other names at its
quantifiers, where existential ones may be missing. -/
inductive Recast : Formula → Formula → Prop
  | rel (θ : Symbol → Term) (r : Symbol) (args : List Term) :
    Recast (.rel r args) (.rel r (args.map (Term.subst θ)))
  | eq (θ : Symbol → Term) (l r : Term) : Recast (.eq l r) (.eq (l.subst θ) (r.subst θ))
  | not {f f' : Formula} (hf : Recast f f') : Recast (.not f) (.not f')
  | and {f f' g g' : Formula} (hf : Recast f f') (hg : Recast g g') :
    Recast (.and f g) (.and f' g')
  | or {f f' g g' : Formula} (hf : Recast f f') (hg : Recast g g') : Recast (.or f g) (.or f' g')
  | imp {f f' g g' : Formula} (hf : Recast f f') (hg : Recast g g') :
    Recast (.imp f g) (.imp f' g')
  | iff {f f' g g' : Formula} (hf : Recast f f') (hg : Recast g g') :
    Recast (.iff f g) (.iff f' g')
  | all {f f' : Formula} (x y : Symbol) (hf : Recast f f') : Recast (.all x f) (.all y f')
  | ex {f f' : Formula} (x y : Symbol) (hf : Recast f f') : Recast (.ex x f) (.ex y f')
  | skolem {f f' : Formula} (x : Symbol) (hf : Recast f f') : Recast (.ex x f) f'

variable {f g h : Formula}

theorem Recast.trans (hfg : f.Recast g) (hgh : g.Recast h) : f.Recast h := by
  induction hfg generalizing h with
  | rel θ r args =>
    cases hgh with
    | rel η =>
      rw [List.map_map, funext (f := Term.subst η ∘ Term.subst θ) (Term.subst_subst θ η)]
      exact .rel _ r args
  | eq θ l r =>
    cases hgh with
    | eq η =>
      rw [Term.subst_subst, Term.subst_subst]
      exact .eq _ l r
  | not _ ih =>
    cases hgh with
    | not hf => exact .not (ih hf)
  | and _ _ ihf ihg =>
    cases hgh with
    | and hf hg => exact .and (ihf hf) (ihg hg)
  | or _ _ ihf ihg =>
    cases hgh with
    | or hf hg => exact .or (ihf hf) (ihg hg)
  | imp _ _ ihf ihg =>
    cases hgh with
    | imp hf hg => exact .imp (ihf hf) (ihg hg)
  | iff _ _ ihf ihg =>
    cases hgh with
    | iff hf hg => exact .iff (ihf hf) (ihg hg)
  | all x y _ ih =>
    cases hgh with
    | all _ z hf => exact .all x z (ih hf)
  | ex x y _ ih =>
    cases hgh with
    | ex _ z hf => exact .ex x z (ih hf)
    | skolem _ hf => exact .skolem x (ih hf)
  | skolem x _ ih => exact .skolem x (ih hgh)

theorem recast_distinctBelow (ρ : List (Symbol × Symbol)) (f : Formula) (s : BinderState) :
    f.Recast (f.distinctBelow ρ s).1 := by
  induction f generalizing ρ s with
  | rel r args => exact .rel _ r args
  | eq l r => exact .eq _ l r
  | not f ih => exact .not (ih ρ s)
  | and f g ihf ihg => exact .and (ihf ρ s) (ihg ρ _)
  | or f g ihf ihg => exact .or (ihf ρ s) (ihg ρ _)
  | imp f g ihf ihg => exact .imp (ihf ρ s) (ihg ρ _)
  | iff f g ihf ihg => exact .iff (ihf ρ s) (ihg ρ _)
  | all x f ih => exact .all x _ (ih _ _)
  | ex x f ih => exact .ex x _ (ih _ _)

theorem recast_skolemBelow (xs : List Symbol) (ρ : List (Symbol × Term)) (f : Formula)
    (s : SkolemState) : f.Recast (f.skolemBelow xs ρ s).1 := by
  induction f generalizing xs ρ s with
  | rel r args => exact .rel _ r args
  | eq l r => exact .eq _ l r
  | not f ih => exact .not (ih xs ρ s)
  | and f g ihf ihg => exact .and (ihf xs ρ s) (ihg xs ρ _)
  | or f g ihf ihg => exact .or (ihf xs ρ s) (ihg xs ρ _)
  | imp f g ihf ihg => exact .imp (ihf xs ρ s) (ihg xs ρ _)
  | iff f g ihf ihg => exact .iff (ihf xs ρ s) (ihg xs ρ _)
  | all x f ih => exact .all x x (ih _ ρ s)
  | ex x f ih => exact .skolem x (ih xs _ _)

end Entailment.Formula
