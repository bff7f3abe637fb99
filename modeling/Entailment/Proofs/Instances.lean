import Entailment.Proofs.Variants

/-! The rules on instances of clauses. Wherever a rule applies to the instances by
some map from variables to terms, it applies to the clauses themselves, and the
same map leads from what it gives there to what it would give for the instances. -/
namespace Entailment

open Substitution

variable {θ η : Symbol → Term}

namespace Term

theorem mem_positionsFrom {ts : List Term} {i : Nat} {path : List Nat} :
    path ∈ positionsFrom i ts ↔
      ∃ j t rest, ts[j]? = some t ∧ rest ∈ t.positions ∧ path = (i + j) :: rest := by
  induction ts generalizing i with
  | nil => simp [positionsFrom]
  | cons t ts ih =>
    rw [positionsFrom, List.mem_append, List.mem_map, ih]
    constructor
    · rintro (⟨rest, hrest, rfl⟩ | ⟨j, u, rest, hj, hrest, rfl⟩)
      · exact ⟨0, t, rest, rfl, hrest, rfl⟩
      · exact ⟨j + 1, u, rest, hj, hrest, by rw [Nat.add_right_comm, Nat.add_assoc]⟩
    · rintro ⟨j, u, rest, hj, hrest, rfl⟩
      cases j with
      | zero =>
        cases hj
        exact .inl ⟨rest, hrest, rfl⟩
      | succ j => exact .inr ⟨j, u, rest, hj, hrest, by rw [Nat.add_right_comm, Nat.add_assoc]⟩

theorem cons_mem_positionsFrom {ts : List Term} {i : Nat} {path : List Nat}
    (h : ∀ t : Term, path ∈ t.positions ↔ ∃ u, t.at? path = some u ∧ u.isVar = false) :
    i :: path ∈ positionsFrom 0 ts ↔
      ∃ u, ts[i]?.bind (·.at? path) = some u ∧ u.isVar = false := by
  rw [mem_positionsFrom]
  simp only [Option.bind_eq_some_iff]
  constructor
  · rintro ⟨j, t, rest, hj, hrest, heq⟩
    rw [Nat.zero_add, List.cons.injEq] at heq
    obtain ⟨rfl, rfl⟩ := heq
    obtain ⟨u, hat, hu⟩ := (h t).mp hrest
    exact ⟨u, ⟨t, hj, hat⟩, hu⟩
  · rintro ⟨u, ⟨t, hi, hat⟩, hu⟩
    exact ⟨i, t, path, hi, (h t).mpr ⟨u, hat, hu⟩, by rw [Nat.zero_add]⟩

/-- The listed paths are those that lead to a subterm that is no variable. -/
theorem mem_positions {t : Term} {path : List Nat} :
    path ∈ t.positions ↔ ∃ u, t.at? path = some u ∧ u.isVar = false := by
  induction path generalizing t with
  | nil => cases t <;> simp [positions, at?, isVar]
  | cons i path ih =>
    cases t with
    | var x | const c => simp [positions, at?]
    | app f args =>
      rw [positions, List.mem_cons, or_iff_right (List.cons_ne_nil i path),
        cons_mem_positionsFrom fun _ => ih, at?]

end Term

namespace Atom

theorem mem_positions {a : Atom} {path : List Nat} :
    path ∈ a.positions ↔ ∃ u, a.at? path = some u ∧ u.isVar = false := by
  cases path with
  | nil => simp [positions, at?, Term.mem_positionsFrom]
  | cons i path =>
    rw [positions, Term.cons_mem_positionsFrom fun _ => Term.mem_positions, at?]

end Atom

namespace Literal

variable {l k : Literal}

/-- The instance of a literal, with equations as they come. -/
def subst (θ : Symbol → Term) (l : Literal) : Literal := ⟨l.atom.subst θ, l.negated⟩

def Alike (l k : Literal) : Prop := l.negated = k.negated ∧ l.atom.Alike k.atom

theorem alike_subst_iff : (l.subst θ).Alike (k.subst η) ↔ l.under θ = k.under η := by
  rw [under, under, mapTerms, mapTerms, mk.injEq, ← Atom.alike_subst_iff, and_comm]
  rfl

/-- The lists have the same literals, where the sides of an equation have no order. -/
def SameSet (ls ks : List Literal) : Prop :=
  (∀ l ∈ ls, ∃ k ∈ ks, l.Alike k) ∧ ∀ k ∈ ks, ∃ l ∈ ls, k.Alike l

theorem sameSet_subst {ls ks : List Literal}
    (h : Clause.ofList (ls.map (·.under θ)) = Clause.ofList (ks.map (·.under η))) :
    SameSet (ls.map (subst θ)) (ks.map (subst η)) := by
  have hmem (l : Literal) : l ∈ ls.map (·.under θ) ↔ l ∈ ks.map (·.under η) := by
    rw [← Clause.mem_ofList, h, Clause.mem_ofList]
  constructor
  · intro _ hmap
    obtain ⟨l, hl, rfl⟩ := List.mem_map.mp hmap
    obtain ⟨k, hk, heq⟩ := List.mem_map.mp ((hmem _).mp (List.mem_map_of_mem hl))
    exact ⟨k.subst η, List.mem_map_of_mem hk, alike_subst_iff.mpr heq.symm⟩
  · intro _ hmap
    obtain ⟨k, hk, rfl⟩ := List.mem_map.mp hmap
    obtain ⟨l, hl, heq⟩ := List.mem_map.mp ((hmem _).mpr (List.mem_map_of_mem hk))
    exact ⟨l.subst θ, List.mem_map_of_mem hl, alike_subst_iff.mpr heq.symm⟩

end Literal

namespace Clause

variable {σ : Symbols} {c d : Clause}

/-- One of the clauses has the same instance by `θ` as the literals. -/
def SomeMatches (θ : Symbol → Term) (es : List Clause) (ls : List Literal) : Prop :=
  ∃ e ∈ es, Literal.SameSet (e.literals.map (Literal.subst θ)) (ls.map (Literal.subst θ))

theorem someMatches_combine {es : List Clause} {ls : List Literal} {s : Substitution}
    (he : combine ls s ∈ es) (hθ : Respects θ s) : SomeMatches θ es ls :=
  ⟨_, he, Literal.sameSet_subst (under_combine hθ ls)⟩

theorem someMatches_resolvents (hc : Increasing c.literals) (hd : Increasing d.literals)
    {l m : Literal} (hl : l ∈ c.literals) (hm : m ∈ d.literals) (hla : l.isAnswer σ = false)
    (hma : m.isAnswer σ = false) (hsign : l.negated ≠ m.negated)
    (hatom : (l.atom.subst θ).Alike (m.atom.subst θ)) :
    SomeMatches θ (c.resolvents σ d) (c.literals.erase l ++ d.literals.erase m) := by
  obtain ⟨e, he, hunder⟩ :=
    exists_resolvent_under hc hd hl hm hla hma hsign (Atom.alike_subst_iff.mp hatom)
  exact ⟨e, he, Literal.sameSet_subst hunder⟩

theorem exists_smaller_factor (hc : c.Normal) {l m : Literal} (hl : l ∈ c.literals)
    (hm : m ∈ c.literals) (hne : l ≠ m) (hla : l.isAnswer σ = false) (hma : m.isAnswer σ = false)
    (halike : (l.subst θ).Alike (m.subst θ)) :
    ∃ e ∈ c.factors σ, e.size < c.size ∧
      Literal.SameSet (e.literals.map (Literal.subst θ)) (c.literals.map (Literal.subst θ)) := by
  obtain ⟨e, he, hunder, hsize⟩ :=
    exists_mem_factors hc hl hm hne hla hma (Literal.alike_subst_iff.mp halike)
  exact ⟨e, he, hsize, Literal.sameSet_subst hunder⟩

theorem someMatches_equalityResolvents (hc : Increasing c.literals) {s t : Term}
    (hl : ⟨.eq s t, true⟩ ∈ c.literals) (heq : s.subst θ = t.subst θ) :
    SomeMatches θ c.equalityResolvents (c.literals.erase ⟨.eq s t, true⟩) := by
  obtain ⟨i, hi⟩ := exists_mem_zipIdx hl
  obtain ⟨u, hu, hθ⟩ := (Term.unify_exact settled_empty s t).exists_respects heq
  refine someMatches_combine (List.mem_flatMap.mpr ⟨(_, i), hi, ?_⟩) hθ
  simp only [hu, without_eq hc hi, List.mem_singleton]

theorem someMatches_paramodulants (hc : Increasing c.literals) (hd : Increasing d.literals)
    {s t : Term} {q : Literal} (hq : q ∈ c.literals)
    (hsides : q = ⟨.eq s t, false⟩ ∨ q = ⟨.eq t s, false⟩) {m : Literal} (hm : m ∈ d.literals)
    (hma : m.isAnswer σ = false) {path : List Nat} {u : Term} (hat : m.atom.at? path = some u)
    (hu : u.isVar = false) (heq : s.subst θ = u.subst θ) :
    SomeMatches θ (c.paramodulants σ d)
      (c.literals.erase q ++ d.literals.erase m ++ [⟨m.atom.replaceAt path t, m.negated⟩]) := by
  obtain ⟨v, hv, hθ⟩ := (Term.unify_exact settled_empty s u).exists_respects heq
  have hreplaced : combine (c.literals.erase q ++ d.literals.erase m ++
      [⟨m.atom.replaceAt path t, m.negated⟩]) v ∈
      replacements s t m (c.literals.erase q ++ d.literals.erase m) := by
    refine List.mem_filterMap.mpr ⟨path, Atom.mem_positions.mpr ⟨u, hat, hu⟩, ?_⟩
    simp only [hat, hv]
  refine someMatches_combine ((mem_paramodulants hc hd).mpr ?_) hθ
  -- The equation is used from its left side or from its right side.
  rcases hsides with rfl | rfl
  · exact ⟨s, t, hq, s, t, by simp, m, hm, hma, hreplaced⟩
  · exact ⟨t, s, hq, s, t, by simp, m, hm, hma, hreplaced⟩

/-- No inference is missed. Whatever map `θ` makes a rule applicable, the rule gives
a clause for the premises themselves whose instance by `θ` is the conclusion. -/
theorem rules_lift (hc : c.Normal) (hd : d.Normal) (θ : Symbol → Term) :
    (∀ l ∈ c.literals, ∀ m ∈ d.literals, l.isAnswer σ = false → m.isAnswer σ = false →
      l.negated ≠ m.negated → (l.atom.subst θ).Alike (m.atom.subst θ) →
      SomeMatches θ (c.resolvents σ d) (c.literals.erase l ++ d.literals.erase m)) ∧
    (∀ l ∈ c.literals, ∀ m ∈ c.literals, l ≠ m → l.isAnswer σ = false → m.isAnswer σ = false →
      (l.subst θ).Alike (m.subst θ) →
      ∃ e ∈ c.factors σ, e.size < c.size ∧
        Literal.SameSet (e.literals.map (Literal.subst θ)) (c.literals.map (Literal.subst θ))) ∧
    (∀ s t, ⟨.eq s t, true⟩ ∈ c.literals → s.subst θ = t.subst θ →
      SomeMatches θ c.equalityResolvents (c.literals.erase ⟨.eq s t, true⟩)) ∧
    ∀ s t, ∀ q ∈ c.literals, q = ⟨.eq s t, false⟩ ∨ q = ⟨.eq t s, false⟩ →
      ∀ m ∈ d.literals, m.isAnswer σ = false →
      ∀ path u, m.atom.at? path = some u → u.isVar = false → s.subst θ = u.subst θ →
      SomeMatches θ (c.paramodulants σ d)
        (c.literals.erase q ++ d.literals.erase m ++ [⟨m.atom.replaceAt path t, m.negated⟩]) := by
  refine ⟨?_, ?_, ?_, ?_⟩
  · intro l hl m hm hla hma hsign hatom
    exact someMatches_resolvents hc.increasing hd.increasing hl hm hla hma hsign hatom
  · intro l hl m hm hne hla hma halike
    exact exists_smaller_factor hc hl hm hne hla hma halike
  · intro s t hl heq
    exact someMatches_equalityResolvents hc.increasing hl heq
  · intro s t q hq hsides m hm hma path u hat hu heq
    exact someMatches_paramodulants hc.increasing hd.increasing hq hsides hm hma hat hu heq

/-- With `a` for `x` every rule applies. -/
theorem rules_lift_versatile :
    versatile.Normal ∧ partner.Normal ∧
    SomeMatches (fun _ => .const ⟨2⟩) (versatile.resolvents versatileNames partner)
      (versatile.literals.erase ⟨.rel ⟨0⟩ [.var ⟨3⟩], true⟩ ++
        partner.literals.erase ⟨.rel ⟨0⟩ [.const ⟨2⟩], false⟩) ∧
    (∃ e ∈ versatile.factors versatileNames, e.size < versatile.size ∧
      Literal.SameSet (e.literals.map (Literal.subst fun _ => .const ⟨2⟩))
        (versatile.literals.map (Literal.subst fun _ => .const ⟨2⟩))) ∧
    SomeMatches (fun _ => .const ⟨2⟩) versatile.equalityResolvents
      (versatile.literals.erase ⟨.eq (.app ⟨1⟩ [.var ⟨3⟩]) (.app ⟨1⟩ [.const ⟨2⟩]), true⟩) ∧
    SomeMatches (fun _ => .const ⟨2⟩) (versatile.paramodulants versatileNames partner)
      (versatile.literals.erase ⟨.eq (.const ⟨2⟩) (.app ⟨1⟩ [.var ⟨3⟩]), false⟩ ++
        partner.literals.erase ⟨.rel ⟨0⟩ [.const ⟨2⟩], false⟩ ++
        [⟨.rel ⟨0⟩ [.app ⟨1⟩ [.var ⟨3⟩]], false⟩]) := by
  have hc : versatile.Normal := by decide
  have hd : partner.Normal := by decide
  obtain ⟨hresolve, hfactor, hequal, hreplace⟩ :=
    rules_lift (σ := versatileNames) hc hd fun _ => .const ⟨2⟩
  refine ⟨hc, hd, ?_, ?_, ?_, ?_⟩
  · exact hresolve _ (by decide) _ (by decide) (by decide) (by decide) (by decide) ⟨false, rfl⟩
  · exact hfactor ⟨.rel ⟨0⟩ [.var ⟨3⟩], true⟩ (by decide) ⟨.rel ⟨0⟩ [.const ⟨2⟩], true⟩ (by decide)
      (by decide) (by decide) (by decide) ⟨rfl, false, rfl⟩
  · exact hequal _ _ (by decide) rfl
  · exact hreplace (.const ⟨2⟩) (.app ⟨1⟩ [.var ⟨3⟩]) _ (by decide) (.inl rfl)
      ⟨.rel ⟨0⟩ [.const ⟨2⟩], false⟩ (by decide) (by decide) [0] (.const ⟨2⟩) rfl rfl rfl

end Clause

end Entailment
