import Entailment.Proofs.Lifting

/-! What inferences take from their premises. Every rule puts together instances
of literals of the premises, one of them perhaps with a subterm replaced, and
its unifier brings no new variables. So properties of literals that survive
substitution and replacement hold of everything that is inferred. -/
namespace Entailment

open Substitution Saturation

variable {s : Substitution}

theorem Term.eq_of_subst_eq {θ η : Symbol → Term} {t : Term} {x : Symbol}
    (h : t.subst θ = t.subst η) (hx : t.hasVar x = true) : θ x = η x := by
  induction t using rec_args with
  | var y =>
    rw [(hasVar_var x y).mp hx]
    exact h
  | const c => simp at hx
  | app f args ih =>
    obtain ⟨t, ht, hx⟩ := (hasVar_app x f args).mp hx
    simp only [subst_app, app.injEq, true_and] at h
    exact ih t ht (List.map_inj_left.mp h t ht) hx

/-- A solution of a condition on the variables of `V` leads to no other ones. -/
theorem Substitution.Exact.hasVar_apply {P : (Symbol → Term) → Prop} {V : Symbol → Prop}
    (h : empty.Exact P (.ok s)) (hlocal : ∀ θ η, (∀ x, V x → θ x = η x) → P θ → P η)
    {x y : Symbol} (hy : (s.apply x).hasVar y = true) : y = x ∨ V y := by
  cases hget : s.get? x with
  | none =>
    rw [apply_of_get?_none hget, Term.hasVar_var] at hy
    exact .inl hy
  | some b =>
    rw [apply_of_get? hget] at hy
    refine .inr (by_contra fun hV => ?_)
    have hunbound : s.get? y = none := h.1 x b hget y hy
    have hyx : x ≠ y := by
      rintro rfl
      rw [hunbound] at hget
      cases hget
    -- Another value of `y` would still give a solution, but not one for the binding of `x`.
    let η := Function.update s.apply y (.const default)
    have hη : Respects η s := by
      refine h.respects_iff.mpr (hlocal s.apply η (fun z hz => ?_) h.solution)
      have hzy : z ≠ y := fun heq => hV (heq ▸ hz)
      exact (Function.update_of_ne hzy _ _).symm
    have hsame : b.subst η = b.subst s.apply := by
      rw [← hη x b hget, ← h.1.respects_apply x b hget]
      exact Function.update_of_ne hyx _ _
    have hvalue : η y = s.apply y := Term.eq_of_subst_eq hsame hy
    simp [η, apply_of_get?_none hunbound] at hvalue

theorem Term.hasVar_of_unify {t u : Term} (h : t.unify u .empty = .ok s) {x y : Symbol}
    (hy : (s.apply x).hasVar y = true) : y = x ∨ t.hasVar y = true ∨ u.hasVar y = true := by
  have hexact := unify_exact settled_empty t u
  rw [h] at hexact
  refine hexact.hasVar_apply (V := fun y => t.hasVar y = true ∨ u.hasVar y = true) ?_ hy
  intro θ η heq hθ
  rw [← subst_congr fun x hx => heq x (.inl hx), hθ, subst_congr fun x hx => heq x (.inr hx)]

namespace Atom

/-- The variable occurs in the atom. -/
def HasVar (a : Atom) (x : Symbol) : Prop := ∃ t ∈ a.terms, t.hasVar x = true

theorem subst_congr {a : Atom} {θ η : Symbol → Term} (h : ∀ x, a.HasVar x → θ x = η x) :
    a.subst θ = a.subst η := by
  have hterm (t : Term) (ht : t ∈ a.terms) : t.subst θ = t.subst η :=
    Term.subst_congr fun x hx => h x ⟨t, ht, hx⟩
  cases a with
  | rel r args => exact congrArg (rel r) (List.map_congr_left hterm)
  | eq l r => simp only [subst, hterm l (by simp [terms]), hterm r (by simp [terms])]

theorem hasVar_of_mem_unifiers {a b : Atom} (h : s ∈ a.unifiers b) {x y : Symbol}
    (hy : (s.apply x).hasVar y = true) : y = x ∨ a.HasVar y ∨ b.HasVar y := by
  obtain ⟨turn, hs⟩ := mem_unifiers_iff.mp h
  have hexact := unify_exact settled_empty a (b.turned turn)
  rw [hs] at hexact
  refine hexact.hasVar_apply (V := fun y => a.HasVar y ∨ b.HasVar y) ?_ hy
  intro θ η heq hθ
  rw [turned_subst] at hθ ⊢
  rw [← subst_congr fun x hx => heq x (.inl hx), hθ, subst_congr fun x hx => heq x (.inr hx)]

end Atom

theorem Term.hasVar_of_mem_modify {ts : List Term} {i : Nat} {f : Term → Term} {y : Symbol}
    {P : Prop} (hf : ∀ t ∈ ts, (f t).hasVar y = true → t.hasVar y = true ∨ P) {t : Term}
    (ht : t ∈ ts.modify i f) (hy : t.hasVar y = true) : (∃ u ∈ ts, u.hasVar y = true) ∨ P := by
  obtain ⟨j, hj⟩ := List.mem_iff_getElem?.mp ht
  rw [List.getElem?_modify, Option.map_eq_map, Option.map_eq_some_iff] at hj
  obtain ⟨u, hu, rfl⟩ := hj
  have hmem := List.mem_of_getElem? hu
  split at hy
  · exact (hf u hmem hy).imp_left fun hu => ⟨u, hmem, hu⟩
  · exact .inl ⟨u, hmem, hy⟩

theorem Term.hasVar_replaceAt {t u : Term} {path : List Nat} {y : Symbol}
    (h : (t.replaceAt path u).hasVar y = true) : t.hasVar y = true ∨ u.hasVar y = true := by
  induction path generalizing t with
  | nil => exact .inr (by rwa [replaceAt] at h)
  | cons i path ih =>
    cases t with
    | var x | const c => exact .inl h
    | app f args =>
      rw [replaceAt, hasVar_app] at h
      obtain ⟨t, ht, hy⟩ := h
      rw [hasVar_app]
      exact hasVar_of_mem_modify (fun t _ => ih) ht hy

theorem Atom.hasVar_replaceAt {a : Atom} {u : Term} {path : List Nat} {y : Symbol}
    (h : (a.replaceAt path u).HasVar y) : a.HasVar y ∨ u.hasVar y = true := by
  obtain ⟨t, ht, hy⟩ := h
  cases path with
  | nil => exact .inl ⟨t, ht, hy⟩
  | cons i path =>
    cases a with
    | rel r args => exact Term.hasVar_of_mem_modify (fun t _ => Term.hasVar_replaceAt) ht hy
    | eq l r =>
      have hside {n : Nat} {w : Term} (hw : w ∈ (eq l r).terms)
          (hy : (if i = n then w.replaceAt path u else w).hasVar y = true) :
          (eq l r).HasVar y ∨ u.hasVar y = true := by
        split at hy
        · exact (Term.hasVar_replaceAt hy).imp_left fun hy => ⟨w, hw, hy⟩
        · exact .inl ⟨w, hw, hy⟩
      rw [replaceAt, mem_terms_equation] at ht
      rcases ht with rfl | rfl
      · exact hside (by simp [terms]) hy
      · exact hside (by simp [terms]) hy

theorem Term.hasVar_of_at? {t u : Term} {path : List Nat} (h : t.at? path = some u) {y : Symbol}
    (hy : u.hasVar y = true) : t.hasVar y = true := by
  induction path generalizing t with
  | nil =>
    rw [at?] at h
    cases h
    exact hy
  | cons i path ih =>
    cases t with
    | var x | const c => cases h
    | app f args =>
      rw [at?, Option.bind_eq_some_iff] at h
      obtain ⟨t, ht, h⟩ := h
      exact (hasVar_app y f args).mpr ⟨t, List.mem_of_getElem? ht, ih h⟩

theorem Atom.hasVar_of_at? {a : Atom} {u : Term} {path : List Nat} (h : a.at? path = some u)
    {y : Symbol} (hy : u.hasVar y = true) : a.HasVar y := by
  cases path with
  | nil => cases h
  | cons i path =>
    rw [at?, Option.bind_eq_some_iff] at h
    obtain ⟨t, ht, h⟩ := h
    exact ⟨t, List.mem_of_getElem? ht, Term.hasVar_of_at? h hy⟩

namespace Clause

variable {σ : Symbols} {c d e : Clause}

/-- Literals that an inference from `c` and `d` may use: those of the premises, and
those of `d` with a subterm replaced by a side of an equation of `c`. -/
inductive Source (c d : Clause) : Literal → Prop
  | left {l : Literal} (h : l ∈ c.literals) : Source c d l
  | right {l : Literal} (h : l ∈ d.literals) : Source c d l
  | replaced {l r t : Term} {k : Literal} (heq : ⟨.eq l r, false⟩ ∈ c.literals)
      (hk : k ∈ d.literals) (ht : t = l ∨ t = r) (path : List Nat) :
      Source c d ⟨k.atom.replaceAt path t, k.negated⟩

/-- The clause combines such literals by a substitution without new variables. -/
def Inferred (c d e : Clause) : Prop :=
  ∃ ls s, (∀ l ∈ ls, Source c d l) ∧
    (∀ x y, (s.apply x).hasVar y = true → y = x ∨ y ∈ c.vars ∨ y ∈ d.vars) ∧ e = combine ls s

theorem mem_of_mem_zipIdx {l : Literal} {i : Nat} (h : (l, i) ∈ c.literals.zipIdx) :
    l ∈ c.literals :=
  List.fst_mem_of_mem_zipIdx h

theorem Source.without {i j : Nat} {l : Literal} (h : l ∈ c.without i ++ d.without j) :
    Source c d l :=
  (List.mem_append.mp h).elim (fun h => .left (List.mem_of_mem_eraseIdx h))
    fun h => .right (List.mem_of_mem_eraseIdx h)

/-- An equation is used in both directions. -/
theorem eq_or_eq_of_mem_sides {l r t u : Term} (h : (t, u) ∈ [(l, r), (r, l)]) :
    (t = l ∨ t = r) ∧ (u = l ∨ u = r) := by
  simp only [List.mem_cons, Prod.mk.injEq, List.not_mem_nil, or_false] at h
  rcases h with ⟨rfl, rfl⟩ | ⟨rfl, rfl⟩ <;> simp

theorem mem_vars_of_side {l r t : Term} {n : Bool} (heq : ⟨.eq l r, n⟩ ∈ c.literals)
    (ht : t = l ∨ t = r) {x : Symbol} (hx : t.hasVar x = true) : x ∈ c.vars :=
  mem_vars.mpr ⟨_, heq, t, by simpa [Literal.terms, Atom.terms] using ht, hx⟩

theorem inferred_of_mem_resolvents (he : e ∈ c.resolvents σ d) : Inferred c d e := by
  simp only [resolvents, List.mem_flatMap] at he
  obtain ⟨⟨l, i⟩, hl, he⟩ := he
  split at he
  · cases he
  obtain ⟨⟨k, j⟩, hk, he⟩ := List.mem_flatMap.mp he
  split at he
  · cases he
  obtain ⟨s, hs, rfl⟩ := List.mem_map.mp he
  refine ⟨_, s, fun m hm => Source.without hm, fun x y hy => ?_, rfl⟩
  refine (Atom.hasVar_of_mem_unifiers hs hy).imp_right (Or.imp ?_ ?_)
  · exact fun h => mem_vars.mpr ⟨l, mem_of_mem_zipIdx hl, h⟩
  · exact fun h => mem_vars.mpr ⟨k, mem_of_mem_zipIdx hk, h⟩

theorem exists_of_mem_mergers {ls : List Literal} (h : s ∈ mergers σ ls) :
    ∃ l ∈ ls, ∃ k ∈ ls, s ∈ l.atom.unifiers k.atom := by
  induction ls with
  | nil => cases h
  | cons l ls ih =>
    rw [mergers, List.mem_append] at h
    rcases h with h | h
    · split at h
      · cases h
      obtain ⟨k, hk, h⟩ := List.mem_flatMap.mp h
      split at h
      · cases h
      · exact ⟨l, List.mem_cons_self, k, List.mem_cons_of_mem l hk, h⟩
    · obtain ⟨m, hm, k, hk, h⟩ := ih h
      exact ⟨m, List.mem_cons_of_mem l hm, k, List.mem_cons_of_mem l hk, h⟩

theorem inferred_of_mem_factors (he : e ∈ c.factors σ) : Inferred c c e := by
  obtain ⟨s, hs, rfl⟩ := List.mem_map.mp he
  obtain ⟨l, hl, k, hk, hs⟩ := exists_of_mem_mergers hs
  refine ⟨c.literals, s, fun m hm => .left hm, fun x y hy => ?_, rfl⟩
  refine (Atom.hasVar_of_mem_unifiers hs hy).imp_right (Or.imp ?_ ?_)
  · exact fun h => mem_vars.mpr ⟨l, hl, h⟩
  · exact fun h => mem_vars.mpr ⟨k, hk, h⟩

theorem inferred_of_mem_equalityResolvents (he : e ∈ c.equalityResolvents) : Inferred c c e := by
  obtain ⟨⟨l, i⟩, hl, he⟩ := List.mem_flatMap.mp he
  simp only at he
  split at he
  · rename_i t u
    split at he
    · rename_i s hs
      rw [List.mem_singleton.mp he]
      refine ⟨_, s, fun m hm => .left (List.mem_of_mem_eraseIdx hm), fun x y hy => ?_, rfl⟩
      have hmem := mem_of_mem_zipIdx hl
      exact (Term.hasVar_of_unify hs hy).imp_right
        (Or.imp (mem_vars_of_side hmem (.inl rfl)) (mem_vars_of_side hmem (.inr rfl)))
    · cases he
  · cases he

theorem inferred_of_mem_replacements {l r t u : Term} {k : Literal} {others : List Literal}
    (heq : ⟨.eq l r, false⟩ ∈ c.literals) (htu : (t, u) ∈ [(l, r), (r, l)])
    (hk : k ∈ d.literals) (hothers : ∀ m ∈ others, Source c d m)
    (he : e ∈ replacements t u k others) : Inferred c d e := by
  have hsides := eq_or_eq_of_mem_sides htu
  obtain ⟨path, -, hpath⟩ := List.mem_filterMap.mp he
  split at hpath
  · cases hpath
  rename_i w hat
  split at hpath
  · rename_i s hs
    cases hpath
    refine ⟨_, s, fun m hm => ?_, fun x y hy => ?_, rfl⟩
    · rcases List.mem_append.mp hm with hm | hm
      · exact hothers m hm
      · rw [List.mem_singleton.mp hm]
        exact .replaced heq hk hsides.2 path
    · refine (Term.hasVar_of_unify hs hy).imp_right
        (Or.imp (mem_vars_of_side heq hsides.1) fun hy => ?_)
      exact mem_vars.mpr ⟨k, hk, Atom.hasVar_of_at? hat hy⟩
  · cases hpath

theorem inferred_of_mem_paramodulants (he : e ∈ c.paramodulants σ d) : Inferred c d e := by
  obtain ⟨⟨q, i⟩, hq, he⟩ := List.mem_flatMap.mp he
  simp only at he
  split at he
  · obtain ⟨⟨t, u⟩, htu, he⟩ := List.mem_flatMap.mp he
    obtain ⟨⟨k, j⟩, hk, he⟩ := List.mem_flatMap.mp he
    simp only at he
    split at he
    · cases he
    exact inferred_of_mem_replacements (mem_of_mem_zipIdx hq) htu (mem_of_mem_zipIdx hk)
      (fun m hm => Source.without hm) he
  · cases he

namespace Inferred

theorem normal (h : Inferred c d e) : e.Normal := by
  obtain ⟨ls, s, -, -, rfl⟩ := h
  exact normal_ofList_map _ ls

/-- A property that no substitution and no replacement takes from a literal. -/
theorem literals {p : Literal → Prop} (hunder : ∀ l θ, p l → p (l.under θ))
    (hreplace : ∀ l r, p ⟨.eq l r, false⟩ → ∀ k path t, p k → p ⟨k.atom.replaceAt path t, k.negated⟩)
    (hc : ∀ l ∈ c.literals, p l) (hd : ∀ l ∈ d.literals, p l) (h : Inferred c d e) :
    ∀ l ∈ e.literals, p l := by
  obtain ⟨ls, s, hls, -, rfl⟩ := h
  intro l hl
  obtain ⟨k, hk, rfl⟩ := List.mem_map.mp (mem_ofList.mp hl)
  refine hunder k s.apply ?_
  cases hls k hk with
  | left h => exact hc k h
  | right h => exact hd k h
  | replaced heq hm _ path => exact hreplace _ _ (hc _ heq) _ path _ (hd _ hm)

theorem vars (h : Inferred c d e) {y : Symbol} (hy : y ∈ e.vars) : y ∈ c.vars ∨ y ∈ d.vars := by
  obtain ⟨ls, s, hls, hs, rfl⟩ := h
  obtain ⟨l, hl, hy⟩ := mem_vars.mp hy
  obtain ⟨k, hk, rfl⟩ := List.mem_map.mp (mem_ofList.mp hl)
  obtain ⟨x, hx, hxy⟩ := Literal.hasVar_under.mp hy
  rcases hs x y hxy with rfl | hy
  · cases hls k hk with
    | left h => exact .inl (mem_vars.mpr ⟨k, h, hx⟩)
    | right h => exact .inr (mem_vars.mpr ⟨k, h, hx⟩)
    | @replaced l r t m heq hm ht path =>
      rcases Atom.hasVar_replaceAt hx with hx | hx
      · exact .inr (mem_vars.mpr ⟨m, hm, hx⟩)
      · exact .inl (mem_vars_of_side heq ht hx)
  · exact hy

end Inferred

theorem inferred_of_mem_unaryConsequences (he : e ∈ unaryConsequences σ c) : Inferred c c e :=
  (List.mem_append.mp he).elim inferred_of_mem_factors inferred_of_mem_equalityResolvents

end Clause

namespace Saturation

open Clause

variable {σ : Symbols}

theorem deductive_normal (σ : Symbols) : Deductive σ Normal where
  rename c _ _ := normal_mapTerms _ c
  unary _ _ _ _ _ he := (inferred_of_mem_unaryConsequences he).normal
  resolvents _ _ _ _ _ _ _ he := (inferred_of_mem_resolvents he).normal
  paramodulants _ _ _ _ _ _ _ he := (inferred_of_mem_paramodulants he).normal

/-- Clauses of literals with such a property are never left. -/
theorem deductive_literals {p : Literal → Prop} (hunder : ∀ l θ, p l → p (l.under θ))
    (hreplace : ∀ l r, p ⟨.eq l r, false⟩ → ∀ k path t, p k →
      p ⟨k.atom.replaceAt path t, k.negated⟩) :
    Deductive σ fun c => ∀ l ∈ c.literals, p l where
  rename c ρ hc l hl := by
    obtain ⟨k, hk, rfl⟩ := mem_under.mp hl
    exact hunder k _ (hc k hk)
  unary _ _ _ hc _ he :=
    (inferred_of_mem_unaryConsequences he).literals hunder hreplace hc hc
  resolvents _ _ _ _ hc hd _ he :=
    (inferred_of_mem_resolvents he).literals hunder hreplace hc hd
  paramodulants _ _ _ _ hc hd _ he :=
    (inferred_of_mem_paramodulants he).literals hunder hreplace hc hd

theorem Deductive.and {P Q : Clause → Prop} (hP : Deductive σ P) (hQ : Deductive σ Q) :
    Deductive σ fun c => P c ∧ Q c where
  rename c ρ hc := ⟨hP.rename c ρ hc.1, hQ.rename c ρ hc.2⟩
  unary τ hτ c hc e he := ⟨hP.unary τ hτ c hc.1 e he, hQ.unary τ hτ c hc.2 e he⟩
  resolvents τ hτ c d hc hd e he :=
    ⟨hP.resolvents τ hτ c d hc.1 hd.1 e he, hQ.resolvents τ hτ c d hc.2 hd.2 e he⟩
  paramodulants τ hτ c d hc hd e he :=
    ⟨hP.paramodulants τ hτ c d hc.1 hd.1 e he, hQ.paramodulants τ hτ c d hc.2 hd.2 e he⟩

end Saturation

end Entailment
