import Entailment.Inference
import Entailment.Proofs.Truth
import Entailment.Proofs.Unification.MostGeneral

/-! Soundness of the inference rules. What a rule derives is true wherever its
premises are, since a unifier makes the two atoms or terms mean the same. -/
namespace Entailment

universe u

variable {D : Type u} {I : Interpretation D} {v : Symbol → D}

/-- The values of the variables after a substitution. -/
def Substitution.values (s : Substitution) (I : Interpretation D) (v : Symbol → D) (x : Symbol) :
    D := (s.apply x).eval I v

theorem Substitution.Exact.solution {s s' : Substitution} {P : (Symbol → Term) → Prop}
    (h : s.Exact P (.ok s')) : P s'.apply :=
  ((h.2 s'.apply).mp h.1.respects_apply).2

namespace Term

theorem eval_eq_of_unify {t u : Term} {s : Substitution} (h : t.unify u .empty = .ok s) :
    t.eval I (s.values I v) = u.eval I (s.values I v) := by
  have hexact := unify_exact Substitution.settled_empty t u
  rw [h] at hexact
  have heval := congrArg (eval I v) hexact.solution
  rwa [eval_subst, eval_subst] at heval

theorem map_modify {β : Type u} {ts : List Term} {i : Nat} {f : Term → Term} {k : Term → β}
    {g : β → β} (h : ∀ t, ts[i]? = some t → k (f t) = g (k t)) :
    (ts.modify i f).map k = (ts.map k).modify i g := by
  refine List.ext_getElem? fun j => ?_
  simp only [List.getElem?_map, List.getElem?_modify]
  cases hj : ts[j]? with
  | none => rfl
  | some t =>
    by_cases hij : i = j
    · subst hij
      simp [h t hj]
    · simp [hij]

theorem map_eval_modify {ts : List Term} {i : Nat} {f : Term → Term}
    (h : ∀ t, ts[i]? = some t → (f t).eval I v = t.eval I v) :
    (ts.modify i f).map (eval I v) = ts.map (eval I v) := by
  rw [map_modify (g := id) h, List.modify_id]

/-- Replacing a subterm by one of the same value keeps the value. -/
theorem eval_replaceAt {t u w : Term} {path : List Nat} (hat : t.at? path = some u)
    (hw : w.eval I v = u.eval I v) : (t.replaceAt path w).eval I v = t.eval I v := by
  induction path generalizing t with
  | nil =>
    rw [at?] at hat
    cases hat
    rwa [replaceAt]
  | cons i path ih =>
    cases t with
    | var x | const c => rfl
    | app f args =>
      rw [at?, Option.bind_eq_some_iff] at hat
      obtain ⟨t, ht, hat⟩ := hat
      rw [replaceAt, eval_app, eval_app]
      refine congrArg (I.fn f) (map_eval_modify fun t' ht' => ?_)
      rw [ht] at ht'
      cases ht'
      exact ih hat

end Term

namespace Atom

theorem holds_subst (θ : Symbol → Term) (a : Atom) :
    (a.subst θ).Holds I v ↔ a.Holds I fun x => (θ x).eval I v := by
  cases a with
  | rel r args =>
    rw [subst, Holds, Holds, List.map_map]
    exact iff_of_eq (congrArg (I.rel r) (List.map_congr_left fun t _ => Term.eval_subst I v θ t))
  | eq l r => rw [subst, Holds, Holds, Term.eval_subst, Term.eval_subst]

theorem holds_iff_of_unify {a b : Atom} {s : Substitution} (h : a.unify b .empty = .ok s) :
    a.Holds I (s.values I v) ↔ b.Holds I (s.values I v) := by
  have hexact := unify_exact Substitution.settled_empty a b
  rw [h] at hexact
  have hsubst : a.subst s.apply = b.subst s.apply := hexact.solution
  calc a.Holds I (s.values I v)
      ↔ (a.subst s.apply).Holds I v := (holds_subst s.apply a).symm
    _ ↔ (b.subst s.apply).Holds I v := by rw [hsubst]
    _ ↔ b.Holds I (s.values I v) := holds_subst s.apply b

theorem mem_or_eq_of_mem_ite {p : Prop} [Decidable p] {s s' : Substitution}
    {found : List Substitution} (h : s ∈ if p then found else found ++ [s']) :
    s ∈ found ∨ s = s' := by
  split at h
  · exact .inl h
  · exact (List.mem_append.mp h).imp_right List.mem_singleton.mp

theorem holds_eq_comm (l r : Term) : (eq r l).Holds I v ↔ (eq l r).Holds I v := eq_comm

/-- What unifies: the atoms, or the first with the second turned around. -/
theorem mem_unifiers {a b : Atom} {s : Substitution} (h : s ∈ a.unifiers b) :
    a.unify b .empty = .ok s ∨ ∃ l r, b = .eq l r ∧ a.unify (.eq r l) .empty = .ok s := by
  unfold unifiers at h
  extract_lets straight at h
  have hstraight : s ∈ straight → a.unify b .empty = .ok s := by
    intro hs
    unfold straight at hs
    split at hs
    · rename_i hunify
      rwa [List.mem_singleton.mp hs]
    · cases hs
  split at h
  · exact .inl (hstraight h)
  · rename_i l r
    split at h
    · rename_i hturned
      rcases mem_or_eq_of_mem_ite h with hs | rfl
      · exact .inl (hstraight hs)
      · exact .inr ⟨l, r, rfl, hturned⟩
    · exact .inl (hstraight h)

theorem holds_iff_of_mem_unifiers {a b : Atom} {s : Substitution} (h : s ∈ a.unifiers b) :
    a.Holds I (s.values I v) ↔ b.Holds I (s.values I v) := by
  rcases mem_unifiers h with hs | ⟨l, r, rfl, hs⟩
  · exact holds_iff_of_unify hs
  · exact (holds_iff_of_unify hs).trans (holds_eq_comm l r)

theorem holds_replaceAt {a : Atom} {u w : Term} {path : List Nat} (hat : a.at? path = some u)
    (hw : w.eval I v = u.eval I v) : (a.replaceAt path w).Holds I v ↔ a.Holds I v := by
  cases path with
  | nil => rfl
  | cons i path =>
    rw [at?, Option.bind_eq_some_iff] at hat
    obtain ⟨t, ht, hat⟩ := hat
    cases a with
    | rel r args =>
      refine iff_of_eq (congrArg (I.rel r) (Term.map_eval_modify fun t' ht' => ?_))
      rw [terms] at ht
      rw [ht] at ht'
      cases ht'
      exact Term.eval_replaceAt hat hw
    | eq l r =>
      rw [replaceAt, holds_equation, Holds]
      have hi : i = 0 ∧ l = t ∨ i = 1 ∧ r = t := by
        rcases i with _ | _ | i
        · exact .inl ⟨rfl, Option.some.inj ht⟩
        · exact .inr ⟨rfl, Option.some.inj ht⟩
        · cases ht
      rcases hi with ⟨rfl, rfl⟩ | ⟨rfl, rfl⟩
      · rw [if_pos rfl, if_neg Nat.zero_ne_one, Term.eval_replaceAt hat hw]
      · rw [if_neg Nat.one_ne_zero, if_pos rfl, Term.eval_replaceAt hat hw]

end Atom

namespace Clause

theorem holds_combine {ls : List Literal} {s : Substitution} :
    (combine ls s).Holds I v ↔ ∃ l ∈ ls, l.Holds I (s.values I v) := by
  rw [combine, holds_ofList]
  simp only [List.mem_map, exists_exists_and_eq_and]
  exact exists_congr fun l => and_congr_right fun _ => Literal.holds_mapTerms_subst s.apply l

/-- If one literal does not hold, then another one does. -/
theorem Holds.exists_without {c : Clause} {l : Literal} {i : Nat} (h : c.Holds I v)
    (hl : (l, i) ∈ c.literals.zipIdx) (hfalse : ¬ l.Holds I v) :
    ∃ k ∈ c.without i, k.Holds I v := by
  obtain ⟨k, hk, hholds⟩ := h
  obtain ⟨j, hj⟩ := List.mem_iff_getElem?.mp hk
  refine ⟨k, List.mem_eraseIdx_iff_getElem?.mpr ⟨j, fun hji => hfalse ?_, hj⟩, hholds⟩
  rw [List.mk_mem_zipIdx_iff_getElem?, ← hji, hj] at hl
  cases hl
  exact hholds

/-- A premise is left with one of its other literals unless this one holds. -/
theorem TrueIn.holds_or_exists_without {c : Clause} {l : Literal} {i : Nat} (h : c.TrueIn I)
    (hl : (l, i) ∈ c.literals.zipIdx) (v : Symbol → D) :
    l.Holds I v ∨ ∃ k ∈ c.without i, k.Holds I v := by
  by_cases hholds : l.Holds I v
  · exact .inl hholds
  · exact .inr ((h v).exists_without hl hholds)

theorem trueIn_of_mem_resolvents {σ : Symbols} {c d e : Clause} (hc : c.TrueIn I)
    (hd : d.TrueIn I) (he : e ∈ c.resolvents σ d) : e.TrueIn I := by
  simp only [resolvents, List.mem_flatMap] at he
  obtain ⟨⟨l, i⟩, hl, he⟩ := he
  split at he
  · cases he
  obtain ⟨⟨k, j⟩, hk, he⟩ := List.mem_flatMap.mp he
  split at he
  · cases he
  rename_i hsign
  obtain ⟨s, hs, rfl⟩ := List.mem_map.mp he
  intro v
  rw [holds_combine]
  have hopposite : l.Holds I (s.values I v) ↔ ¬ k.Holds I (s.values I v) := by
    refine Literal.holds_iff_not_of_opposite (Atom.holds_iff_of_mem_unifiers hs) fun heq => hsign ?_
    simp [heq]
  rcases hc.holds_or_exists_without hl (s.values I v) with hlholds | ⟨m, hm, hholds⟩
  · obtain ⟨m, hm, hholds⟩ := (hd _).exists_without hk (hopposite.mp hlholds)
    exact ⟨m, List.mem_append_right _ hm, hholds⟩
  · exact ⟨m, List.mem_append_left _ hm, hholds⟩

theorem trueIn_of_mem_factors {σ : Symbols} {c e : Clause} (hc : c.TrueIn I)
    (he : e ∈ c.factors σ) : e.TrueIn I := by
  obtain ⟨s, -, rfl⟩ := List.mem_map.mp he
  exact hc.mapTerms_subst s.apply

theorem trueIn_of_mem_equalityResolvents {c e : Clause} (hc : c.TrueIn I)
    (he : e ∈ c.equalityResolvents) : e.TrueIn I := by
  obtain ⟨⟨l, i⟩, hl, he⟩ := List.mem_flatMap.mp he
  simp only at he
  split at he
  · split at he
    · rename_i hs
      rw [List.mem_singleton.mp he]
      intro v
      rw [holds_combine]
      refine (hc _).exists_without hl fun hne => hne ?_
      exact Term.eval_eq_of_unify hs
    · cases he
  · cases he

theorem trueIn_of_mem_replacements {s t : Term} {k : Literal} {others : List Literal} {e : Clause}
    (he : e ∈ replacements s t k others)
    (h : ∀ v, (s.eval I v = t.eval I v ∧ k.Holds I v) ∨ ∃ l ∈ others, l.Holds I v) :
    e.TrueIn I := by
  obtain ⟨path, -, hpath⟩ := List.mem_filterMap.mp he
  split at hpath
  · cases hpath
  rename_i u hat
  split at hpath
  · rename_i θ hθ
    cases hpath
    intro v
    rw [holds_combine]
    rcases h (θ.values I v) with ⟨hst, hk⟩ | ⟨l, hl, hholds⟩
    · refine ⟨_, List.mem_append_right _ (List.mem_singleton_self _), ?_⟩
      have hsame : t.eval I (θ.values I v) = u.eval I (θ.values I v) :=
        hst.symm.trans (Term.eval_eq_of_unify hθ)
      simpa only [Literal.Holds, Atom.holds_replaceAt hat hsame] using hk
    · exact ⟨l, List.mem_append_left _ hl, hholds⟩
  · cases hpath

theorem trueIn_of_mem_paramodulants {σ : Symbols} {c d e : Clause} (hc : c.TrueIn I)
    (hd : d.TrueIn I) (he : e ∈ c.paramodulants σ d) : e.TrueIn I := by
  obtain ⟨⟨q, i⟩, hq, he⟩ := List.mem_flatMap.mp he
  simp only at he
  split at he
  · rename_i l r
    obtain ⟨⟨s, t⟩, hst, he⟩ := List.mem_flatMap.mp he
    obtain ⟨⟨k, j⟩, hk, he⟩ := List.mem_flatMap.mp he
    simp only at he
    split at he
    · cases he
    refine trueIn_of_mem_replacements he fun v => ?_
    rcases hc.holds_or_exists_without hq v with hlr | ⟨m, hm, hholds⟩
    · rcases hd.holds_or_exists_without hk v with hkholds | ⟨m, hm, hholds⟩
      · have hlr : l.eval I v = r.eval I v := hlr
        have hside : s.eval I v = t.eval I v := by
          simp only [List.mem_cons, Prod.mk.injEq, List.not_mem_nil, or_false] at hst
          rcases hst with ⟨rfl, rfl⟩ | ⟨rfl, rfl⟩
          · exact hlr
          · exact hlr.symm
        exact .inl ⟨hside, hkholds⟩
      · exact .inr ⟨m, List.mem_append_right _ hm, hholds⟩
    · exact .inr ⟨m, List.mem_append_left _ hm, hholds⟩
  · cases he

/-- From true premises every rule leads to true clauses, whether or not the premises
share variables. -/
theorem trueIn_of_premises (σ : Symbols) {c d : Clause} (hc : c.TrueIn I) (hd : d.TrueIn I) :
    (∀ e ∈ c.resolvents σ d, e.TrueIn I) ∧ (∀ e ∈ c.paramodulants σ d, e.TrueIn I) ∧
      (∀ e ∈ c.factors σ, e.TrueIn I) ∧ ∀ e ∈ c.equalityResolvents, e.TrueIn I := by
  refine ⟨?_, ?_, ?_, ?_⟩
  · intro e he
    exact trueIn_of_mem_resolvents hc hd he
  · intro e he
    exact trueIn_of_mem_paramodulants hc hd he
  · intro e he
    exact trueIn_of_mem_factors hc he
  · intro e he
    exact trueIn_of_mem_equalityResolvents hc he

/-- The clause `¬P(x) ∨ ¬P(a) ∨ a = f(x) ∨ f(x) != f(a)`, where `P`, `f`, `a` and `x`
are the first four names. Every rule applies to it. -/
def versatile : Clause :=
  ⟨[⟨.rel ⟨0⟩ [.var ⟨3⟩], true⟩, ⟨.rel ⟨0⟩ [.const ⟨2⟩], true⟩,
    ⟨.eq (.const ⟨2⟩) (.app ⟨1⟩ [.var ⟨3⟩]), false⟩,
    ⟨.eq (.app ⟨1⟩ [.var ⟨3⟩]) (.app ⟨1⟩ [.const ⟨2⟩]), true⟩]⟩

/-- The clause `P(x) ∨ P(a)`, which has the variable in common with `versatile`. -/
def partner : Clause := ⟨[⟨.rel ⟨0⟩ [.var ⟨3⟩], false⟩, ⟨.rel ⟨0⟩ [.const ⟨2⟩], false⟩]⟩

/-- Two truth values: `a` is the false one, `f` leaves both as they are, and `P` is
negation. -/
def negation : Interpretation Bool :=
  ⟨fun _ => false, fun _ ds => ds.any id, fun _ ds => ds = [false]⟩

def versatileNames : Symbols := (Symbols.internAll ["P", "f", "a", "x"] .empty).2

theorem trueIn_versatile : versatile.TrueIn negation := by
  intro v
  by_cases hx : v ⟨3⟩ = false
  · refine ⟨⟨.eq (.const ⟨2⟩) (.app ⟨1⟩ [.var ⟨3⟩]), false⟩, by decide, ?_⟩
    simp [Literal.Holds, Atom.Holds, negation, hx]
  · refine ⟨⟨.rel ⟨0⟩ [.var ⟨3⟩], true⟩, by decide, ?_⟩
    simp [Literal.Holds, Atom.Holds, negation, hx]

theorem trueIn_partner : partner.TrueIn negation := by
  intro v
  refine ⟨⟨.rel ⟨0⟩ [.const ⟨2⟩], false⟩, by decide, ?_⟩
  simp [Literal.Holds, Atom.Holds, negation]

theorem trueIn_of_premises_versatile :
    versatile.TrueIn negation ∧ partner.TrueIn negation ∧
    (versatile.resolvents versatileNames partner).length = 4 ∧
    (versatile.paramodulants versatileNames partner).length = 1 ∧
    (versatile.factors versatileNames).length = 1 ∧ versatile.equalityResolvents.length = 1 ∧
    (∀ e ∈ versatile.resolvents versatileNames partner, e.TrueIn negation) ∧
    (∀ e ∈ versatile.paramodulants versatileNames partner, e.TrueIn negation) ∧
    (∀ e ∈ versatile.factors versatileNames, e.TrueIn negation) ∧
    ∀ e ∈ versatile.equalityResolvents, e.TrueIn negation :=
  ⟨trueIn_versatile, trueIn_partner, by decide, by decide, by decide, by decide,
    trueIn_of_premises versatileNames trueIn_versatile trueIn_partner⟩

end Clause

end Entailment
