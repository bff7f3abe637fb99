import Entailment.Proofs.ClauseForm

/-! Normal clauses. The clause of a list depends only on which literals are in it, and
looking at neighbours is enough to see whether it is a tautology. Every operation on clauses
sorts its result and puts the sides of equations in order, so what the conversion and the
rules make is normal again, whatever the terms have become. -/
namespace Entailment.Clause

variable {ls ks : List Literal}

theorem ofList_eq_iff : ofList ls = ofList ks ↔ ∀ l, l ∈ ls ↔ l ∈ ks := by
  refine ⟨fun h l => ?_, ofList_congr⟩
  rw [← mem_ofList, h, mem_ofList]

theorem isReflexive_iff {l : Literal} : isReflexive l = true ↔ ∃ t, l = ⟨.eq t t, false⟩ := by
  constructor
  · intro h
    unfold isReflexive at h
    split at h
    · rename_i s t
      rw [beq_iff_eq] at h
      exact ⟨t, by rw [h]⟩
    · cases h
  · rintro ⟨t, rfl⟩
    exact beq_self_eq_true t

/-- Two literals are opposite if one is the negation of the other. -/
theorem exists_not_mem_iff : (∃ l ∈ ls, l.not ∈ ls) ↔
    ∃ l ∈ ls, ∃ k ∈ ls, l.atom = k.atom ∧ l.negated ≠ k.negated := by
  constructor
  · rintro ⟨l, hl, hnot⟩
    exact ⟨l, hl, l.not, hnot, rfl, by simp [Literal.not]⟩
  · rintro ⟨l, hl, k, hk, hatom, hsign⟩
    exact ⟨l, hl, eq_not_of_opposite hatom hsign ▸ hk⟩

theorem isTautology_ofList : (ofList ls).isTautology = true ↔
    (∃ l ∈ ls, ∃ k ∈ ls, l.atom = k.atom ∧ l.negated ≠ k.negated) ∨
      ∃ t, ⟨.eq t t, false⟩ ∈ ls := by
  rw [isTautology_iff (increasing_ofList ls)]
  simp only [mem_ofList, isReflexive_iff]
  refine or_congr exists_not_mem_iff ⟨?_, ?_⟩
  · rintro ⟨_, hl, t, rfl⟩
    exact ⟨t, hl⟩
  · rintro ⟨t, hl⟩
    exact ⟨_, hl, t, rfl⟩

/-- The clause of a list is the set of its literals: it has the same literals in strictly
increasing order, so two lists give one clause exactly if they have the same literals. The test
for tautologies looks at neighbours in this order, and is exact for the list however its literals
are ordered: two of them have one atom and opposite signs, or one is an equation `t = t`. -/
theorem ofList_exact (ls ks : List Literal) :
    (ofList ls = ofList ks ↔ ∀ l, l ∈ ls ↔ l ∈ ks) ∧
    (∀ l, l ∈ (ofList ls).literals ↔ l ∈ ls) ∧ Increasing (ofList ls).literals ∧
    ((ofList ls).isTautology = true ↔
      (∃ l ∈ ls, ∃ k ∈ ls, l.atom = k.atom ∧ l.negated ≠ k.negated) ∨
        ∃ t, ⟨.eq t t, false⟩ ∈ ls) :=
  ⟨ofList_eq_iff, fun _ => mem_ofList, increasing_ofList ls, isTautology_ofList⟩

/-! ## Operations -/

theorem normal_canonical (c : Clause) (σ : Symbols) : (c.canonical σ).1.Normal :=
  normal_ofList_map _ _

/-- Whatever clauses they are applied to, the operations on clauses give normal clauses, and
so does the conversion of formulas. -/
theorem operations_normal (σ : Symbols) (c d : Clause) :
    (∀ s, (c.instantiate s).Normal) ∧ (∀ ρ, (c.rename ρ).Normal) ∧ (c.canonical σ).1.Normal ∧
    (∀ e ∈ c.resolvents σ d, e.Normal) ∧ (∀ e ∈ c.factors σ, e.Normal) ∧
    (∀ e ∈ c.equalityResolvents, e.Normal) ∧ (∀ e ∈ c.paramodulants σ d, e.Normal) ∧
    ∀ f k s cs, (Clausifier.clausify f k s).1.1 = .ok cs → ∀ e ∈ cs.clauses, e.Normal := by
  refine ⟨fun s => normal_mapTerms _ c, fun ρ => normal_rename ρ c, normal_canonical c σ,
    ?_, ?_, ?_, ?_, ?_⟩
  · exact fun e he => (inferred_of_mem_resolvents he).normal
  · exact fun e he => (inferred_of_mem_factors he).normal
  · exact fun e he => (inferred_of_mem_equalityResolvents he).normal
  · exact fun e he => (inferred_of_mem_paramodulants he).normal
  · exact fun f k s cs hok e he => (Clausifier.normal_of_clausify hok e he).1

/-- `x = a ∨ y = b`. -/
def openEquations : Clause :=
  ⟨[⟨.eq (.var ⟨3⟩) (.const ⟨1⟩), false⟩, ⟨.eq (.var ⟨4⟩) (.const ⟨2⟩), false⟩]⟩

/-- `b = f(b)`. -/
def fixedPoint : Clause := ⟨[⟨.eq (.const ⟨2⟩) (.app ⟨0⟩ [.const ⟨2⟩]), false⟩]⟩

/-- `y = b ∨ a = f(b)`. -/
def turnedEquations : Clause :=
  ⟨[⟨.eq (.var ⟨4⟩) (.const ⟨2⟩), false⟩, ⟨.eq (.const ⟨1⟩) (.app ⟨0⟩ [.const ⟨2⟩]), false⟩]⟩

/-- `y = b ∨ a = b`. -/
def rewrittenEquations : Clause :=
  ⟨[⟨.eq (.var ⟨4⟩) (.const ⟨2⟩), false⟩, ⟨.eq (.const ⟨1⟩) (.const ⟨2⟩), false⟩]⟩

/-- With `f(b)` for `x` the first equation of `x = a ∨ y = b` is turned round and moves behind
the second one. If it rewrites the right side of `b = f(b)`, the result is turned round too. -/
theorem operations_normal_openEquations :
    openEquations.Normal ∧ fixedPoint.Normal ∧
    openEquations.instantiate (Substitution.empty.insert ⟨3⟩ (.app ⟨0⟩ [.const ⟨2⟩])) =
      turnedEquations ∧ turnedEquations.Normal ∧
    rewrittenEquations ∈ openEquations.paramodulants .empty fixedPoint ∧
    rewrittenEquations.Normal := by
  have hturned :
      openEquations.instantiate (Substitution.empty.insert ⟨3⟩ (.app ⟨0⟩ [.const ⟨2⟩])) =
        turnedEquations := by
    decide
  have hrewritten : rewrittenEquations ∈ openEquations.paramodulants .empty fixedPoint := by
    decide
  obtain ⟨hinstance, -, -, -, -, -, hparamodulants, -⟩ :=
    operations_normal .empty openEquations fixedPoint
  exact ⟨by decide, by decide, hturned, hturned ▸ hinstance _, hrewritten,
    hparamodulants _ hrewritten⟩

end Entailment.Clause
