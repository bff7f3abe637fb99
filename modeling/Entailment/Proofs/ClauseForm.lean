import Entailment.Proofs.Propositional

/-! The clause form of a formula. It depends only on the negation normal form,
whichever way implications and equivalences are removed. A conversion leaves
distinct clauses, none of which is empty or a tautology, and of a propositional
formula it leaves nothing exactly when the formula is valid. -/
namespace Entailment

namespace Formula

/-- The clauses of a formula, or of its negation, are those of the normal form. -/
theorem clauses_pushNegation (negated : Bool) (f : Formula) :
    (f.pushNegation negated).clauses false = f.clauses negated := by
  induction f generalizing negated with
  | rel r args | eq l r => cases negated <;> rfl
  | not f ih => rw [pushNegation, clauses, ih]
  | and f g ihf ihg | or f g ihf ihg | imp f g ihf ihg =>
    cases negated <;> simp only [pushNegation, clauses, ihf, ihg]
  | iff f g ihf ihg =>
    cases negated <;> simp only [pushNegation, clauses, ihf, ihg, bind_assoc, pure_bind]
  | all x f ih | ex x f ih => cases negated <;> simp only [pushNegation, clauses, ih]

/-- Implications and equivalences can be removed before negations are pushed inwards, on
the way, or while the clauses are read off. All ways agree, and once they are removed
there are none left to remove. -/
theorem nnf_basic_agree (f : Formula) :
    f.basic.nnf = f.nnf ∧ f.basic.basic = f.basic ∧ f.basic.IsBasic ∧
    ∀ negated, (f.pushNegation negated).clauses false = f.clauses negated :=
  ⟨pushNegation_basic false f, (isBasic_basic f).basic_eq, isBasic_basic f,
    fun negated => clauses_pushNegation negated f⟩

end Formula

namespace Clause

/-- A clause of relations without variables is false when exactly its negated atoms
are true, unless it is a tautology. -/
theorem exists_not_holds {c : Clause} (hc : c.Normal) (hground : ∀ l ∈ c.literals, l.atom.IsGround)
    (h : c.isTautology = false) :
    ∃ A : Atom → Bool, ∀ v, ¬ c.Holds (herbrand fun a => A a = true) v := by
  refine ⟨fun a => decide (⟨a, true⟩ ∈ c.literals), fun v => ?_⟩
  rintro ⟨⟨a, negated⟩, hl, hholds⟩
  have hatom := (hground _ hl).holds_herbrand
    (A := fun a => decide (⟨a, true⟩ ∈ c.literals) = true) (v := v)
  rw [decide_eq_true_iff] at hatom
  cases negated with
  | true => exact hholds (hatom.mpr hl)
  | false =>
    have htautology : c.isTautology = true :=
      (isTautology_iff hc.increasing).mpr (.inl ⟨_, hl, hatom.mp hholds⟩)
    rw [h] at htautology
    cases htautology

end Clause

namespace Clausifier

variable {f : Formula} {k : Clausifier} {s : Session} {cs : ClauseSet}

theorem nodup_of_clausify (hok : (clausify f k s).1.1 = .ok cs) : cs.clauses.Nodup := by
  obtain ⟨ds, -, rfl⟩ := exists_residue_of_clausify hok
  exact Clause.nodup_distinct _

theorem not_isTautology_of_clausify (hok : (clausify f k s).1.1 = .ok cs) :
    ∀ c ∈ cs.clauses, c.isTautology = false := by
  obtain ⟨ds, -, rfl⟩ := exists_residue_of_clausify hok
  exact fun c hc => (mem_residue.mp hc).2

theorem normal_of_clausify (hok : (clausify f k s).1.1 = .ok cs) :
    ∀ c ∈ cs.clauses, c.Normal ∧ c.literals ≠ [] := by
  obtain ⟨ds, hds, hcs⟩ := exists_clauses_of_clausify hok
  exact fun c hc => normal_of_skolemForm hds c ((hcs c).mp hc).1

theorem clausify_eq_nil_iff (hf : f.isPropositional = true)
    (hok : (clausify f k s).1.1 = .ok cs) :
    cs.clauses = [] ↔ ∀ A : Atom → Bool, f.value A = true := by
  constructor
  · intro hnil A
    rw [← Formula.holds_herbrand_iff_value hf A .var, holds_iff_of_clausify hf hok, hnil]
    simp
  · intro hvalid
    refine List.eq_nil_iff_forall_not_mem.mpr fun c hc => ?_
    have hatoms : c.AtomsIn f.atoms :=
      atomsIn_of_clausify (fun a ha => Formula.isGround_of_mem_atoms hf ha) (fun a ha => ha) hok
        c hc
    obtain ⟨A, hfalse⟩ := Clause.exists_not_holds hatoms.1
      (fun l hl => Formula.isGround_of_mem_atoms hf (hatoms.2 l hl))
      (not_isTautology_of_clausify hok c hc)
    have hholds := (Formula.holds_herbrand_iff_value hf A .var).mpr (hvalid A)
    exact hfalse .var ((holds_iff_of_clausify hf hok).mp hholds c hc)

/-- Of a propositional formula a conversion leaves no clause exactly when the formula is
true under every assignment. The clauses it leaves of any formula are all different, and
none of them is empty, holds a literal and its negation, or holds an equation `t = t`. -/
theorem clausify_residue (hok : (clausify f k s).1.1 = .ok cs) :
    (f.isPropositional = true → (cs.clauses = [] ↔ ∀ A : Atom → Bool, f.value A = true)) ∧
    cs.clauses.Nodup ∧
    ∀ c ∈ cs.clauses, c.literals ≠ [] ∧ c.isTautology = false ∧
      (∀ l ∈ c.literals, l.not ∉ c.literals) ∧ ∀ t, ⟨.eq t t, false⟩ ∉ c.literals := by
  refine ⟨fun hf => clausify_eq_nil_iff hf hok, nodup_of_clausify hok, fun c hc => ?_⟩
  obtain ⟨hnormal, hne⟩ := normal_of_clausify hok c hc
  have hfalse := not_isTautology_of_clausify hok c hc
  have hnot : ¬ c.isTautology = true := by simp [hfalse]
  obtain ⟨hcomplement, hreflexive⟩ :=
    not_or.mp (mt (Clause.isTautology_iff hnormal.increasing).mpr hnot)
  refine ⟨hne, hfalse, fun l hl hl' => hcomplement ⟨l, hl, hl'⟩, fun t ht => ?_⟩
  exact hreflexive ⟨_, ht, by simp [Clause.isReflexive]⟩

/-- `((P → Q) → P) → P`, where `P` and `Q` are the first names. -/
def peirce : Formula :=
  .imp (.imp (.imp (.rel ⟨0⟩ []) (.rel ⟨1⟩ [])) (.rel ⟨0⟩ [])) (.rel ⟨0⟩ [])

/-- `P ↔ (Q ↔ P)`. -/
def contingent : Formula := .iff (.rel ⟨0⟩ []) (.iff (.rel ⟨1⟩ []) (.rel ⟨0⟩ []))

/-- The clauses `¬P ∨ Q` and `P ∨ Q`: four of its six clauses are tautologies. -/
def contingentClauses : ClauseSet :=
  ⟨[⟨[⟨.rel ⟨0⟩ [], true⟩, ⟨.rel ⟨1⟩ [], false⟩]⟩, ⟨[⟨.rel ⟨0⟩ [], false⟩, ⟨.rel ⟨1⟩ [], false⟩]⟩]⟩

theorem clausify_residue_peirce :
    (clausify peirce new (.knowing ["P", "Q"])).1.1 = .ok ⟨[]⟩ ∧
    (∀ A : Atom → Bool, peirce.value A = true) ∧
    (clausify contingent new (.knowing ["P", "Q"])).1.1 = .ok contingentClauses ∧
    (¬ ∀ A : Atom → Bool, contingent.value A = true) ∧ contingentClauses.clauses.Nodup := by
  have hpeirce : (clausify peirce new (.knowing ["P", "Q"])).1.1 = .ok ⟨[]⟩ := by decide
  have hcontingent : (clausify contingent new (.knowing ["P", "Q"])).1.1 =
      .ok contingentClauses := by decide
  obtain ⟨hvalid, hnodup, -⟩ := clausify_residue hcontingent
  refine ⟨hpeirce, ((clausify_residue hpeirce).1 rfl).mp rfl, hcontingent, ?_, hnodup⟩
  exact fun hall => absurd ((hvalid rfl).mpr hall) (List.cons_ne_nil _ _)

end Clausifier

end Entailment
