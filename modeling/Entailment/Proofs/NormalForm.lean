import Entailment.Formula.NormalForm
import Entailment.Proofs.Truth
import Mathlib.Tactic.Tauto

/-! Normal forms keep meaning, free variables and symbols, and a formula in normal
form is left as it is. -/
namespace Entailment.Formula

universe u

variable {D : Type u} {I : Interpretation D}

theorem holds_basic (f : Formula) (v : Symbol → D) : f.basic.Holds I v ↔ f.Holds I v := by
  induction f generalizing v with
  | rel r args => rfl
  | eq l r => rfl
  | not f ih => exact not_congr (ih v)
  | and f g ihf ihg => exact and_congr (ihf v) (ihg v)
  | or f g ihf ihg => exact or_congr (ihf v) (ihg v)
  | imp f g ihf ihg =>
    simp only [basic, Holds, ihf, ihg]
    tauto
  | iff f g ihf ihg =>
    simp only [basic, Holds, ihf, ihg]
    tauto
  | all x f ih => exact forall_congr' fun d => ih _
  | ex x f ih => exact exists_congr fun d => ih _

/-- There are no implications and equivalences. -/
def IsBasic : Formula → Prop
  | .rel .. | .eq .. => True
  | .not f | .all _ f | .ex _ f => f.IsBasic
  | .and f g | .or f g => f.IsBasic ∧ g.IsBasic
  | .imp .. | .iff .. => False

theorem isBasic_basic (f : Formula) : f.basic.IsBasic := by
  induction f with
  | rel r args | eq l r => trivial
  | not f ih | all x f ih | ex x f ih => exact ih
  | and f g ihf ihg | or f g ihf ihg | imp f g ihf ihg => exact ⟨ihf, ihg⟩
  | iff f g ihf ihg => exact ⟨⟨ihf, ihg⟩, ihg, ihf⟩

theorem IsBasic.basic_eq {f : Formula} (h : f.IsBasic) : f.basic = f := by
  induction f with
  | rel r args | eq l r => rfl
  | not f ih | all x f ih | ex x f ih => rw [basic, ih h]
  | and f g ihf ihg | or f g ihf ihg => rw [basic, ihf h.1, ihg h.2]
  | imp f g | iff f g => exact h.elim

theorem free_basic {x : Symbol} {f : Formula} : f.basic.Free x ↔ f.Free x := by
  induction f with
  | rel r args => rfl
  | eq l r => rfl
  | not f ih => exact ih
  | and f g ihf ihg | or f g ihf ihg | imp f g ihf ihg => exact or_congr ihf ihg
  | iff f g ihf ihg =>
    simp only [basic, Free, ihf, ihg]
    tauto
  | all y f ih | ex y f ih => exact and_congr_right fun _ => ih

theorem mem_symbols_basic {s : Symbol} {f : Formula} : s ∈ f.basic.symbols ↔ s ∈ f.symbols := by
  induction f with
  | rel r args => rfl
  | eq l r => rfl
  | not f ih => exact ih
  | and f g ihf ihg | or f g ihf ihg | imp f g ihf ihg =>
    simp only [basic, symbols, List.mem_append, ihf, ihg]
  | iff f g ihf ihg =>
    simp only [basic, symbols, List.mem_append, ihf, ihg]
    tauto
  | all y f ih | ex y f ih => simp only [basic, symbols, List.mem_cons, ih]

/-- The truth of a formula or, when `negated`, of its negation. -/
def Signed (negated : Bool) (p : Prop) : Prop := if negated then ¬ p else p

theorem holds_pushNegation (negated : Bool) (f : Formula) (v : Symbol → D) :
    (f.pushNegation negated).Holds I v ↔ Signed negated (f.Holds I v) := by
  induction f generalizing negated v with
  | rel r args | eq l r => cases negated <;> rfl
  | not f ih =>
    rw [pushNegation, ih]
    cases negated <;> simp [Signed, Holds]
  | and f g ihf ihg | or f g ihf ihg | imp f g ihf ihg | iff f g ihf ihg =>
    cases negated <;> simp only [pushNegation, Holds, ihf, ihg, Signed, if_true, Bool.false_eq_true,
      if_false] <;> tauto
  | all x f ih | ex x f ih =>
    cases negated <;> simp [pushNegation, Holds, ih, Signed]

theorem free_pushNegation {x : Symbol} {negated : Bool} {f : Formula} :
    (f.pushNegation negated).Free x ↔ f.Free x := by
  induction f generalizing negated with
  | rel r args | eq l r => cases negated <;> rfl
  | not f ih =>
    rw [pushNegation]
    exact ih
  | and f g ihf ihg | or f g ihf ihg | imp f g ihf ihg | iff f g ihf ihg =>
    cases negated <;> simp only [pushNegation, Free, ihf, ihg] <;> tauto
  | all y f ih | ex y f ih => cases negated <;> exact and_congr_right fun _ => ih

theorem mem_symbols_pushNegation {s : Symbol} {negated : Bool} {f : Formula} :
    s ∈ (f.pushNegation negated).symbols ↔ s ∈ f.symbols := by
  induction f generalizing negated with
  | rel r args | eq l r => cases negated <;> rfl
  | not f ih =>
    rw [pushNegation]
    exact ih
  | and f g ihf ihg | or f g ihf ihg | imp f g ihf ihg | iff f g ihf ihg =>
    cases negated <;> simp only [pushNegation, symbols, List.mem_append, ihf, ihg] <;> tauto
  | all y f ih | ex y f ih => cases negated <;> simp only [pushNegation, symbols, List.mem_cons, ih]

/-- An implication or equivalence that is met on the way gives what comes of replacing
it first, in both polarities. -/
theorem pushNegation_basic (negated : Bool) (f : Formula) :
    f.basic.pushNegation negated = f.pushNegation negated := by
  induction f generalizing negated with
  | rel r args | eq l r => rfl
  | not f ih => rw [basic, pushNegation, pushNegation, ih]
  | and f g ihf ihg | or f g ihf ihg | imp f g ihf ihg | iff f g ihf ihg =>
    cases negated <;> simp only [basic, pushNegation, ihf, ihg, Bool.not_false, Bool.not_true]
  | all x f ih | ex x f ih => cases negated <;> simp only [basic, pushNegation, ih]

/-- An equivalence is rewritten before its negations are pushed down, and the pass goes on
with what comes of it. -/
theorem pushNegation_equivalence (negated : Bool) (f g : Formula) :
    (iff f g).pushNegation negated = (iff f g).basic.pushNegation negated :=
  (pushNegation_basic negated (.iff f g)).symm

/-- Negations stand on atoms only, and there are no implications and equivalences. -/
inductive IsNnf : Formula → Prop
  | rel (r : Symbol) (args : List Term) : IsNnf (.rel r args)
  | eq (l r : Term) : IsNnf (.eq l r)
  | notRel (r : Symbol) (args : List Term) : IsNnf (.not (.rel r args))
  | notEq (l r : Term) : IsNnf (.not (.eq l r))
  | and {f g : Formula} (hf : IsNnf f) (hg : IsNnf g) : IsNnf (.and f g)
  | or {f g : Formula} (hf : IsNnf f) (hg : IsNnf g) : IsNnf (.or f g)
  | all {f : Formula} (x : Symbol) (hf : IsNnf f) : IsNnf (.all x f)
  | ex {f : Formula} (x : Symbol) (hf : IsNnf f) : IsNnf (.ex x f)

theorem isNnf_pushNegation (negated : Bool) (f : Formula) : (f.pushNegation negated).IsNnf := by
  induction f generalizing negated with
  | rel r args => cases negated <;> constructor
  | eq l r => cases negated <;> constructor
  | not f ih =>
    rw [pushNegation]
    exact ih _
  | and f g ihf ihg | or f g ihf ihg | imp f g ihf ihg =>
    cases negated
    all_goals constructor
    all_goals apply_assumption
  | iff f g ihf ihg =>
    cases negated
    · exact .and (.or (ihf _) (ihg _)) (.or (ihg _) (ihf _))
    · exact .or (.and (ihf _) (ihg _)) (.and (ihg _) (ihf _))
  | all x f ih | ex x f ih =>
    cases negated
    all_goals constructor
    all_goals exact ih _

namespace IsNnf

variable {f : Formula}

theorem isBasic (h : f.IsNnf) : f.IsBasic := by
  induction h with
  | rel | eq | notRel | notEq => trivial
  | and _ _ ihf ihg | or _ _ ihf ihg => exact ⟨ihf, ihg⟩
  | all x _ ih | ex x _ ih => exact ih

theorem nnf_eq (h : f.IsNnf) : f.nnf = f := by
  unfold nnf
  induction h with
  | rel | eq | notRel | notEq => rfl
  | and _ _ ihf ihg | or _ _ ihf ihg => rw [pushNegation, ihf, ihg]
  | all x _ ih | ex x _ ih => rw [pushNegation, ih]

end IsNnf

/-- The negation normal form has the shape it is named after, means the same as the
formula wherever it is read, and is its own normal form. -/
theorem nnf_normalizes (f : Formula) :
    f.nnf.IsNnf ∧
    (∀ (D : Type u) (I : Interpretation D) (v : Symbol → D), f.nnf.Holds I v ↔ f.Holds I v) ∧
    f.nnf.nnf = f.nnf := by
  have hnnf := isNnf_pushNegation false f
  exact ⟨hnnf, fun D I v => holds_pushNegation false f v, hnnf.nnf_eq⟩

end Entailment.Formula
