import Entailment.Proofs.Interpretation
import Mathlib.Tactic.ByContra

/-! Truth of formulas and of clauses in an interpretation. -/
namespace Entailment

universe u

namespace Formula

/-- All symbols of a formula, those of its variables and quantifiers included. -/
def symbols : Formula → List Symbol
  | .rel r args => r :: Term.symbolsAll args
  | .eq l r => l.symbols ++ r.symbols
  | .not f => f.symbols
  | .and f g | .or f g | .imp f g | .iff f g => f.symbols ++ g.symbols
  | .all x f | .ex x f => x :: f.symbols

/-- The variable occurs outside the scope of its quantifiers. -/
def Free (x : Symbol) : Formula → Prop
  | .rel _ args => ∃ t ∈ args, t.hasVar x = true
  | .eq l r => l.hasVar x = true ∨ r.hasVar x = true
  | .not f => f.Free x
  | .and f g | .or f g | .imp f g | .iff f g => f.Free x ∨ g.Free x
  | .all y f | .ex y f => x ≠ y ∧ f.Free x

theorem mem_symbols_of_free {x : Symbol} {f : Formula} (h : f.Free x) : x ∈ f.symbols := by
  induction f with
  | rel r args =>
    obtain ⟨t, ht, hx⟩ := h
    exact List.mem_cons_of_mem r (Term.mem_symbolsAll.mpr ⟨t, ht, Term.mem_symbols_of_hasVar hx⟩)
  | eq l r =>
    rw [symbols, List.mem_append]
    exact h.imp Term.mem_symbols_of_hasVar Term.mem_symbols_of_hasVar
  | not f ih => exact ih h
  | and f g ihf ihg | or f g ihf ihg | imp f g ihf ihg | iff f g ihf ihg =>
    rw [symbols, List.mem_append]
    exact h.imp ihf ihg
  | all y f ih | ex y f ih => exact List.mem_cons_of_mem y (ih h.2)

theorem free_foldr_all {xs : List Symbol} {f : Formula} {x : Symbol} :
    (xs.foldr all f).Free x ↔ x ∉ xs ∧ f.Free x := by
  induction xs with
  | nil => simp
  | cons y xs ih => simp [Free, ih, and_assoc]

theorem mem_symbols_foldr_all {xs : List Symbol} {f : Formula} {a : Symbol} :
    a ∈ (xs.foldr all f).symbols ↔ a ∈ xs ∨ a ∈ f.symbols := by
  induction xs with
  | nil => simp
  | cons x xs ih => simp [symbols, ih, or_assoc]

variable {D : Type u}

/-- Truth when the free variables have the values of `v`. -/
def Holds (I : Interpretation D) : Formula → (Symbol → D) → Prop
  | .rel r args, v => I.rel r (args.map (Term.eval I v))
  | .eq l r, v => l.eval I v = r.eval I v
  | .not f, v => ¬ f.Holds I v
  | .and f g, v => f.Holds I v ∧ g.Holds I v
  | .or f g, v => f.Holds I v ∨ g.Holds I v
  | .imp f g, v => f.Holds I v → g.Holds I v
  | .iff f g, v => f.Holds I v ↔ g.Holds I v
  | .all x f, v => ∀ d, f.Holds I (Function.update v x d)
  | .ex x f, v => ∃ d, f.Holds I (Function.update v x d)

/-- Truth for all values of the free variables, of which a closed formula has none. -/
def TrueIn (I : Interpretation D) (f : Formula) : Prop := ∀ v, f.Holds I v

theorem update_congr {v w : Symbol → D} {f : Formula} {y : Symbol} (d : D)
    (h : ∀ x, x ≠ y ∧ f.Free x → v x = w x) (x : Symbol) (hx : f.Free x) :
    Function.update v y d x = Function.update w y d x := by
  by_cases hxy : x = y
  · rw [hxy, Function.update_self, Function.update_self]
  · rw [Function.update_of_ne hxy, Function.update_of_ne hxy, h x ⟨hxy, hx⟩]

theorem holds_congr {P : Symbol → Prop} {I J : Interpretation D} {v w : Symbol → D} {f : Formula}
    (hI : I.AgreeOn P J) (hf : ∀ s ∈ f.symbols, P s) (hv : ∀ x, f.Free x → v x = w x) :
    f.Holds I v ↔ f.Holds J w := by
  induction f generalizing v w with
  | rel r args =>
    have hargs : args.map (Term.eval I v) = args.map (Term.eval J w) := by
      apply List.map_congr_left
      intro t ht
      exact Term.eval_congr hI
        (fun s hs => hf s (List.mem_cons_of_mem r (Term.mem_symbolsAll.mpr ⟨t, ht, hs⟩)))
        (fun x hx => hv x ⟨t, ht, hx⟩)
    rw [Holds, Holds, hargs, hI.rel]
  | eq l r =>
    have hl := Term.eval_congr hI (fun s hs => hf s (List.mem_append_left _ hs))
      fun x hx => hv x (.inl hx)
    have hr := Term.eval_congr hI (fun s hs => hf s (List.mem_append_right _ hs))
      fun x hx => hv x (.inr hx)
    rw [Holds, Holds, hl, hr]
  | not f ih => exact not_congr (ih hf hv)
  | and f g ihf ihg | or f g ihf ihg | imp f g ihf ihg | iff f g ihf ihg =>
    have hl := ihf (fun s hs => hf s (List.mem_append_left _ hs)) fun x hx => hv x (.inl hx)
    have hr := ihg (fun s hs => hf s (List.mem_append_right _ hs)) fun x hx => hv x (.inr hx)
    simp only [Holds, hl, hr]
  | all y f ih =>
    exact forall_congr' fun d =>
      ih (fun s hs => hf s (List.mem_cons_of_mem y hs)) (update_congr d hv)
  | ex y f ih =>
    exact exists_congr fun d =>
      ih (fun s hs => hf s (List.mem_cons_of_mem y hs)) (update_congr d hv)

theorem holds_congr_valuation {I : Interpretation D} {v w : Symbol → D} {f : Formula}
    (hv : ∀ x, f.Free x → v x = w x) : f.Holds I v ↔ f.Holds I w :=
  holds_congr (P := fun _ => True) (.refl _ I) (fun _ _ => trivial) hv

theorem holds_congr_interpretation {P : Symbol → Prop} {I J : Interpretation D} {f : Formula}
    (hI : I.AgreeOn P J) (hf : ∀ s ∈ f.symbols, P s) (v : Symbol → D) :
    f.Holds I v ↔ f.Holds J v :=
  holds_congr hI hf fun _ _ => rfl

theorem trueIn_congr {P : Symbol → Prop} {I J : Interpretation D} {f : Formula}
    (hI : I.AgreeOn P J) (hf : ∀ s ∈ f.symbols, P s) : f.TrueIn I ↔ f.TrueIn J :=
  forall_congr' (holds_congr_interpretation hI hf)

/-- A closed formula is true or its negation is. -/
theorem trueIn_not_iff {I : Interpretation D} {f : Formula} (hf : ∀ x, ¬ f.Free x) :
    (Formula.not f).TrueIn I ↔ ¬ f.TrueIn I := by
  constructor
  · intro h htrue
    exact h (fun _ => I.const default) (htrue _)
  · intro h v hv
    exact h fun w => (holds_congr_valuation fun x hx => absurd hx (hf x)).mp hv

end Formula

namespace Atom

/-- All symbols of an atom. -/
def symbols : Atom → List Symbol
  | .rel r args => r :: Term.symbolsAll args
  | .eq l r => l.symbols ++ r.symbols

theorem mem_symbols_of_mem_terms {a : Atom} {t : Term} {s : Symbol} (ht : t ∈ a.terms)
    (hs : s ∈ t.symbols) : s ∈ a.symbols := by
  cases a with
  | rel r args => exact List.mem_cons_of_mem r (Term.mem_symbolsAll.mpr ⟨t, ht, hs⟩)
  | eq l r =>
    simp only [terms, List.mem_cons, List.not_mem_nil, or_false] at ht
    rw [symbols, List.mem_append]
    rcases ht with rfl | rfl
    · exact .inl hs
    · exact .inr hs

variable {D : Type u}

def Holds (I : Interpretation D) (v : Symbol → D) : Atom → Prop
  | .rel r args => I.rel r (args.map (Term.eval I v))
  | .eq l r => l.eval I v = r.eval I v

variable {I J : Interpretation D} {v w : Symbol → D}

@[simp] theorem holds_equation (l r : Term) :
    (equation l r).Holds I v ↔ l.eval I v = r.eval I v := by
  unfold equation
  split
  · exact eq_comm
  · rfl

theorem holds_mapTerms_subst (θ : Symbol → Term) (a : Atom) :
    (a.mapTerms (Term.subst θ)).Holds I v ↔ a.Holds I fun x => (θ x).eval I v := by
  cases a with
  | rel r args =>
    rw [mapTerms, Holds, Holds, List.map_map]
    exact iff_of_eq (congrArg (I.rel r) (List.map_congr_left fun t _ => Term.eval_subst I v θ t))
  | eq l r => rw [mapTerms, holds_equation, Holds, Term.eval_subst, Term.eval_subst]

theorem holds_congr {P : Symbol → Prop} {a : Atom} (hI : I.AgreeOn P J)
    (ha : ∀ s ∈ a.symbols, P s) (hv : ∀ t ∈ a.terms, ∀ x, t.hasVar x = true → v x = w x) :
    a.Holds I v ↔ a.Holds J w := by
  have hterm (t : Term) (ht : t ∈ a.terms) : t.eval I v = t.eval J w :=
    Term.eval_congr hI (fun s hs => ha s (mem_symbols_of_mem_terms ht hs)) (hv t ht)
  cases a with
  | rel r args =>
    rw [Holds, Holds, hI.rel]
    exact iff_of_eq (congrArg (J.rel r) (List.map_congr_left hterm))
  | eq l r =>
    rw [Holds, Holds, hterm l (by simp [terms]), hterm r (by simp [terms])]

end Atom

namespace Literal

variable {D : Type u} {I J : Interpretation D} {v : Symbol → D}

def Holds (I : Interpretation D) (v : Symbol → D) (l : Literal) : Prop :=
  if l.negated then ¬ l.atom.Holds I v else l.atom.Holds I v

theorem holds_mapTerms_subst (θ : Symbol → Term) (l : Literal) :
    (l.mapTerms (Term.subst θ)).Holds I v ↔ l.Holds I fun x => (θ x).eval I v := by
  simp only [Holds, mapTerms, Atom.holds_mapTerms_subst]

theorem holds_congr {P : Symbol → Prop} {l : Literal} (hI : I.AgreeOn P J)
    (hl : ∀ s ∈ l.atom.symbols, P s) : l.Holds I v ↔ l.Holds J v := by
  have hatom : l.atom.Holds I v ↔ l.atom.Holds J v :=
    Atom.holds_congr hI hl fun _ _ _ _ => rfl
  simp only [Holds, hatom]

/-- Of two literals with one atom and opposite signs exactly one holds. -/
theorem holds_iff_not_of_opposite {l k : Literal} (hatom : l.atom.Holds I v ↔ k.atom.Holds I v)
    (hsign : l.negated ≠ k.negated) : l.Holds I v ↔ ¬ k.Holds I v := by
  unfold Holds
  cases hl : l.negated <;> cases hk : k.negated <;> simp_all

end Literal

theorem mem_insertLiteral {l k : Literal} {ls : List Literal} :
    k ∈ insertLiteral l ls ↔ k = l ∨ k ∈ ls := by
  induction ls with
  | nil => simp [insertLiteral]
  | cons m ms ih =>
    rw [insertLiteral]
    split
    · rw [List.mem_cons]
    · rename_i heq
      rw [Std.LawfulEqOrd.eq_of_compare heq, List.mem_cons]
      exact ⟨.inr, fun h => h.elim .inl id⟩
    · rw [List.mem_cons, ih, List.mem_cons]
      exact or_left_comm

namespace Clause

@[simp] theorem mem_ofList {l : Literal} {ls : List Literal} :
    l ∈ (ofList ls).literals ↔ l ∈ ls := by
  unfold ofList
  induction ls with
  | nil => rfl
  | cons k ks ih => simp only [List.foldr_cons, mem_insertLiteral, ih, List.mem_cons]

/-- All symbols of a clause. -/
def symbols (c : Clause) : List Symbol := c.literals.flatMap fun l => l.atom.symbols

theorem mem_symbols {c : Clause} {s : Symbol} :
    s ∈ c.symbols ↔ ∃ l ∈ c.literals, s ∈ l.atom.symbols :=
  List.mem_flatMap

variable {D : Type u} {I J : Interpretation D} {v : Symbol → D}

def Holds (I : Interpretation D) (v : Symbol → D) (c : Clause) : Prop :=
  ∃ l ∈ c.literals, l.Holds I v

/-- Truth of the universal closure. -/
def TrueIn (I : Interpretation D) (c : Clause) : Prop := ∀ v, c.Holds I v

theorem holds_ofList {ls : List Literal} :
    (ofList ls).Holds I v ↔ ∃ l ∈ ls, l.Holds I v := by
  simp only [Holds, mem_ofList]

theorem not_holds_of_isEmpty {c : Clause} (h : c.isEmpty = true) : ¬ c.Holds I v := by
  rintro ⟨l, hl, -⟩
  rw [isEmpty, List.isEmpty_iff] at h
  rw [h] at hl
  cases hl

theorem holds_mapTerms_subst (θ : Symbol → Term) (c : Clause) :
    (c.mapTerms (Term.subst θ)).Holds I v ↔ c.Holds I fun x => (θ x).eval I v := by
  rw [mapTerms, holds_ofList]
  constructor
  · rintro ⟨_, hl, h⟩
    obtain ⟨l, hmem, rfl⟩ := List.mem_map.mp hl
    exact ⟨l, hmem, (Literal.holds_mapTerms_subst θ l).mp h⟩
  · rintro ⟨l, hmem, h⟩
    exact ⟨_, List.mem_map_of_mem hmem, (Literal.holds_mapTerms_subst θ l).mpr h⟩

/-- Instances of a true clause are true. -/
theorem TrueIn.mapTerms_subst {c : Clause} (h : c.TrueIn I) (θ : Symbol → Term) :
    (c.mapTerms (Term.subst θ)).TrueIn I :=
  fun _ => (holds_mapTerms_subst θ c).mpr (h _)

theorem trueIn_congr {P : Symbol → Prop} {c : Clause} (hI : I.AgreeOn P J)
    (hc : ∀ s ∈ c.symbols, P s) : c.TrueIn I ↔ c.TrueIn J := by
  refine forall_congr' fun v => exists_congr fun l => and_congr_right fun hl => ?_
  exact Literal.holds_congr hI fun s hs => hc s (mem_symbols.mpr ⟨l, hl, hs⟩)

end Clause

end Entailment
