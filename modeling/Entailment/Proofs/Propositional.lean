import Entailment.Proofs.KnowledgeBase
import Entailment.Proofs.Termination

/-! Proofs decide the propositional fragment. Formulas without quantifiers, variables
and equations are converted to clauses over their own atoms. There are finitely
many of these, so every search among them ends, and it ends with the answer of the
truth table. -/
namespace Entailment

open SessionM

namespace Term

theorem hasVar_of_isGround {t : Term} (h : t.isGround = true) (x : Symbol) :
    ¬ t.hasVar x = true := by
  induction t using rec_args with
  | var y => cases h
  | const c => simp
  | app f args ih =>
    rw [isGround, areGround_eq, List.all_eq_true] at h
    rw [hasVar_app]
    rintro ⟨t, ht, hx⟩
    exact ih t ht (h t ht) hx

theorem map_subst_of_areGround {ts : List Term} (h : areGround ts = true) (θ : Symbol → Term) :
    ts.map (subst θ) = ts := by
  rw [areGround_eq, List.all_eq_true] at h
  refine (List.map_congr_left fun t ht => ?_).trans (List.map_id ts)
  exact (subst_congr fun x hx => absurd hx (hasVar_of_isGround (h t ht) x)).trans (subst_var_eq t)

end Term

/-- A relation of terms without variables. -/
def Atom.IsGround (a : Atom) : Prop := a.isEq = false ∧ Term.areGround a.terms = true

namespace Atom.IsGround

variable {a : Atom}

theorem subst (h : a.IsGround) (θ : Symbol → Term) : Atom.subst θ a = a := by
  cases a with
  | rel r args => exact congrArg (Atom.rel r) (Term.map_subst_of_areGround h.2 θ)
  | eq l r => cases h.1

theorem mapTerms (h : a.IsGround) (θ : Symbol → Term) : a.mapTerms (Term.subst θ) = a := by
  cases a with
  | rel r args => exact h.subst θ
  | eq l r => cases h.1

theorem holds_herbrand (h : a.IsGround) {A : Atom → Prop} {v : Symbol → Term} :
    a.Holds (herbrand A) v ↔ A a := by
  have hliteral := Literal.holds_herbrand (l := ⟨a, false⟩) (A := A) (v := v) h.1
  rw [Literal.under, Literal.mapTerms, h.mapTerms] at hliteral
  exact hliteral

end Atom.IsGround

namespace Formula

/-- No quantifiers, no variables and no equations. -/
def isPropositional : Formula → Bool
  | .rel _ args => Term.areGround args
  | .eq .. | .all .. | .ex .. => false
  | .not f => f.isPropositional
  | .and f g | .or f g | .imp f g | .iff f g => f.isPropositional && g.isPropositional

/-- The truth value when the atoms have those of `A`. -/
def value (A : Atom → Bool) : Formula → Bool
  | .rel r args => A (.rel r args)
  | .eq l r => A (.eq l r)
  | .not f => !f.value A
  | .and f g => f.value A && g.value A
  | .or f g => f.value A || g.value A
  | .imp f g => !f.value A || g.value A
  | .iff f g => f.value A == g.value A
  | .all _ f | .ex _ f => f.value A

/-- Every assignment of truth values that makes all of `fs` true makes the goal true. -/
def Follows (fs : List Formula) (goal : Formula) : Prop :=
  ∀ A : Atom → Bool, (∀ f ∈ fs, f.value A = true) → goal.value A = true

variable {f g : Formula}

theorem isGround_of_mem_atoms (h : f.isPropositional = true) {a : Atom} (ha : a ∈ f.atoms) :
    a.IsGround := by
  induction f with
  | rel r args =>
    rw [List.mem_singleton.mp ha]
    exact ⟨rfl, h⟩
  | eq l r | all x f ih | ex x f ih => cases h
  | not f ih => exact ih h ha
  | and f g ihf ihg | or f g ihf ihg | imp f g ihf ihg | iff f g ihf ihg =>
    rw [isPropositional, Bool.and_eq_true] at h
    exact (List.mem_append.mp ha).elim (ihf h.1) (ihg h.2)

theorem isPropositional_basic (h : f.isPropositional = true) : f.basic.isPropositional = true := by
  induction f with
  | rel r args => exact h
  | eq l r | all x f ih | ex x f ih => cases h
  | not f ih => exact ih h
  | and f g ihf ihg | or f g ihf ihg | imp f g ihf ihg | iff f g ihf ihg =>
    rw [isPropositional, Bool.and_eq_true] at h
    simp [basic, isPropositional, ihf h.1, ihg h.2]

theorem isPropositional_pushNegation (h : f.isPropositional = true) (n : Bool) :
    (f.pushNegation n).isPropositional = true := by
  induction f generalizing n with
  | rel r args => cases n <;> exact h
  | eq l r | all x f ih | ex x f ih => cases h
  | not f ih =>
    rw [pushNegation]
    exact ih h _
  | and f g ihf ihg | or f g ihf ihg | imp f g ihf ihg | iff f g ihf ihg =>
    rw [isPropositional, Bool.and_eq_true] at h
    cases n <;> simp [pushNegation, isPropositional, ihf h.1, ihg h.2]

/-- Without variables and quantifiers there is nothing to change. -/
theorem eq_of_recast {g : Formula} (hfg : f.Recast g) (h : f.isPropositional = true) : g = f := by
  induction hfg with
  | rel θ r args => exact congrArg (rel r) (Term.map_subst_of_areGround h θ)
  | eq | all | ex | skolem => cases h
  | not _ ih => rw [ih h]
  | and _ _ ihf ihg | or _ _ ihf ihg | imp _ _ ihf ihg | iff _ _ ihf ihg =>
    rw [isPropositional, Bool.and_eq_true] at h
    rw [ihf h.1, ihg h.2]

theorem matrix_of_isPropositional (h : f.isPropositional = true) : f.matrix = f := by
  induction f with
  | rel r args | eq l r => rfl
  | all x f ih | ex x f ih => cases h
  | not f ih => rw [matrix, ih h]
  | and f g ihf ihg | or f g ihf ihg | imp f g ihf ihg | iff f g ihf ihg =>
    rw [isPropositional, Bool.and_eq_true] at h
    rw [matrix, ihf h.1, ihg h.2]

theorem holds_iff_value {D : Type} {I : Interpretation D} {v : Symbol → D} {A : Atom → Bool}
    (h : f.isPropositional = true) (hA : ∀ a ∈ f.atoms, a.Holds I v ↔ A a = true) :
    f.Holds I v ↔ f.value A = true := by
  induction f with
  | rel r args | eq l r => exact hA _ List.mem_cons_self
  | all x f ih | ex x f ih => cases h
  | not f ih => simp [Holds, value, ih h hA]
  | and f g ihf ihg | or f g ihf ihg | imp f g ihf ihg | iff f g ihf ihg =>
    rw [isPropositional, Bool.and_eq_true] at h
    obtain ⟨hf, hg⟩ := List.forall_mem_append.mp hA
    simp only [Holds, value, ihf h.1 hf, ihg h.2 hg]
    cases f.value A <;> cases g.value A <;> simp

theorem holds_herbrand_iff_value (h : f.isPropositional = true) (A : Atom → Bool)
    (v : Symbol → Term) : f.Holds (herbrand fun a => A a = true) v ↔ f.value A = true :=
  holds_iff_value h fun _ ha => (isGround_of_mem_atoms h ha).holds_herbrand

end Formula

/-- Sorted, with atoms of the list. -/
def Clause.AtomsIn (as : List Atom) (c : Clause) : Prop :=
  c.Normal ∧ ∀ l ∈ c.literals, l.atom ∈ as

theorem Clause.atomsIn_ofList {as : List Atom} (has : ∀ a ∈ as, a.IsGround) {ls : List Literal}
    (h : ∀ l ∈ ls, l.atom ∈ as) : (ofList ls).AtomsIn as := by
  refine ⟨normal_ofList fun l hl => ?_, fun l hl => h l (mem_ofList.mp hl)⟩
  exact Atom.ordered_of_isEq (has l.atom (h l hl)).1

/-- The literals with these atoms. -/
def signed (as : List Atom) : Finset Literal :=
  (as.flatMap fun a => [⟨a, false⟩, ⟨a, true⟩]).toFinset

theorem mem_signed {as : List Atom} {l : Literal} : l ∈ signed as ↔ l.atom ∈ as := by
  obtain ⟨a, n⟩ := l
  cases n <;> simp [signed]

namespace Saturation

variable {as : List Atom} {σ : Symbols}

theorem relational_atomsIn (h : ∀ a ∈ as, a.IsGround ∧ a.Ordinary σ) :
    Relational σ (Clause.AtomsIn as) where
  toDeductive := by
    refine (deductive_normal σ).and (deductive_literals (p := fun l => l.atom ∈ as) ?_ ?_)
    · intro l θ hl
      rwa [Literal.under, Literal.mapTerms, (h l.atom hl).1.mapTerms]
    · intro l r hlr
      cases (h _ hlr).1.1
  normal _ hc := hc.1
  relations _ hc l hl := (h _ (hc.2 l hl)).2.1
  relational _ hc l hl := (h _ (hc.2 l hl)).1.1
  answerless _ hc l hl := (h _ (hc.2 l hl)).2.2.2

theorem finitary_atomsIn (h : ∀ a ∈ as, a.IsGround ∧ a.Ordinary σ) :
    Finitary σ (signed as) (Clause.AtomsIn as) where
  toTame := (relational_atomsIn h).toTame
  vars c hc := by
    refine List.eq_nil_iff_forall_not_mem.mpr fun x hx => ?_
    obtain ⟨l, hl, t, ht, hx⟩ := Clause.mem_vars.mp hx
    have hground := (h _ (hc.2 l hl)).1.2
    rw [Term.areGround_eq, List.all_eq_true] at hground
    exact Term.hasVar_of_isGround (hground t ht) x hx
  literals c hc l hl := mem_signed.mpr (hc.2 l hl)

end Saturation

namespace Clausifier

variable {f : Formula} {k : Clausifier} {t : Session} {cs : ClauseSet}

theorem atomsIn_of_clausify {as : List Atom} (has : ∀ a ∈ as, a.IsGround)
    (hf : ∀ a ∈ f.atoms, a ∈ as) (hok : (k.clausify f t).1.1 = .ok cs) :
    ∀ c ∈ cs.clauses, c.AtomsIn as := by
  refine forall_clausify (p := fun _ a => a ∈ as) ?_ ?_ ?_ ?_
    (Formula.signs_of_atoms (fun a ha _ => hf a ha) false) hok
  · intro n a θ ha
    rwa [(has a ha).subst]
  · exact fun n r args h => Clause.atomsIn_ofList has (List.forall_mem_singleton.mpr h)
  · intro n l r h
    cases (has _ h).1
  · exact fun c d hc hd => Clause.atomsIn_ofList has (List.forall_mem_append.mpr ⟨hc.2, hd.2⟩)

/-- Without quantifiers there are no Skolem symbols, and the clauses are equivalent to
the formula. -/
theorem holds_iff_of_clausify {D : Type} {I : Interpretation D} {v : Symbol → D}
    (hf : f.isPropositional = true) (hok : (k.clausify f t).1.1 = .ok cs) :
    f.Holds I v ↔ ∀ c ∈ cs.clauses, c.Holds I v := by
  have hnnf : f.basic.nnf.isPropositional = true :=
    Formula.isPropositional_pushNegation (Formula.isPropositional_basic hf) false
  have hskolem : (skolemForm f k t.symbols).1 = f.basic.nnf :=
    Formula.eq_of_recast (recast_skolemForm f k t.symbols) hnnf
  obtain ⟨ds, hds, hcs⟩ := exists_clauses_of_clausify hok
  rw [hskolem] at hds
  have hclauses := Formula.allHold_clauses (I := I) (v := v) hds
  rw [Formula.matrix_of_isPropositional hnnf] at hclauses
  calc f.Holds I v
      ↔ f.basic.Holds I v := (Formula.holds_basic f v).symm
    _ ↔ f.basic.nnf.Holds I v := (Formula.holds_pushNegation false f.basic v).symm
    _ ↔ ∀ d ∈ ds, d.Holds I v := hclauses.symm
    _ ↔ ∀ c ∈ cs.clauses, c.Holds I v := by
      constructor
      · exact fun hall c hc => hall c ((hcs c).mp hc).1
      · intro hall d hd
        cases htautology : d.isTautology with
        | true => exact Clause.holds_of_isTautology htautology
        | false => exact hall d ((hcs d).mpr ⟨hd, htautology⟩)

end Clausifier

namespace KnowledgeBase

/-- The stage after formulas were offered as axioms. -/
def addAxioms (fs : List Formula) (s : Stage) : Stage :=
  fs.foldl (fun s f => (Call.addAxiom f).run s) s

/-- An axiom is refused, or it joins the entries together with its clauses. -/
theorem run_addAxiom (f : Formula) (s : Stage) :
    (((Call.addAxiom f).run s).base.entries = s.base.entries ∧
      ((Call.addAxiom f).run s).asserted = s.asserted) ∨
    ∃ cs, (s.base.clausifier.clausify f s.session).1.1 = .ok cs ∧
      ((Call.addAxiom f).run s).base.entries = s.base.entries ++ [⟨f, cs, .asserted⟩] ∧
      ((Call.addAxiom f).run s).asserted = s.asserted ++ [f] := by
  obtain ⟨t, kb, fs⟩ := s
  unfold Call.run KnowledgeBase.addAxiom
  rcases add_cases f .asserted kb t with ⟨e, hresult, hentries⟩ | ⟨cs, hok, hresult, hentries⟩
  · simp only [hresult]
    exact .inl ⟨hentries, trivial⟩
  · simp only [hresult]
    exact .inr ⟨cs, hok, hentries, trivial⟩

/-- The limits and the horizon stay as they are, and names stay known. -/
structure Continues (s s' : Stage) : Prop where
  limits : s'.base.limits = s.base.limits
  horizon : s'.session.horizon = s.session.horizon
  symbols : s.session.symbols ≤ s'.session.symbols

theorem continues_addAxiom (f : Formula) (s : Stage) : Continues s ((Call.addAxiom f).run s) := by
  obtain ⟨t, kb, fs⟩ := s
  have hhorizon : (kb.add f .asserted t).1.2.limits = kb.limits ∧
      (kb.add f .asserted t).2.horizon = (kb.clausifier.clausify f t).2.horizon := by
    unfold add
    rw [bind_apply]
    rcases kb.clausifier.clausify f t with ⟨⟨result, k⟩, t⟩
    cases result with
    | error e => exact ⟨rfl, rfl⟩
    | ok cs => exact ⟨rfl, rfl⟩
  exact ⟨hhorizon.1, hhorizon.2.trans (Clausifier.lasting_clausify f _ t),
    grows_add f .asserted kb t⟩

theorem continues_addAxioms (fs : List Formula) (s : Stage) : Continues s (addAxioms fs s) := by
  induction fs generalizing s with
  | nil => exact ⟨rfl, rfl, le_refl s.session.symbols⟩
  | cons f fs ih =>
    have hhead := continues_addAxiom f s
    have htail := ih ((Call.addAxiom f).run s)
    exact ⟨htail.limits.trans hhead.limits, htail.horizon.trans hhead.horizon,
      hhead.symbols.trans htail.symbols⟩

/-- The entries are the asserted formulas, each with equivalent clauses over the atoms
of the list. -/
structure Propositional (as : List Atom) (s : Stage) : Prop where
  formulas : s.base.formulas = s.asserted
  clauses : ∀ e ∈ s.base.entries, ∀ c ∈ e.clauses.clauses, c.AtomsIn as
  meaning : ∀ e ∈ s.base.entries, ∀ {D : Type} (I : Interpretation D) (v : Symbol → D),
    e.formula.Holds I v ↔ ∀ c ∈ e.clauses.clauses, c.Holds I v

namespace Propositional

variable {as : List Atom} {s : Stage} {f : Formula} {fs : List Formula}

theorem addAxiom (h : Propositional as s) (has : ∀ a ∈ as, a.IsGround)
    (hf : f.isPropositional = true) (hatoms : ∀ a ∈ f.atoms, a ∈ as) :
    Propositional as ((Call.addAxiom f).run s) := by
  rcases run_addAxiom f s with ⟨hentries, hasserted⟩ | ⟨cs, hok, hentries, hasserted⟩
  · refine ⟨?_, ?_, ?_⟩
    · rw [KnowledgeBase.formulas, hentries, hasserted]
      exact h.formulas
    · rw [hentries]
      exact h.clauses
    · rw [hentries]
      exact h.meaning
  · refine ⟨?_, ?_, ?_⟩
    · rw [KnowledgeBase.formulas, hentries, hasserted, List.map_append]
      exact congrArg (· ++ [f]) h.formulas
    · rw [hentries]
      refine List.forall_mem_append.mpr ⟨h.clauses, List.forall_mem_singleton.mpr ?_⟩
      exact Clausifier.atomsIn_of_clausify has hatoms hok
    · rw [hentries]
      refine List.forall_mem_append.mpr ⟨h.meaning, List.forall_mem_singleton.mpr ?_⟩
      exact fun I v => Clausifier.holds_iff_of_clausify hf hok

theorem addAxioms (h : Propositional as s) (has : ∀ a ∈ as, a.IsGround)
    (hfs : ∀ f ∈ fs, f.isPropositional = true) (hatoms : ∀ f ∈ fs, ∀ a ∈ f.atoms, a ∈ as) :
    Propositional as (addAxioms fs s) := by
  induction fs generalizing s with
  | nil => exact h
  | cons f fs ih =>
    obtain ⟨hf, hfs⟩ := List.forall_mem_cons.mp hfs
    obtain ⟨hfatoms, hatoms⟩ := List.forall_mem_cons.mp hatoms
    exact ih (h.addAxiom has hf hfatoms) hfs hatoms

theorem atomsIn (h : Propositional as s) : ∀ c ∈ s.base.clauses, c.AtomsIn as := by
  intro c hc
  obtain ⟨e, he, hc⟩ := List.mem_flatMap.mp hc
  exact h.clauses e he c hc

/-- The clauses of the base hold exactly when the asserted formulas do. -/
theorem holds_iff (h : Propositional as s) {D : Type} (I : Interpretation D) (v : Symbol → D) :
    (∀ c ∈ s.base.clauses, c.Holds I v) ↔ ∀ f ∈ s.asserted, f.Holds I v := by
  rw [← h.formulas]
  constructor
  · intro hall f hf
    obtain ⟨e, he, rfl⟩ := List.mem_map.mp hf
    exact (h.meaning e he I v).mpr fun c hc => hall c (List.mem_flatMap.mpr ⟨e, he, hc⟩)
  · intro hall c hc
    obtain ⟨e, he, hc⟩ := List.mem_flatMap.mp hc
    exact (h.meaning e he I v).mp (hall _ (List.mem_map_of_mem he)) c hc

end Propositional

section Decision

variable {goal : Formula}

/-- A formula that does not mention `$` has ordinary atoms if it has no equations. -/
theorem ordinary_of_plain {σ : Symbols} {f : Formula} (h : f.Plain σ) {a : Atom}
    (ha : a ∈ f.atoms) (hground : a.IsGround) : a.Ordinary σ := by
  cases a with
  | rel r args =>
    obtain ⟨hknown, hname⟩ := h r (Formula.mem_symbols_of_mem_atoms ha List.mem_cons_self)
    refine ⟨hknown, rfl, ?_⟩
    rw [Atom.isAnswer, beq_eq_false_iff_ne]
    intro heq
    rw [heq] at hname
    exact hname (by decide)
  | eq l r => cases hground.1

/-- An assignment under which the premises are true and the goal is false. -/
theorem exists_model_iff {s : Stage} {as : List Atom} (h : Propositional as s)
    (hfs : ∀ f ∈ s.asserted, f.isPropositional = true) (hgoal : goal.isPropositional = true)
    {cs : ClauseSet} (hok : (s.base.clausifier.clausify (.not goal) s.session).1.1 = .ok cs) :
    (∃ I : Interpretation Term, ∀ c ∈ s.base.clauses ++ cs.clauses, c.TrueIn I) ↔
      ¬ Formula.Follows s.asserted goal := by
  classical
  simp only [Formula.Follows, not_forall]
  constructor
  · rintro ⟨I, hI⟩
    let v : Symbol → Term := .var
    obtain ⟨hbase, hnegated⟩ := List.forall_mem_append.mp hI
    have hvalue {f : Formula} (hf : f.isPropositional = true) :
        f.Holds I v ↔ f.value (fun a => decide (a.Holds I v)) = true :=
      Formula.holds_iff_value hf fun a _ => by simp
    refine ⟨fun a => decide (a.Holds I v), fun f hf => ?_, fun htrue => ?_⟩
    · rw [← hvalue (hfs f hf)]
      exact (h.holds_iff I v).mp (fun c hc => hbase c hc v) f hf
    · have hnot : (Formula.not goal).Holds I v :=
        (Clausifier.holds_iff_of_clausify (f := .not goal) hgoal hok).mpr fun c hc => hnegated c hc v
      exact hnot ((hvalue hgoal).mpr htrue)
  · rintro ⟨A, hpremises, hfalse⟩
    refine ⟨herbrand fun a => A a = true, List.forall_mem_append.mpr ⟨?_, ?_⟩⟩
    · intro c hc v
      refine (h.holds_iff _ v).mpr (fun f hf => ?_) c hc
      exact (Formula.holds_herbrand_iff_value (hfs f hf) A v).mpr (hpremises f hf)
    · intro c hc v
      refine (Clausifier.holds_iff_of_clausify (f := .not goal) hgoal hok).mp ?_ c hc
      exact fun htrue => hfalse ((Formula.holds_herbrand_iff_value hgoal A v).mp htrue)

/-- The search for a proof ends, in saturation exactly when the goal does not follow. -/
theorem Propositional.prove_eq {s : Stage} {as : List Atom} (h : Propositional as s)
    (has : ∀ a ∈ as, a.IsGround ∧ a.Ordinary s.session.symbols)
    (hfs : ∀ f ∈ s.asserted, f.isPropositional = true) (hgoal : goal.isPropositional = true)
    (hatoms : ∀ a ∈ goal.atoms, a ∈ as) (htimeout : s.base.limits.timeout = none)
    (hlimit : 2 ^ (signed as).card < s.base.limits.maxIterations.getD s.session.horizon)
    {cs : ClauseSet} (hok : (s.base.clausifier.clausify (.not goal) s.session).1.1 = .ok cs) :
    (s.base.prove goal s.session).1.1 = .ok .entailed ∧ Formula.Follows s.asserted goal ∨
      (s.base.prove goal s.session).1.1 = .ok .notEntailed ∧ ¬ Formula.Follows s.asserted goal := by
  have hmodel := exists_model_iff h hfs hgoal hok
  have hresult := (prove_of_clausify s.base.clauses s.base.limits hok).1
  have hlater (a : Atom) (ha : a ∈ as) : a.IsGround ∧
      a.Ordinary (s.base.clausifier.clausify (.not goal) s.session).2.symbols :=
    (has a ha).imp_right fun h => h.mono (Clausifier.le_clausify _ _ _)
  have hclauses : ∀ c ∈ s.base.clauses ++ cs.clauses, c.AtomsIn as :=
    List.forall_mem_append.mpr ⟨h.atomsIn,
      Clausifier.atomsIn_of_clausify (f := .not goal) (fun a ha => (has a ha).1) hatoms hok⟩
  have hfinitary := Saturation.finitary_atomsIn hlater
  cases hend : (Saturation.refute (s.base.clauses ++ cs.clauses) s.base.limits
    (s.base.clausifier.clausify (.not goal) s.session).2).1.1 with
  | contradiction =>
    rw [hend] at hresult
    refine .inl ⟨hresult, not_not.mp fun hnot => ?_⟩
    obtain ⟨I, hI⟩ := hmodel.mpr hnot
    obtain ⟨cs', hok', hunsat⟩ := unsatisfiable_of_prove hresult
    obtain rfl : cs = cs' := Except.ok.inj (hok.symm.trans hok')
    exact hunsat I hI
  | saturated =>
    rw [hend] at hresult
    refine .inr ⟨hresult, hmodel.mp ?_⟩
    exact Saturation.exists_model_of_refute (Saturation.relational_atomsIn hlater) hclauses
      (hfinitary.room _) hend
  | exhausted =>
    refine absurd hend (Saturation.refute_ne_exhausted hfinitary hclauses htimeout ?_)
    rwa [Clausifier.lasting_clausify]

/-- On propositional formulas a proof gives the answer of the truth table, if there are
selections enough: as many as the limits allow, or up to the horizon where they set
no bound. -/
theorem prove_decides (fs : List Formula) (goal : Formula)
    (hprop : ∀ f ∈ goal :: fs, f.isPropositional = true) :
    ∃ n, ∀ (t : Session) (limits : Limits) (s : Stage), s = addAxioms fs ⟨t, new limits, []⟩ →
      (∀ f ∈ goal :: fs, f.Plain t.symbols) → s.asserted = fs →
      (∃ cs, (s.base.clausifier.clausify (.not goal) s.session).1.1 = .ok cs) →
      limits.timeout = none → n ≤ limits.maxIterations.getD t.horizon →
      (Formula.Follows fs goal → (s.base.prove goal s.session).1.1 = .ok .entailed) ∧
      (¬ Formula.Follows fs goal → (s.base.prove goal s.session).1.1 = .ok .notEntailed) := by
  let as := (goal :: fs).flatMap Formula.atoms
  have hmem {f : Formula} (hf : f ∈ goal :: fs) (a : Atom) (ha : a ∈ f.atoms) : a ∈ as :=
    List.mem_flatMap.mpr ⟨f, hf, ha⟩
  have hground (a : Atom) (ha : a ∈ as) : a.IsGround := by
    obtain ⟨f, hf, ha⟩ := List.mem_flatMap.mp ha
    exact Formula.isGround_of_mem_atoms (hprop f hf) ha
  have hfs (f : Formula) (hf : f ∈ fs) := hprop f (List.mem_cons_of_mem goal hf)
  refine ⟨2 ^ (signed as).card + 1, ?_⟩
  rintro t limits s rfl hplain hasserted ⟨cs, hok⟩ htimeout hlimit
  have hstart : Propositional as ⟨t, new limits, []⟩ := ⟨rfl, nofun, nofun⟩
  have h := hstart.addAxioms hground hfs fun f hf => hmem (List.mem_cons_of_mem goal hf)
  obtain ⟨hlimits, hhorizon, hle⟩ := continues_addAxioms fs ⟨t, new limits, []⟩
  have hordinary (a : Atom) (ha : a ∈ as) : a.IsGround ∧
      a.Ordinary (addAxioms fs ⟨t, new limits, []⟩).session.symbols := by
    obtain ⟨f, hf, ha'⟩ := List.mem_flatMap.mp ha
    exact ⟨hground a ha, (ordinary_of_plain (hplain f hf) ha' (hground a ha)).mono hle⟩
  have hdecided := h.prove_eq hordinary (by rwa [hasserted]) (hprop goal List.mem_cons_self)
    (hmem List.mem_cons_self) (by rwa [hlimits]) (by rwa [hlimits, hhorizon]) hok
  rw [hasserted] at hdecided
  rcases hdecided with ⟨hresult, hfollows⟩ | ⟨hresult, hnot⟩
  · exact ⟨fun _ => hresult, fun hnot => absurd hfollows hnot⟩
  · exact ⟨fun hfollows => absurd hfollows hnot, fun _ => hresult⟩

/-- The formulas `P ∨ Q` and `¬P`, where `P` and `Q` are the first names. -/
def syllogism : List Formula := [.or (.rel ⟨0⟩ []) (.rel ⟨1⟩ []), .not (.rel ⟨0⟩ [])]

/-- With selections enough, a base finds that they entail `Q` and that they do not
entail `P`. -/
theorem prove_decides_syllogism :
    ∃ n, ∀ m ≥ n, ∀ s, s = addAxioms syllogism ⟨.knowing ["P", "Q"], new ⟨some m, none⟩, []⟩ →
      (s.base.prove (.rel ⟨1⟩ []) s.session).1.1 = .ok .entailed ∧
      (s.base.prove (.rel ⟨0⟩ []) s.session).1.1 = .ok .notEntailed := by
  obtain ⟨n, hn⟩ := prove_decides syllogism (.rel ⟨1⟩ []) (by decide)
  obtain ⟨k, hk⟩ := prove_decides syllogism (.rel ⟨0⟩ []) (by decide)
  have hplain : ∀ f ∈ .rel ⟨1⟩ [] :: .rel ⟨0⟩ [] :: syllogism,
      f.Plain (Session.knowing ["P", "Q"]).symbols := by
    unfold Formula.Plain
    decide
  obtain ⟨hQ, hP, hpremises⟩ := List.forall_mem_cons.mp hplain |>.imp_right List.forall_mem_cons.mp
  refine ⟨max n k, ?_⟩
  rintro m hm s rfl
  refine ⟨(hn _ ⟨some m, none⟩ _ rfl (List.forall_mem_cons.mpr ⟨hQ, hpremises⟩) rfl ⟨_, rfl⟩ rfl
      ((le_max_left n k).trans hm)).1 ?_,
    (hk _ ⟨some m, none⟩ _ rfl (List.forall_mem_cons.mpr ⟨hP, hpremises⟩) rfl ⟨_, rfl⟩ rfl
      ((le_max_right n k).trans hm)).2 ?_⟩
  · intro A hA
    have hor := hA _ List.mem_cons_self
    have hnot := hA _ (List.mem_cons_of_mem _ List.mem_cons_self)
    simp only [Formula.value, Bool.not_eq_true'] at hor hnot ⊢
    rwa [hnot, Bool.false_or] at hor
  · -- Only `Q` is true in the countermodel.
    intro hfollows
    cases hfollows (fun a => a = .rel ⟨1⟩ []) (by decide)

end Decision

end KnowledgeBase

end Entailment
