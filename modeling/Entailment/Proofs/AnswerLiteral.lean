import Entailment.Proofs.Answers
import Entailment.Proofs.Polarity
import Entailment.Search.Query

/-! Answer literals. A query refutes the negation of its goal, weakened by a literal of
the answer relation with the variables asked for. That formula is true where answers
are the values for which the goal holds, so a clause of answers alone tells such
values. -/
namespace Entailment

universe u

open SessionM Saturation

section Relations

variable {D : Type u} {I : Interpretation D} {R : Symbol → List D → Prop} {v : Symbol → D}

/-- The interpretation with another meaning of the relations. -/
def Interpretation.withRel (I : Interpretation D) (R : Symbol → List D → Prop) :
    Interpretation D :=
  { I with rel := R }

theorem Term.eval_withRel (t : Term) : t.eval (I.withRel R) v = t.eval I v := by
  induction t using rec_args with
  | var x | const c => rfl
  | app f args ih =>
    rw [eval_app, eval_app]
    exact congrArg (I.fn f) (List.map_congr_left ih)

/-- The relation of the atom has the same meaning. -/
def Atom.KeepsRel (I : Interpretation D) (R : Symbol → List D → Prop) : Atom → Prop
  | .rel r _ => R r = I.rel r
  | .eq .. => True

theorem Atom.holds_withRel {a : Atom} (h : a.KeepsRel I R) :
    a.Holds (I.withRel R) v ↔ a.Holds I v := by
  cases a with
  | rel r args =>
    have hargs : args.map (Term.eval (I.withRel R) v) = args.map (Term.eval I v) :=
      List.map_congr_left fun t _ => Term.eval_withRel t
    rw [Holds, Holds, hargs]
    exact iff_of_eq (congrFun h _)
  | eq l r => rw [Holds, Holds, Term.eval_withRel, Term.eval_withRel]

theorem Formula.holds_withRel {f : Formula} (h : ∀ a ∈ f.atoms, a.KeepsRel I R) :
    f.Holds (I.withRel R) v ↔ f.Holds I v := by
  induction f generalizing v with
  | rel r args | eq l r => exact Atom.holds_withRel (h _ List.mem_cons_self)
  | not f ih => exact not_congr (ih h)
  | all x f ih => exact forall_congr' fun d => ih h
  | ex x f ih => exact exists_congr fun d => ih h
  | and f g ihf ihg | or f g ihf ihg | imp f g ihf ihg | iff f g ihf ihg =>
    obtain ⟨hf, hg⟩ := List.forall_mem_append.mp h
    simp only [Holds, ihf hf, ihg hg]

theorem Clause.trueIn_withRel {c : Clause} (h : ∀ l ∈ c.literals, l.atom.KeepsRel I R) :
    c.TrueIn (I.withRel R) ↔ c.TrueIn I := by
  refine forall_congr' fun v => exists_congr fun l => and_congr_right fun hl => ?_
  simp only [Literal.Holds, Atom.holds_withRel (h l hl)]

end Relations

namespace Formula

variable {xs : List Symbol} {f g : Formula} {x : Symbol}

theorem foldr_peelExistentials (f : Formula) :
    f.peelExistentials.1.foldr .ex f.peelExistentials.2 = f := by
  induction f with
  | ex x f ih => exact congrArg (Formula.ex x) ih
  | _ => rfl

theorem atoms_peelExistentials (f : Formula) : f.peelExistentials.2.atoms = f.atoms := by
  induction f with
  | ex x f ih => exact ih
  | _ => rfl

theorem mem_symbols_of_peelExistentials
    (h : x ∈ f.peelExistentials.1 ∨ x ∈ f.peelExistentials.2.symbols) : x ∈ f.symbols := by
  induction f with
  | ex y f ih =>
    rcases h with h | h
    · exact (List.mem_cons.mp h).elim (fun heq => heq ▸ List.mem_cons_self)
        fun h => List.mem_cons_of_mem y (ih (.inl h))
    · exact List.mem_cons_of_mem y (ih (.inr h))
  | _ => exact h.elim (fun h => absurd h List.not_mem_nil) id

variable {D : Type u} {I : Interpretation D}

theorem holds_foldr_all (h : ∀ v, g.Holds I v) (v : Symbol → D) : (xs.foldr all g).Holds I v := by
  induction xs generalizing v with
  | nil => exact h v
  | cons x xs ih => exact fun d => ih _

theorem holds_foldr_ex {v w : Symbol → D} (hw : ∀ x, x ∉ xs → w x = v x) (h : g.Holds I w) :
    (xs.foldr ex g).Holds I v := by
  induction xs generalizing v with
  | nil =>
    rwa [← funext fun x => hw x List.not_mem_nil]
  | cons y xs ih =>
    refine ⟨w y, ih fun x hx => ?_⟩
    by_cases hxy : x = y
    · rw [hxy, Function.update_self]
    · rw [Function.update_of_ne hxy]
      exact hw x (List.not_mem_cons_of_ne_of_not_mem hxy hx)

theorem signs_foldr_all {p : Bool → Atom → Prop} {n : Bool} (h : g.Signs p n) :
    (xs.foldr all g).Signs p n := by
  induction xs with
  | nil => exact h
  | cons x xs ih => exact ih

theorem tagged_foldr_all {p : Bool → Atom → Prop} (h : g.Tagged p) :
    (xs.foldr all g).Tagged p := by
  induction xs with
  | nil => exact h
  | cons x xs ih => exact ih

end Formula

/-- The table knows the relation of the atom. If it is that of answers, it is
`answer` and not negated. -/
def Atom.Announces (σ : Symbols) (answer : Symbol) (negated : Bool) : Atom → Prop
  | .rel r _ => σ.Knows r ∧ (σ.name r = answerName → negated = false ∧ r = answer)
  | .eq .. => True

namespace Atom.Announces

variable {σ : Symbols} {answer : Symbol} {n : Bool} {a : Atom}

theorem relationIn (h : a.Announces σ answer n) : a.RelationIn σ := by
  cases a with
  | rel r args => exact h.1
  | eq l r => trivial

theorem exists_eq_rel (h : a.Announces σ answer n) (hanswer : a.isAnswer σ = true) :
    n = false ∧ ∃ args, a = .rel answer args := by
  cases a with
  | rel r args =>
    obtain ⟨hn, rfl⟩ := h.2 (beq_iff_eq.mp hanswer)
    exact ⟨hn, args, rfl⟩
  | eq l r => cases hanswer

theorem of_le {τ : Symbols} (hle : σ ≤ τ) (hrel : a.RelationIn σ) (h : a.isAnswer σ = false) :
    a.Announces τ answer n := by
  cases a with
  | rel r args =>
    refine ⟨hrel.mono hle, fun hname => absurd ?_ (beq_eq_false_iff_ne.mp h)⟩
    rwa [Symbols.name_eq_of_le hle hrel] at hname
  | eq l r => trivial

theorem equation (l r : Term) : (equation l r).Announces σ answer n := by
  unfold Atom.equation
  split <;> trivial

theorem mapTerms (h : a.Announces σ answer n) (f : Term → Term) :
    (a.mapTerms f).Announces σ answer n := by
  cases a with
  | rel r args => exact h
  | eq l r => exact equation _ _

theorem replaceAt (h : a.Announces σ answer n) (path : List Nat) (t : Term) :
    (a.replaceAt path t).Announces σ answer n := by
  cases path with
  | nil => exact h
  | cons i path =>
    cases a with
    | rel r args => exact h
    | eq l r => exact equation _ _

theorem subst (h : a.Announces σ answer n) (θ : Symbol → Term) :
    (a.subst θ).Announces σ answer n := by
  cases a with
  | rel r args => exact h
  | eq l r => trivial

end Atom.Announces

/-- A clause that is true and whose answers are positive. -/
def Clause.Supports {D : Type u} (I : Interpretation D) (σ : Symbols) (answer : Symbol)
    (c : Clause) : Prop :=
  c.TrueIn I ∧ ∀ l ∈ c.literals, l.atom.Announces σ answer l.negated

namespace Clause

variable {D : Type u} {I : Interpretation D} {σ : Symbols} {answer : Symbol} {c : Clause}

theorem deductive_announces (σ : Symbols) (answer : Symbol) :
    Deductive σ fun c => ∀ l ∈ c.literals, l.atom.Announces σ answer l.negated := by
  refine deductive_literals (p := fun l => l.atom.Announces σ answer l.negated) ?_ ?_
  · exact fun l θ h => h.mapTerms _
  · exact fun l r _ k path t h => h.replaceAt path t

theorem deductive_supports (I : Interpretation D) (σ : Symbols) (answer : Symbol) :
    Deductive σ (Supports I σ answer) :=
  (deductive_trueIn I σ).and (deductive_announces σ answer)

theorem Supports.relationsIn (h : c.Supports I σ answer) : c.RelationsIn σ :=
  fun l hl => (h.2 l hl).relationIn

theorem not_supports_empty : ¬ Clause.empty.Supports I σ answer :=
  fun h => not_holds_of_isEmpty rfl (h.1 fun _ => I.const default)

/-- An answer clause claims `answer` of the values of the terms of some literal. -/
theorem Supports.exists_rel (h : c.Supports I σ answer) (hanswer : c.isAnswer σ = true)
    (v : Symbol → D) :
    ∃ args, ⟨.rel answer args, false⟩ ∈ c.literals ∧ I.rel answer (args.map (Term.eval I v)) := by
  obtain ⟨⟨a, n⟩, hl, hholds⟩ := h.1 v
  obtain ⟨rfl, args, rfl⟩ := (h.2 _ hl).exists_eq_rel ((isAnswer_iff.mp hanswer).2 _ hl)
  exact ⟨args, hl, hholds⟩

end Clause

namespace Query

section Meaning

variable {D : Type u} {I J : Interpretation D} {xs : List Symbol} {body : Formula}
  {answer : Symbol}

/-- The interpretation in which answers are the values of `xs` for which `body`
holds. -/
def answering (I : Interpretation D) (xs : List Symbol) (body : Formula) (answer : Symbol) :
    Interpretation D :=
  I.withRel (Function.update I.rel answer fun ds => ∃ v, xs.map v = ds ∧ body.Holds I v)

theorem rel_answering (ds : List D) :
    (answering I xs body answer).rel answer ds ↔ ∃ v, xs.map v = ds ∧ body.Holds I v :=
  iff_of_eq (congrFun (Function.update_self answer _ I.rel) ds)

theorem keepsRel_answering {σ : Symbols} {a : Atom} (hrel : a.RelationIn σ)
    (hname : σ.Knows answer → σ.name answer = Atom.answerName) (ha : a.isAnswer σ = false)
    (f : List D → Prop) : a.KeepsRel I (Function.update I.rel answer f) := by
  cases a with
  | rel r args =>
    refine Function.update_of_ne ?_ _ _
    rintro rfl
    exact beq_eq_false_iff_ne.mp ha (hname hrel)
  | eq l r => trivial

/-- The formula that is refuted for the bindings of `xs`. -/
theorem trueIn_answering
    (hbody : ∀ a ∈ body.atoms, ∀ f, a.KeepsRel I (Function.update I.rel answer f)) :
    (xs.foldr Formula.all (.or (.not body) (.rel answer (xs.map .var)))).TrueIn
      (answering I xs body answer) := by
  refine Formula.holds_foldr_all fun v => ?_
  by_cases hv : body.Holds I v
  · refine .inr ((rel_answering _).mpr ⟨v, ?_, hv⟩)
    rw [List.map_map]
    rfl
  · exact .inl fun h => hv ((Formula.holds_withRel fun a ha => hbody a ha _).mp h)

/-- A formula holds for some values, and so it does for the values that a list of
terms takes. -/
theorem holds_ofList {σ : Symbols} (hagree : I.AgreeOn σ.Knows J)
    (hnames : ∀ a ∈ body.symbols, σ.Knows a) (hfree : ∀ x, body.Free x → x ∈ xs)
    (hxs : xs.Nodup) {args : List Term} (hlength : args.length = xs.length)
    (hargs : ∀ t ∈ args, ∀ x ∈ xs, ¬ t.hasVar x = true) {v w : Symbol → D}
    (hw : xs.map w = args.map (Term.eval J v)) (hholds : body.Holds I w) :
    body.Holds J fun x => ((Substitution.ofList (xs.zip args)).apply x).eval J v := by
  refine (Formula.holds_congr hagree hnames fun x hx => ?_).mp hholds
  rw [← Substitution.map_apply_ofList hlength hxs hargs, List.map_map] at hw
  exact List.map_inj_left.mp hw x (hfree x hx)

theorem trueIn_foldr_ex (hfree : ∀ x, body.Free x → x ∈ xs) {w : Symbol → D}
    (hholds : body.Holds I w) : (xs.foldr Formula.ex body).TrueIn I := by
  intro v
  have hoverlay : body.Holds I (Formula.overlay xs w v) :=
    (Formula.holds_congr_valuation fun x hx =>
      (Formula.overlay_of_mem (hfree x hx) w v).symm).mp hholds
  exact Formula.holds_foldr_ex (fun x hx => Formula.overlay_of_not_mem hx w v) hoverlay

end Meaning

end Query

end Entailment
