import Entailment.Formula.Skolem
import Entailment.Proofs.Binder

/-! Skolem terms keep meaning up to the new symbols. A model of the result is a
model of the formula, and a model of the formula becomes one of the result when
the new symbols are interpreted by witnesses. -/
namespace Entailment

universe u

/-- A symbol named after Skolem symbols that is in the second table only. -/
structure Symbols.SkolemBetween (σ τ : Symbols) (c : Symbol) : Prop where
  new : ¬ σ.Knows c
  known : τ.Knows c
  name : ∃ n : Nat, τ.name c = SkolemState.base ++ toString n

namespace Symbols.SkolemBetween

variable {σ τ υ : Symbols} {c : Symbol}

theorem extend (h : σ.SkolemBetween τ c) (hle : τ ≤ υ) : σ.SkolemBetween υ c :=
  ⟨h.new, h.known.mono hle, by rw [name_eq_of_le hle h.known]; exact h.name⟩

theorem earlier (h : τ.SkolemBetween υ c) (hle : σ ≤ τ) : σ.SkolemBetween υ c :=
  ⟨fun hc => h.new (hc.mono hle), h.known, h.name⟩

end Symbols.SkolemBetween

/-- The term of a Skolem symbol over the variables `xs`. -/
def skolemTerm (c : Symbol) : List Symbol → Term
  | [] => .const c
  | x :: xs => .app c ((x :: xs).map .var)

theorem mem_symbols_skolemTerm {c a : Symbol} {xs : List Symbol} :
    a ∈ (skolemTerm c xs).symbols ↔ a = c ∨ a ∈ xs := by
  cases xs with
  | nil => simp [skolemTerm]
  | cons x xs => simp [skolemTerm]

theorem hasVar_skolemTerm {c y : Symbol} {xs : List Symbol} :
    (skolemTerm c xs).hasVar y = true ↔ y ∈ xs := by
  cases xs with
  | nil => simp [skolemTerm]
  | cons x xs => simp [skolemTerm]

namespace SkolemState

variable (xs : List Symbol) (s : SkolemState)

/-- The symbol of the next Skolem term. -/
def symbol : Symbol := (Symbols.fresh base s.counter s.symbols).1.1

theorem term_eq : (term xs s).1 = skolemTerm s.symbol xs := by
  cases xs <;> rfl

theorem le_term : s.symbols ≤ (term xs s).2.symbols := Symbols.le_fresh _ _ _

theorem skolemBetween_term (hsize : s.symbols.size < UInt32.size) :
    s.symbols.SkolemBetween (term xs s).2.symbols s.symbol :=
  ⟨Symbols.not_knows_fresh hsize _ _, Symbols.knows_fresh _ _ _, _, Symbols.name_fresh _ _ _⟩

end SkolemState

namespace Interpretation

variable {D : Type u}

/-- The interpretation with another meaning of `c`, as a constant and as a
function. -/
def define (I : Interpretation D) (c : Symbol) (h : List D → D) : Interpretation D where
  const := Function.update I.const c (h [])
  fn := Function.update I.fn c h
  rel := I.rel

theorem agreeOn_define (I : Interpretation D) (c : Symbol) (h : List D → D) :
    I.AgreeOn (· ≠ c) (I.define c h) :=
  ⟨fun _ hs => (Function.update_of_ne hs _ _).symm, fun _ hs => (Function.update_of_ne hs _ _).symm,
    rfl⟩

theorem eval_skolemTerm_define (I : Interpretation D) (c : Symbol) (h : List D → D)
    (xs : List Symbol) (v : Symbol → D) :
    (skolemTerm c xs).eval (I.define c h) v = h (xs.map v) := by
  cases xs with
  | nil => exact Function.update_self ..
  | cons x xs =>
    rw [skolemTerm, Term.eval_app, List.map_map]
    exact congrFun (Function.update_self c h I.fn) _

/-- If a condition reads the values of `xs` only, then so does some choice of a
witness for it. -/
theorem exists_witness (I : Interpretation D) {xs : List Symbol} {P : (Symbol → D) → D → Prop}
    (hP : ∀ v w d, (∀ x ∈ xs, v x = w x) → P v d → P w d) :
    ∃ h : List D → D, ∀ v, (∃ d, P v d) → P v (h (xs.map v)) := by
  have hpoint (ds : List D) : ∃ d, ∀ v, xs.map v = ds → (∃ d, P v d) → P v d := by
    by_cases hex : ∃ v d, xs.map v = ds ∧ P v d
    · obtain ⟨v, d, hv, hd⟩ := hex
      refine ⟨d, fun w hw _ => hP v w d (fun x hx => ?_) hd⟩
      exact List.map_inj_left.mp (hv.trans hw.symm) x hx
    · exact ⟨I.const default, fun v hv ⟨d, hd⟩ => absurd ⟨v, d, hv, hd⟩ hex⟩
  choose h hh using hpoint
  exact ⟨h, fun v hv => hh _ v rfl hv⟩

end Interpretation

namespace Formula

theorem witnessed_cons (x z : Symbol) (t : Term) (ρ : List (Symbol × Term)) :
    witnessed ((x, t) :: ρ) z = if z = x then t else witnessed ρ z := by
  unfold witnessed
  rw [Symbol.lookup_cons]
  split <;> rfl

section Values

variable {D : Type u} (I : Interpretation D) (ρ : List (Symbol × Term)) (v : Symbol → D)

/-- The values of the variables where those of `ρ` stand for their terms. -/
def values (x : Symbol) : D := (witnessed ρ x).eval I v

theorem values_cons (x : Symbol) (t : Term) :
    values I ((x, t) :: ρ) v = Function.update (values I ρ v) x (t.eval I v) := by
  funext z
  unfold values
  rw [witnessed_cons]
  by_cases hz : z = x
  · rw [if_pos hz, hz, Function.update_self]
  · rw [if_neg hz, Function.update_of_ne hz]

end Values

theorem skolemBelow_ex (xs : List Symbol) (ρ : List (Symbol × Term)) (x : Symbol) (f : Formula)
    (s : SkolemState) :
    (Formula.ex x f).skolemBelow xs ρ s =
      f.skolemBelow xs ((x, skolemTerm s.symbol xs) :: ρ) (SkolemState.term xs s).2 := by
  rw [← SkolemState.term_eq]
  rfl

theorem le_skolemBelow (xs : List Symbol) (ρ : List (Symbol × Term)) (f : Formula)
    (s : SkolemState) : s.symbols ≤ (f.skolemBelow xs ρ s).2.symbols := by
  induction f generalizing xs ρ s with
  | rel r args | eq l r => exact le_refl s.symbols
  | not f ih => exact ih xs ρ s
  | and f g ihf ihg | or f g ihf ihg | imp f g ihf ihg | iff f g ihf ihg =>
    exact le_trans (ihf xs ρ s) (ihg xs ρ (f.skolemBelow xs ρ s).2)
  | all x f ih => exact ih _ ρ s
  | ex x f ih => exact le_trans (SkolemState.le_term xs s) (ih xs _ (SkolemState.term xs s).2)

/-- Negation normal forms without existential quantifiers. -/
inductive IsSkolem : Formula → Prop
  | rel (r : Symbol) (args : List Term) : IsSkolem (.rel r args)
  | eq (l r : Term) : IsSkolem (.eq l r)
  | notRel (r : Symbol) (args : List Term) : IsSkolem (.not (.rel r args))
  | notEq (l r : Term) : IsSkolem (.not (.eq l r))
  | and {f g : Formula} (hf : IsSkolem f) (hg : IsSkolem g) : IsSkolem (.and f g)
  | or {f g : Formula} (hf : IsSkolem f) (hg : IsSkolem g) : IsSkolem (.or f g)
  | all {f : Formula} (x : Symbol) (hf : IsSkolem f) : IsSkolem (.all x f)

theorem isSkolem_skolemBelow {f : Formula} (h : f.IsNnf) (xs : List Symbol)
    (ρ : List (Symbol × Term)) (s : SkolemState) : (f.skolemBelow xs ρ s).1.IsSkolem := by
  induction h generalizing xs ρ s with
  | rel r args => exact .rel _ _
  | eq l r => exact .eq _ _
  | notRel r args => exact .notRel _ _
  | notEq l r => exact .notEq _ _
  | and _ _ ihf ihg => exact .and (ihf xs ρ s) (ihg xs ρ _)
  | or _ _ ihf ihg => exact .or (ihf xs ρ s) (ihg xs ρ _)
  | all x _ ih => exact .all x (ih _ ρ s)
  | ex x _ ih => exact ih xs _ _

namespace IsSkolem

variable {f : Formula}

theorem isNnf (h : f.IsSkolem) : f.IsNnf := by
  induction h with
  | rel r args => exact .rel r args
  | eq l r => exact .eq l r
  | notRel r args => exact .notRel r args
  | notEq l r => exact .notEq l r
  | and _ _ ihf ihg => exact .and ihf ihg
  | or _ _ ihf ihg => exact .or ihf ihg
  | all x _ ih => exact .all x ih

theorem distinctBelow (h : f.IsSkolem) (ρ : List (Symbol × Symbol)) (s : BinderState) :
    (f.distinctBelow ρ s).1.IsSkolem := by
  induction h generalizing ρ s with
  | rel r args => exact .rel _ _
  | eq l r => exact .eq _ _
  | notRel r args => exact .notRel _ _
  | notEq l r => exact .notEq _ _
  | and _ _ ihf ihg => exact .and (ihf ρ s) (ihg ρ _)
  | or _ _ ihf ihg => exact .or (ihf ρ s) (ihg ρ _)
  | all x _ ih => exact .all _ (ih _ _)

theorem foldr_all (h : f.IsSkolem) (xs : List Symbol) : (xs.foldr Formula.all f).IsSkolem := by
  induction xs with
  | nil => exact h
  | cons x xs ih => exact .all x ih

/-- Without existential quantifiers there is nothing to replace. -/
theorem skolemBelow_eq (h : f.IsSkolem) (xs : List Symbol) (s : SkolemState) :
    f.skolemBelow xs [] s = (f, s) := by
  have hself : Term.subst (witnessed []) = id := funext Term.subst_var_eq
  induction h generalizing xs with
  | rel r args | eq l r | notRel r args | notEq l r =>
    simp only [skolemBelow, hself, List.map_id, id]
    rfl
  | and _ _ ihf ihg | or _ _ ihf ihg =>
    simp only [skolemBelow, bind, StateT.bind, ihf, ihg]
    rfl
  | all x _ ih =>
    simp only [skolemBelow, bind, StateT.bind, ih]
    rfl

end IsSkolem

/-- The quantifiers that are left keep their names and their order. -/
theorem binders_skolemBelow_sublist (xs : List Symbol) (ρ : List (Symbol × Term)) (f : Formula)
    (s : SkolemState) : (f.skolemBelow xs ρ s).1.binders.Sublist f.binders := by
  induction f generalizing xs ρ s with
  | rel r args | eq l r => exact List.Sublist.refl _
  | not f ih => exact ih xs ρ s
  | and f g ihf ihg | or f g ihf ihg | imp f g ihf ihg | iff f g ihf ihg =>
    exact (ihf xs ρ s).append (ihg xs ρ _)
  | all x f ih => exact (ih _ ρ s).cons_cons x
  | ex x f ih => exact (ih xs _ _).cons x

/-- All names are in the table, the terms that stand for free variables are built
from those of `xs`, and the quantifiers inside have names of their own. -/
structure Scoped (xs : List Symbol) (ρ : List (Symbol × Term)) (f : Formula) (s : SkolemState) :
    Prop where
  names : ∀ a ∈ f.symbols, s.symbols.Knows a
  outer : ∀ a ∈ xs, s.symbols.Knows a
  terms : ∀ z, f.Free z → ∀ a ∈ (witnessed ρ z).symbols, s.symbols.Knows a
  vars : ∀ z, f.Free z → ∀ y, (witnessed ρ z).hasVar y = true → y ∈ xs
  unused : ∀ y ∈ f.binders, y ∉ xs ∧ witnessed ρ y = .var y
  nodup : f.binders.Nodup

namespace Scoped

variable {xs : List Symbol} {ρ : List (Symbol × Term)} {f g : Formula} {s s' : SkolemState}
  {x : Symbol}

/-- A part of the formula with the same free variables in scope. -/
theorem part (h : Scoped xs ρ f s) (hsymbols : ∀ a ∈ g.symbols, a ∈ f.symbols)
    (hfree : ∀ z, g.Free z → f.Free z) (hbinders : g.binders.Sublist f.binders) :
    Scoped xs ρ g s where
  names a ha := h.names a (hsymbols a ha)
  outer := h.outer
  terms z hz := h.terms z (hfree z hz)
  vars z hz := h.vars z (hfree z hz)
  unused y hy := h.unused y (hbinders.subset hy)
  nodup := h.nodup.sublist hbinders

theorem next (h : Scoped xs ρ f s) (hle : s.symbols ≤ s'.symbols) : Scoped xs ρ f s' where
  names a ha := (h.names a ha).mono hle
  outer a ha := (h.outer a ha).mono hle
  terms z hz a ha := (h.terms z hz a ha).mono hle
  vars := h.vars
  unused := h.unused
  nodup := h.nodup

theorem left (h : Scoped xs ρ (.and f g) s) : Scoped xs ρ f s :=
  h.part (fun _ => List.mem_append_left _) (fun _ => .inl) (List.sublist_append_left _ _)

theorem right (h : Scoped xs ρ (.and f g) s) : Scoped xs ρ g s :=
  h.part (fun _ => List.mem_append_right _) (fun _ => .inr) (List.sublist_append_right _ _)

theorem and_of_or (h : Scoped xs ρ (.or f g) s) : Scoped xs ρ (.and f g) s :=
  h.part (fun _ ha => ha) (fun _ hz => hz) (List.Sublist.refl _)

theorem all (h : Scoped xs ρ (.all x f) s) : Scoped (xs ++ [x]) ρ f s := by
  have hx := h.unused x List.mem_cons_self
  have hknown := h.names x List.mem_cons_self
  refine ⟨fun a ha => h.names a (List.mem_cons_of_mem x ha), ?_, ?_, ?_, ?_,
    (List.nodup_cons.mp h.nodup).2⟩
  · intro a ha
    rcases List.mem_append.mp ha with ha | ha
    · exact h.outer a ha
    · rwa [List.mem_singleton.mp ha]
  · intro z hz a ha
    by_cases hzx : z = x
    · rw [hzx, hx.2, Term.mem_symbols_var] at ha
      rwa [ha]
    · exact h.terms z ⟨hzx, hz⟩ a ha
  · intro z hz y hy
    rw [List.mem_append, List.mem_singleton]
    by_cases hzx : z = x
    · rw [hzx, hx.2, Term.hasVar_var] at hy
      exact .inr hy
    · exact .inl (h.vars z ⟨hzx, hz⟩ y hy)
  · intro y hy
    have hyx : y ≠ x := fun heq => (List.nodup_cons.mp h.nodup).1 (heq ▸ hy)
    have hunused := h.unused y (List.mem_cons_of_mem x hy)
    refine ⟨?_, hunused.2⟩
    rw [List.mem_append, List.mem_singleton]
    exact fun hmem => hmem.elim hunused.1 hyx

theorem ex (h : Scoped xs ρ (.ex x f) s) :
    Scoped xs ((x, skolemTerm s.symbol xs) :: ρ) f (SkolemState.term xs s).2 := by
  have hle := SkolemState.le_term xs s
  refine ⟨fun a ha => (h.names a (List.mem_cons_of_mem x ha)).mono hle,
    fun a ha => (h.outer a ha).mono hle, ?_, ?_, ?_, (List.nodup_cons.mp h.nodup).2⟩
  · intro z hz a ha
    rw [witnessed_cons] at ha
    split at ha
    · rcases mem_symbols_skolemTerm.mp ha with rfl | ha
      · exact Symbols.knows_fresh _ _ _
      · exact (h.outer a ha).mono hle
    · rename_i hzx
      exact (h.terms z ⟨hzx, hz⟩ a ha).mono hle
  · intro z hz y hy
    rw [witnessed_cons] at hy
    split at hy
    · exact hasVar_skolemTerm.mp hy
    · rename_i hzx
      exact h.vars z ⟨hzx, hz⟩ y hy
  · intro y hy
    have hyx : y ≠ x := fun heq => (List.nodup_cons.mp h.nodup).1 (heq ▸ hy)
    rw [witnessed_cons, if_neg hyx]
    exact h.unused y (List.mem_cons_of_mem x hy)

/-- The value of a universally quantified variable is not hidden by a term. -/
theorem values_update {D : Type u} (I : Interpretation D) (h : Scoped xs ρ (.all x f) s)
    (v : Symbol → D) (d : D) (z : Symbol) (hz : f.Free z) :
    values I ρ (Function.update v x d) z = Function.update (values I ρ v) x d z := by
  have hx := h.unused x List.mem_cons_self
  by_cases hzx : z = x
  · rw [hzx, Function.update_self]
    unfold values
    rw [hx.2, Term.eval_var, Function.update_self]
  · rw [Function.update_of_ne hzx]
    refine Term.eval_congr (P := fun _ => True) (.refl _ I) (fun _ _ => trivial) fun y hy => ?_
    have hyx : y ≠ x := fun heq => hx.1 (heq ▸ h.vars z ⟨hzx, hz⟩ y hy)
    exact Function.update_of_ne hyx d v

end Scoped

section Meaning

variable {D : Type u} {I : Interpretation D} {xs : List Symbol} {ρ : List (Symbol × Term)}
  {f : Formula} {s : SkolemState}

theorem holds_rel_witnessed (r : Symbol) (args : List Term) (v : Symbol → D) :
    (rel r (args.map (Term.subst (witnessed ρ)))).Holds I v ↔
      (rel r args).Holds I (values I ρ v) := by
  rw [Holds, Holds, List.map_map]
  exact iff_of_eq (congrArg (I.rel r) (List.map_congr_left fun t _ => Term.eval_subst I v _ t))

theorem holds_eq_witnessed (l r : Term) (v : Symbol → D) :
    (eq (l.subst (witnessed ρ)) (r.subst (witnessed ρ))).Holds I v ↔
      (eq l r).Holds I (values I ρ v) := by
  rw [Holds, Holds, Term.eval_subst, Term.eval_subst]
  rfl

/-- What the Skolem form says holds of the formula, whatever the new symbols mean. -/
theorem holds_of_skolemBelow (hf : f.IsNnf) (h : Scoped xs ρ f s) (v : Symbol → D)
    (hv : (f.skolemBelow xs ρ s).1.Holds I v) : f.Holds I (values I ρ v) := by
  induction hf generalizing xs ρ s v with
  | rel r args => exact (holds_rel_witnessed r args v).mp hv
  | eq l r => exact (holds_eq_witnessed l r v).mp hv
  | notRel r args => exact (not_congr (holds_rel_witnessed r args v)).mp hv
  | notEq l r => exact (not_congr (holds_eq_witnessed l r v)).mp hv
  | and _ _ ihf ihg =>
    exact ⟨ihf h.left v hv.1, ihg (h.right.next (le_skolemBelow xs ρ _ s)) v hv.2⟩
  | or _ _ ihf ihg =>
    have h := h.and_of_or
    exact hv.imp (ihf h.left v) (ihg (h.right.next (le_skolemBelow xs ρ _ s)) v)
  | all x _ ih =>
    intro d
    exact (holds_congr_valuation (h.values_update I v d)).mp (ih h.all _ (hv d))
  | ex x _ ih =>
    rw [skolemBelow_ex] at hv
    refine ⟨(skolemTerm s.symbol xs).eval I v, ?_⟩
    rw [← values_cons]
    exact ih h.ex v hv

theorem Scoped.mem_symbols_subst (h : Scoped xs ρ f s) {t : Term} {a : Symbol}
    (hsymbols : ∀ a ∈ t.symbols, a ∈ f.symbols) (hfree : ∀ z, t.hasVar z = true → f.Free z)
    (ha : a ∈ (t.subst (witnessed ρ)).symbols) : s.symbols.Knows a := by
  rcases Term.mem_symbols_subst ha with ha | ⟨z, hz, ha⟩
  · exact h.names a (hsymbols a ha)
  · exact h.terms z (hfree z hz) a ha

theorem Scoped.knows_rel {r : Symbol} {args : List Term} (h : Scoped xs ρ (.rel r args) s) :
    ∀ a ∈ (rel r (args.map (Term.subst (witnessed ρ)))).symbols, s.symbols.Knows a := by
  intro a ha
  rw [symbols, List.mem_cons, Term.mem_symbolsAll] at ha
  rcases ha with rfl | ⟨_, hmem, ha⟩
  · exact h.names a List.mem_cons_self
  · obtain ⟨t, ht, rfl⟩ := List.mem_map.mp hmem
    refine h.mem_symbols_subst (fun b hb => ?_) (fun z hz => ⟨t, ht, hz⟩) ha
    exact List.mem_cons_of_mem r (Term.mem_symbolsAll.mpr ⟨t, ht, hb⟩)

theorem Scoped.knows_eq {l r : Term} (h : Scoped xs ρ (.eq l r) s) :
    ∀ a ∈ (eq (l.subst (witnessed ρ)) (r.subst (witnessed ρ))).symbols, s.symbols.Knows a := by
  intro a ha
  rcases List.mem_append.mp ha with ha | ha
  · exact h.mem_symbols_subst (fun b => List.mem_append_left _) (fun z => .inl) ha
  · exact h.mem_symbols_subst (fun b => List.mem_append_right _) (fun z => .inr) ha

theorem knows_skolemBelow (hf : f.IsNnf) (h : Scoped xs ρ f s) :
    ∀ a ∈ (f.skolemBelow xs ρ s).1.symbols, (f.skolemBelow xs ρ s).2.symbols.Knows a := by
  induction hf generalizing xs ρ s with
  | rel r args => exact h.knows_rel
  | eq l r => exact h.knows_eq
  | notRel r args =>
    exact (h.part (g := .rel r args) (fun _ ha => ha) (fun _ hz => hz) (.refl _)).knows_rel
  | notEq l r =>
    exact (h.part (g := .eq l r) (fun _ ha => ha) (fun _ hz => hz) (.refl _)).knows_eq
  | @and f g _ _ ihf ihg | @or f g _ _ ihf ihg =>
    have h : Scoped xs ρ (.and f g) s := h.part (fun _ ha => ha) (fun _ hz => hz) (.refl _)
    intro a ha
    rcases List.mem_append.mp ha with ha | ha
    · exact (ihf h.left a ha).mono (le_skolemBelow xs ρ g _)
    · exact ihg (h.right.next (le_skolemBelow xs ρ f s)) a ha
  | @all f x _ ih =>
    intro a ha
    rcases List.mem_cons.mp ha with rfl | ha
    · exact (h.names a List.mem_cons_self).mono (le_skolemBelow _ ρ f s)
    · exact ih h.all a ha
  | ex x _ ih =>
    rw [skolemBelow_ex]
    exact ih h.ex

theorem Scoped.mem_of_hasVar_subst (h : Scoped xs ρ f s) {t : Term} {y : Symbol}
    (hfree : ∀ z, t.hasVar z = true → f.Free z) (hy : (t.subst (witnessed ρ)).hasVar y = true) :
    y ∈ xs := by
  obtain ⟨z, hz, hzy⟩ := Term.hasVar_subst.mp hy
  exact h.vars z (hfree z hz) y hzy

theorem Scoped.mem_of_free_rel {r : Symbol} {args : List Term} (h : Scoped xs ρ (.rel r args) s)
    {y : Symbol} (hy : (rel r (args.map (Term.subst (witnessed ρ)))).Free y) : y ∈ xs := by
  obtain ⟨_, hmem, hy⟩ := hy
  obtain ⟨t, ht, rfl⟩ := List.mem_map.mp hmem
  exact h.mem_of_hasVar_subst (fun z hz => ⟨t, ht, hz⟩) hy

theorem Scoped.mem_of_free_eq {l r : Term} (h : Scoped xs ρ (.eq l r) s) {y : Symbol}
    (hy : (eq (l.subst (witnessed ρ)) (r.subst (witnessed ρ))).Free y) : y ∈ xs :=
  hy.elim (h.mem_of_hasVar_subst fun _ => .inl) (h.mem_of_hasVar_subst fun _ => .inr)

theorem mem_of_free_skolemBelow (hf : f.IsNnf) (h : Scoped xs ρ f s) {y : Symbol}
    (hy : (f.skolemBelow xs ρ s).1.Free y) : y ∈ xs := by
  induction hf generalizing xs ρ s with
  | rel r args => exact h.mem_of_free_rel hy
  | eq l r => exact h.mem_of_free_eq hy
  | notRel r args =>
    exact (h.part (g := .rel r args) (fun _ ha => ha) (fun _ hz => hz) (.refl _)).mem_of_free_rel hy
  | notEq l r =>
    exact (h.part (g := .eq l r) (fun _ ha => ha) (fun _ hz => hz) (.refl _)).mem_of_free_eq hy
  | @and f g _ _ ihf ihg | @or f g _ _ ihf ihg =>
    have h : Scoped xs ρ (.and f g) s := h.part (fun _ ha => ha) (fun _ hz => hz) (.refl _)
    exact hy.elim (ihf h.left) (ihg (h.right.next (le_skolemBelow xs ρ f s)))
  | all x _ ih =>
    have hmem := ih h.all hy.2
    rw [List.mem_append, List.mem_singleton] at hmem
    exact hmem.resolve_right hy.1
  | ex x _ ih =>
    rw [skolemBelow_ex] at hy
    exact ih h.ex hy

theorem Scoped.holds_values_congr {J : Interpretation D} (h : Scoped xs ρ f s)
    (hIJ : I.AgreeOn s.symbols.Knows J) (v : Symbol → D) :
    f.Holds I (values I ρ v) ↔ f.Holds J (values J ρ v) :=
  holds_congr hIJ h.names fun z hz => Term.eval_congr hIJ (h.terms z hz) fun _ _ => rfl

end Meaning

section Extension

variable {xs : List Symbol} {ρ : List (Symbol × Term)} {f g : Formula} {s : SkolemState}

/-- Every interpretation can be changed on Skolem symbols new from `s` to `s'` in
such a way that `g` is true where `f` was. -/
def Extends (D : Type u) (ρ : List (Symbol × Term)) (s s' : SkolemState) (f g : Formula) : Prop :=
  ∀ I : Interpretation D, ∃ J : Interpretation D,
    I.AgreeOn (fun c => ¬ s.symbols.SkolemBetween s'.symbols c) J ∧
      ∀ v, f.Holds I (values I ρ v) → g.Holds J v

/-- Symbols of the first table are not among the new ones. -/
theorem agreeOn_knows {D : Type u} {I J : Interpretation D} {σ τ : Symbols}
    (h : I.AgreeOn (fun c => ¬ σ.SkolemBetween τ c) J) : I.AgreeOn σ.Knows J :=
  h.mono fun _ hknown hnew => hnew.new hknown

theorem Extends.of_holds {D : Type u} {s' : SkolemState}
    (h : ∀ (I : Interpretation D) v, f.Holds I (values I ρ v) → g.Holds I v) :
    Extends D ρ s s' f g :=
  fun I => ⟨I, .refl _ I, h I⟩

/-- One interpretation serves two parts, as the second one leaves the symbols of
the first alone. -/
theorem Extends.both {D : Type u} {s₁ s₂ : SkolemState} {f' g' : Formula}
    (hg : Scoped xs ρ g s) (hknown : ∀ a ∈ f'.symbols, s₁.symbols.Knows a)
    (hle₁ : s.symbols ≤ s₁.symbols) (hle₂ : s₁.symbols ≤ s₂.symbols)
    (ihf : Extends D ρ s s₁ f f') (ihg : Extends D ρ s₁ s₂ g g') (I : Interpretation D) :
    ∃ J : Interpretation D, I.AgreeOn (fun c => ¬ s.symbols.SkolemBetween s₂.symbols c) J ∧
      ∀ v, (f.Holds I (values I ρ v) → f'.Holds J v) ∧
        (g.Holds I (values I ρ v) → g'.Holds J v) := by
  obtain ⟨J₁, hJ₁, hleft⟩ := ihf I
  obtain ⟨J, hJ, hright⟩ := ihg J₁
  refine ⟨J, ?_, fun v => ⟨fun hv => ?_, fun hv => ?_⟩⟩
  · exact (hJ₁.mono fun c hc hnew => hc (hnew.extend hle₂)).trans
      (hJ.mono fun c hc hnew => hc (hnew.earlier hle₁))
  · exact (holds_congr_interpretation (agreeOn_knows hJ) hknown v).mp (hleft v hv)
  · exact hright v ((hg.holds_values_congr (agreeOn_knows hJ₁) v).mp hv)

theorem Extends.all {D : Type u} {s' : SkolemState} {x : Symbol}
    (h : Scoped xs ρ (.all x f) s) (ih : Extends D ρ s s' f g) :
    Extends D ρ s s' (.all x f) (.all x g) := by
  intro I
  obtain ⟨J, hJ, hg⟩ := ih I
  refine ⟨J, hJ, fun v hv d => hg _ ?_⟩
  exact (holds_congr_valuation (h.values_update I v d)).mpr (hv d)

/-- The new symbol is read as the choice of a witness, which depends on the values
of `xs` only. -/
theorem Extends.ex {D : Type u} {s' : SkolemState} {x : Symbol} (h : Scoped xs ρ (.ex x f) s)
    (hsize : s.symbols.size < UInt32.size)
    (hle : (SkolemState.term xs s).2.symbols ≤ s'.symbols)
    (ih : Extends D ((x, skolemTerm s.symbol xs) :: ρ) (SkolemState.term xs s).2 s' f g) :
    Extends D ρ s s' (.ex x f) g := by
  intro I
  have hlocal (v w : Symbol → D) (d : D) (hvw : ∀ x ∈ xs, v x = w x)
      (hd : f.Holds I (Function.update (values I ρ v) x d)) :
      f.Holds I (Function.update (values I ρ w) x d) := by
    refine (holds_congr_valuation (update_congr d fun z hz => ?_)).mp hd
    exact Term.eval_congr (.refl (fun _ => True) I) (fun _ _ => trivial) fun y hy =>
      hvw y (h.vars z hz y hy)
  obtain ⟨choice, hchoice⟩ := I.exists_witness hlocal
  obtain ⟨J, hJ, hg⟩ := ih (I.define s.symbol choice)
  have hnew := SkolemState.skolemBetween_term xs s hsize
  have hdefine := I.agreeOn_define s.symbol choice
  refine ⟨J, ?_, fun v hv => hg v ?_⟩
  · exact (hdefine.mono fun c hc heq => hc (heq ▸ hnew.extend hle)).trans
      (hJ.mono fun c hc hlater => hc (hlater.earlier (SkolemState.le_term xs s)))
  · have hold : I.AgreeOn s.symbols.Knows (I.define s.symbol choice) :=
      hdefine.mono fun c hc heq => hnew.new (heq ▸ hc)
    rw [values_cons, Interpretation.eval_skolemTerm_define]
    refine (holds_congr hold (fun a ha => h.names a (List.mem_cons_of_mem x ha))
      (update_congr _ fun z hz => ?_)).mp (hchoice v hv)
    exact Term.eval_congr hold (h.terms z hz) fun _ _ => rfl

theorem extends_skolemBelow (D : Type u) (hf : f.IsNnf) (h : Scoped xs ρ f s)
    (hsize : (f.skolemBelow xs ρ s).2.symbols.size < UInt32.size) :
    Extends D ρ s (f.skolemBelow xs ρ s).2 f (f.skolemBelow xs ρ s).1 := by
  induction hf generalizing xs ρ s with
  | rel r args => exact .of_holds fun I v hv => (holds_rel_witnessed r args v).mpr hv
  | eq l r => exact .of_holds fun I v hv => (holds_eq_witnessed l r v).mpr hv
  | notRel r args =>
    exact .of_holds fun I v hv => (not_congr (holds_rel_witnessed r args v)).mpr hv
  | notEq l r => exact .of_holds fun I v hv => (not_congr (holds_eq_witnessed l r v)).mpr hv
  | @and f g hf hg ihf ihg =>
    have hle₁ := le_skolemBelow xs ρ f s
    have hle₂ := le_skolemBelow xs ρ g (f.skolemBelow xs ρ s).2
    intro I
    obtain ⟨J, hJ, hboth⟩ := Extends.both h.right (knows_skolemBelow hf h.left) hle₁ hle₂
      (ihf h.left ((Symbols.size_le hle₂).trans_lt hsize)) (ihg (h.right.next hle₁) hsize) I
    exact ⟨J, hJ, fun v hv => ⟨(hboth v).1 hv.1, (hboth v).2 hv.2⟩⟩
  | @or f g hf hg ihf ihg =>
    have h := h.and_of_or
    have hle₁ := le_skolemBelow xs ρ f s
    have hle₂ := le_skolemBelow xs ρ g (f.skolemBelow xs ρ s).2
    intro I
    obtain ⟨J, hJ, hboth⟩ := Extends.both h.right (knows_skolemBelow hf h.left) hle₁ hle₂
      (ihf h.left ((Symbols.size_le hle₂).trans_lt hsize)) (ihg (h.right.next hle₁) hsize) I
    exact ⟨J, hJ, fun v hv => hv.imp (hboth v).1 (hboth v).2⟩
  | all x _ ih => exact .all h (ih h.all hsize)
  | @ex f x _ ih =>
    rw [skolemBelow_ex] at hsize ⊢
    have hle := le_skolemBelow xs ((x, skolemTerm s.symbol xs) :: ρ) f (SkolemState.term xs s).2
    have hfirst := (Symbols.size_le ((SkolemState.le_term xs s).trans hle)).trans_lt hsize
    exact .ex h hfirst hle (ih h.ex hsize)

end Extension

end Formula

end Entailment
