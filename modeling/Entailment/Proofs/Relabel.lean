import Entailment.Proofs.Clause
import Entailment.Proofs.Clausify

/-! Putting other symbols in the place of all symbols at once. When different
symbols stay different, a relabelled formula is checked, normalized and split into
clauses as the formula itself is. -/
namespace Entailment

variable {π κ : Symbol → Symbol}

namespace Term

mutual

/-- The term with `π a` in the place of every symbol `a`. -/
def relabel (π : Symbol → Symbol) : Term → Term
  | .var x => .var (π x)
  | .const c => .const (π c)
  | .app f args => .app (π f) (relabelAll π args)

def relabelAll (π : Symbol → Symbol) : List Term → List Term
  | [] => []
  | t :: ts => t.relabel π :: relabelAll π ts

end

@[simp] theorem relabelAll_eq (π : Symbol → Symbol) (ts : List Term) :
    relabelAll π ts = ts.map (relabel π) := by
  induction ts with
  | nil => rfl
  | cons t ts ih => rw [relabelAll, ih, List.map_cons]

@[simp] theorem relabel_var (π : Symbol → Symbol) (x : Symbol) :
    (var x).relabel π = .var (π x) := rfl

@[simp] theorem relabel_const (π : Symbol → Symbol) (c : Symbol) :
    (const c).relabel π = .const (π c) := rfl

@[simp] theorem relabel_app (π : Symbol → Symbol) (f : Symbol) (args : List Term) :
    (app f args).relabel π = .app (π f) (args.map (relabel π)) := by
  rw [relabel, relabelAll_eq]

theorem relabel_congr {t : Term} (h : ∀ a ∈ t.symbols, π a = κ a) : t.relabel π = t.relabel κ := by
  induction t using rec_args with
  | var x => rw [relabel_var, relabel_var, h x (by simp)]
  | const c => rw [relabel_const, relabel_const, h c (by simp)]
  | app f args ih =>
    rw [relabel_app, relabel_app, h f (by simp)]
    congr 1
    apply List.map_congr_left
    intro t ht
    exact ih t ht fun a ha => h a (mem_symbols_app.mpr (.inr ⟨t, ht, ha⟩))

theorem relabel_id (t : Term) : t.relabel id = t := by
  induction t using rec_args with
  | var x | const c => rfl
  | app f args ih =>
    rw [relabel_app, List.map_congr_left ih, List.map_id']
    rfl

theorem relabel_relabel (π κ : Symbol → Symbol) (t : Term) :
    (t.relabel π).relabel κ = t.relabel (κ ∘ π) := by
  induction t using rec_args with
  | var x | const c => rfl
  | app f args ih =>
    simp only [relabel_app, List.map_map]
    congr 1
    exact List.map_congr_left ih

theorem relabel_leftInverse (h : Function.LeftInverse κ π) :
    Function.LeftInverse (relabel κ) (relabel π) := by
  intro t
  rw [relabel_relabel, h.comp_eq_id, relabel_id]

/-- Relabelling a substituted term is substituting relabelled terms. -/
theorem relabel_subst {θ η : Symbol → Term} {t : Term}
    (h : ∀ x, t.hasVar x = true → η (π x) = (θ x).relabel π) :
    (t.subst θ).relabel π = (t.relabel π).subst η := by
  induction t using rec_args with
  | var x => exact (h x (by simp)).symm
  | const c => rfl
  | app f args ih =>
    simp only [subst_app, relabel_app, List.map_map]
    congr 1
    apply List.map_congr_left
    intro t ht
    exact ih t ht fun x hx => h x ((hasVar_app x f args).mpr ⟨t, ht, hx⟩)

theorem mem_symbols_relabel {t : Term} {b : Symbol} :
    b ∈ (t.relabel π).symbols ↔ ∃ a ∈ t.symbols, π a = b := by
  induction t using rec_args with
  | var x | const c => simp [eq_comm]
  | app f args ih =>
    simp only [relabel_app, mem_symbols_app, List.mem_map, exists_exists_and_eq_and]
    constructor
    · rintro (rfl | ⟨t, ht, hb⟩)
      · exact ⟨f, .inl rfl, rfl⟩
      · obtain ⟨a, ha, hab⟩ := (ih t ht).mp hb
        exact ⟨a, .inr ⟨t, ht, ha⟩, hab⟩
    · rintro ⟨a, rfl | ⟨t, ht, ha⟩, hab⟩
      · exact .inl hab.symm
      · exact .inr ⟨t, ht, (ih t ht).mpr ⟨a, ha, hab⟩⟩

end Term

/-- The error about the relabelled variable. -/
def ScopeError.relabel (π : Symbol → Symbol) : ScopeError → ScopeError
  | .free x => .free (π x)
  | .rebound x => .rebound (π x)

def ClausifyError.relabel (π : Symbol → Symbol) : ClausifyError → ClausifyError
  | .scope e => .scope (e.relabel π)
  | .tooLarge => .tooLarge

theorem contains_map_iff (hπ : Function.Injective π) (xs : List Symbol) (x : Symbol) :
    (xs.map π).contains (π x) = xs.contains x := by
  rw [Bool.eq_iff_iff, List.contains_iff_mem, List.contains_iff_mem, List.mem_map_of_injective hπ]

namespace Term

theorem checkScopeAll_map {scope scope' : List Symbol} {ts : List Term}
    (h : ∀ t ∈ ts, (t.relabel π).checkScope scope' = (t.checkScope scope).mapError (.relabel π)) :
    checkScopeAll scope' (ts.map (relabel π)) = (checkScopeAll scope ts).mapError (.relabel π) := by
  induction ts with
  | nil => rfl
  | cons t ts ih =>
    rw [List.map_cons, checkScopeAll, checkScopeAll, h t List.mem_cons_self,
      ih fun u hu => h u (List.mem_cons_of_mem t hu)]
    cases t.checkScope scope <;> rfl

theorem checkScope_relabel (hπ : Function.Injective π) (scope : List Symbol) (t : Term) :
    (t.relabel π).checkScope (scope.map π) = (t.checkScope scope).mapError (.relabel π) := by
  induction t using rec_args with
  | var x =>
    rw [relabel_var, checkScope, checkScope, contains_map_iff hπ]
    split <;> rfl
  | const c => rfl
  | app f args ih =>
    rw [relabel_app, checkScope, checkScope]
    exact checkScopeAll_map ih

end Term

namespace Formula

/-- The formula with `π a` in the place of every symbol `a`. -/
def relabel (π : Symbol → Symbol) : Formula → Formula
  | .rel r args => .rel (π r) (args.map (Term.relabel π))
  | .eq l r => .eq (l.relabel π) (r.relabel π)
  | .not f => .not (f.relabel π)
  | .and f g => .and (f.relabel π) (g.relabel π)
  | .or f g => .or (f.relabel π) (g.relabel π)
  | .imp f g => .imp (f.relabel π) (g.relabel π)
  | .iff f g => .iff (f.relabel π) (g.relabel π)
  | .all x f => .all (π x) (f.relabel π)
  | .ex x f => .ex (π x) (f.relabel π)

theorem relabel_congr {f : Formula} (h : ∀ a ∈ f.symbols, π a = κ a) :
    f.relabel π = f.relabel κ := by
  induction f with
  | rel r args =>
    rw [relabel, relabel, h r List.mem_cons_self]
    congr 1
    apply List.map_congr_left
    intro t ht
    exact Term.relabel_congr fun a ha =>
      h a (List.mem_cons_of_mem r (Term.mem_symbolsAll.mpr ⟨t, ht, ha⟩))
  | eq l r =>
    rw [relabel, relabel, Term.relabel_congr fun a ha => h a (List.mem_append_left _ ha),
      Term.relabel_congr fun a ha => h a (List.mem_append_right _ ha)]
  | not f ih => rw [relabel, relabel, ih h]
  | and f g ihf ihg | or f g ihf ihg | imp f g ihf ihg | iff f g ihf ihg =>
    rw [relabel, relabel, ihf fun a ha => h a (List.mem_append_left _ ha),
      ihg fun a ha => h a (List.mem_append_right _ ha)]
  | all x f ih | ex x f ih =>
    rw [relabel, relabel, h x List.mem_cons_self, ih fun a ha => h a (List.mem_cons_of_mem x ha)]

theorem relabel_id (f : Formula) : f.relabel id = f := by
  induction f with
  | rel r args =>
    rw [relabel, List.map_congr_left fun t _ => Term.relabel_id t, List.map_id']
    rfl
  | eq l r => rw [relabel, Term.relabel_id, Term.relabel_id]
  | not f ih => rw [relabel, ih]
  | and f g ihf ihg | or f g ihf ihg | imp f g ihf ihg | iff f g ihf ihg => rw [relabel, ihf, ihg]
  | all x f ih | ex x f ih =>
    rw [relabel, ih]
    rfl

theorem basic_relabel (π : Symbol → Symbol) (f : Formula) :
    (f.relabel π).basic = f.basic.relabel π := by
  induction f with
  | rel r args | eq l r => rfl
  | not f ih => rw [relabel, basic, basic, relabel, ih]
  | and f g ihf ihg | or f g ihf ihg | imp f g ihf ihg | iff f g ihf ihg =>
    simp only [relabel, basic, ihf, ihg]
  | all x f ih | ex x f ih => rw [relabel, basic, basic, relabel, ih]

theorem pushNegation_relabel (π : Symbol → Symbol) (negated : Bool) (f : Formula) :
    (f.relabel π).pushNegation negated = (f.pushNegation negated).relabel π := by
  induction f generalizing negated with
  | rel r args | eq l r => cases negated <;> rfl
  | not f ih =>
    rw [relabel, pushNegation, pushNegation]
    exact ih _
  | and f g ihf ihg | or f g ihf ihg | imp f g ihf ihg | iff f g ihf ihg =>
    cases negated <;> simp only [relabel, pushNegation, ihf, ihg]
  | all x f ih | ex x f ih => cases negated <;> simp only [relabel, pushNegation, ih]

theorem nnf_basic_relabel (π : Symbol → Symbol) (f : Formula) :
    (f.relabel π).basic.nnf = f.basic.nnf.relabel π := by
  rw [basic_relabel]
  exact pushNegation_relabel π false f.basic

theorem checkScope_relabel (hπ : Function.Injective π) (scope : List Symbol) (f : Formula) :
    (f.relabel π).checkScope (scope.map π) = (f.checkScope scope).mapError (.relabel π) := by
  induction f generalizing scope with
  | rel r args =>
    exact Term.checkScopeAll_map fun t _ => Term.checkScope_relabel hπ scope t
  | eq l r =>
    have hside : ∀ t ∈ [l, r], _ := fun t _ => Term.checkScope_relabel hπ scope t
    exact Term.checkScopeAll_map hside
  | not f ih => exact ih scope
  | and f g ihf ihg | or f g ihf ihg | imp f g ihf ihg | iff f g ihf ihg =>
    rw [relabel, checkScope, checkScope, ihf, ihg]
    cases f.checkScope scope <;> rfl
  | all x f ih | ex x f ih =>
    rw [relabel, checkScope, checkScope, contains_map_iff hπ]
    split
    · rfl
    · exact ih (x :: scope)

theorem validate_relabel (hπ : Function.Injective π) (f : Formula) :
    (f.relabel π).validate = f.validate.mapError (.relabel π) :=
  checkScope_relabel hπ [] f

end Formula

namespace Atom

/-- The atom with `π a` in the place of every symbol `a`, the sides of an equation
in order. -/
def relabel (π : Symbol → Symbol) : Atom → Atom
  | .rel r args => .rel (π r) (args.map (Term.relabel π))
  | .eq l r => equation (l.relabel π) (r.relabel π)

theorem relabel_equation (π : Symbol → Symbol) (l r : Term) :
    (equation l r).relabel π = equation (l.relabel π) (r.relabel π) := by
  unfold equation
  split
  · exact equation_comm _ _
  · rfl

theorem ordered_relabel (π : Symbol → Symbol) (a : Atom) : (a.relabel π).Ordered := by
  cases a with
  | rel r args => trivial
  | eq l r => exact ordered_equation _ _

theorem relabel_leftInverse {a : Atom} (h : Function.LeftInverse κ π) (ha : a.Ordered) :
    (a.relabel π).relabel κ = a := by
  cases a with
  | rel r args =>
    have hargs : args.map (Term.relabel κ ∘ Term.relabel π) = args :=
      (List.map_congr_left fun t _ => Term.relabel_leftInverse h t).trans (List.map_id' args)
    rw [relabel, relabel, h r, List.map_map, hargs]
  | eq l r =>
    rw [relabel, relabel_equation, Term.relabel_leftInverse h, Term.relabel_leftInverse h]
    exact if_neg ha

theorem mem_symbols_relabel {a : Atom} {s : Symbol} (h : s ∈ a.symbols) :
    π s ∈ (a.relabel π).symbols := by
  cases a with
  | rel r args =>
    refine (List.mem_cons.mp h).elim (fun hr => hr ▸ List.mem_cons_self) fun hargs => ?_
    obtain ⟨t, ht, hs⟩ := Term.mem_symbolsAll.mp hargs
    refine List.mem_cons_of_mem _ (Term.mem_symbolsAll.mpr ⟨t.relabel π, List.mem_map_of_mem ht, ?_⟩)
    exact Term.mem_symbols_relabel.mpr ⟨s, hs, rfl⟩
  | eq l r =>
    have hside : π s ∈ (l.relabel π).symbols ∨ π s ∈ (r.relabel π).symbols :=
      (List.mem_append.mp h).imp (fun hs => Term.mem_symbols_relabel.mpr ⟨s, hs, rfl⟩)
        fun hs => Term.mem_symbols_relabel.mpr ⟨s, hs, rfl⟩
    rw [relabel, equation]
    split
    · exact List.mem_append.mpr hside.symm
    · exact List.mem_append.mpr hside

end Atom

namespace Literal

def relabel (π : Symbol → Symbol) (l : Literal) : Literal := ⟨l.atom.relabel π, l.negated⟩

theorem relabel_leftInverse {l : Literal} (h : Function.LeftInverse κ π) (hl : l.atom.Ordered) :
    (l.relabel π).relabel κ = l := by
  rw [relabel, relabel, Atom.relabel_leftInverse h hl]

end Literal

namespace Clause

/-- The clause with `π a` in the place of every symbol `a`, sorted again. -/
def relabel (π : Symbol → Symbol) (c : Clause) : Clause := ofList (c.literals.map (Literal.relabel π))

variable {c d : Clause}

theorem mem_relabel {l : Literal} :
    l ∈ (c.relabel π).literals ↔ ∃ k ∈ c.literals, k.relabel π = l := by
  rw [relabel, mem_ofList, List.mem_map]

theorem normal_relabel (π : Symbol → Symbol) (c : Clause) : (c.relabel π).Normal := by
  refine normal_ofList fun l hl => ?_
  obtain ⟨k, -, rfl⟩ := List.mem_map.mp hl
  exact Atom.ordered_relabel π k.atom

theorem relabel_ofList (π : Symbol → Symbol) (ls : List Literal) :
    (ofList ls).relabel π = ofList (ls.map (Literal.relabel π)) :=
  ofList_congr fun l => by simp only [List.mem_map, mem_ofList]

theorem relabel_union (π : Symbol → Symbol) (c d : Clause) :
    (c.union d).relabel π = (c.relabel π).union (d.relabel π) := by
  rw [union, relabel_ofList]
  refine ofList_congr fun l => ?_
  simp only [List.map_append, List.mem_append, List.mem_map, mem_relabel]

theorem relabel_leftInverse (h : Function.LeftInverse κ π) (hc : c.Normal) :
    (c.relabel π).relabel κ = c := by
  refine eq_of_mem_iff (increasing_ofList _) hc.increasing fun l => ?_
  simp only [mem_relabel, exists_exists_and_eq_and]
  constructor
  · rintro ⟨k, hk, rfl⟩
    rwa [Literal.relabel_leftInverse h (hc.ordered k hk)]
  · exact fun hl => ⟨l, hl, Literal.relabel_leftInverse h (hc.ordered l hl)⟩

theorem relabel_inj (hπ : Function.Injective π) (hc : c.Normal) (hd : d.Normal) :
    c.relabel π = d.relabel π ↔ c = d := by
  obtain ⟨κ, hκ⟩ := hπ.hasLeftInverse
  refine ⟨fun h => ?_, fun h => congrArg (relabel π) h⟩
  rw [← relabel_leftInverse hκ hc, h, relabel_leftInverse hκ hd]

theorem mem_symbols_relabel {a : Symbol} (h : a ∈ c.symbols) : π a ∈ (c.relabel π).symbols := by
  obtain ⟨l, hl, ha⟩ := mem_symbols.mp h
  exact mem_symbols.mpr ⟨l.relabel π, mem_relabel.mpr ⟨l, hl, rfl⟩, Atom.mem_symbols_relabel ha⟩

theorem isReflexive_relabel {l : Literal} (h : isReflexive l = true) (π : Symbol → Symbol) :
    isReflexive (l.relabel π) = true := by
  unfold isReflexive at h
  split at h
  · rw [beq_iff_eq] at h
    simp [h, Literal.relabel, Atom.relabel, Atom.equation, isReflexive, Term.lt_def, Term.cmp_self]
  · cases h

theorem isTautology_of_relabel (hc : c.Normal) (h : c.isTautology = true) (π : Symbol → Symbol) :
    (c.relabel π).isTautology = true := by
  rw [isTautology_iff (normal_relabel π c).increasing]
  rcases (isTautology_iff hc.increasing).mp h with ⟨l, hl, hnot⟩ | ⟨l, hl, hrefl⟩
  · exact .inl ⟨_, mem_relabel.mpr ⟨l, hl, rfl⟩, mem_relabel.mpr ⟨l.not, hnot, rfl⟩⟩
  · exact .inr ⟨_, mem_relabel.mpr ⟨l, hl, rfl⟩, isReflexive_relabel hrefl π⟩

/-- Relabelling can be undone, so it makes no tautology. -/
theorem isTautology_relabel (hπ : Function.Injective π) (hc : c.Normal) :
    (c.relabel π).isTautology = c.isTautology := by
  obtain ⟨κ, hκ⟩ := hπ.hasLeftInverse
  refine Bool.eq_iff_iff.mpr ⟨fun h => ?_, fun h => isTautology_of_relabel hc h π⟩
  have hback := isTautology_of_relabel (normal_relabel π c) h κ
  rwa [relabel_leftInverse hκ hc] at hback

theorem distribute_map (π : Symbol → Symbol) (cs ds : List Clause) :
    distribute (cs.map (relabel π)) (ds.map (relabel π)) =
      (distribute cs ds).map (List.map (relabel π)) := by
  unfold distribute
  rw [List.length_map, List.length_map]
  split
  · rfl
  · refine congrArg Except.ok ?_
    simp only [List.flatMap_map, List.map_flatMap, List.map_map]
    congr 1
    funext c
    apply List.map_congr_left
    intro d _
    exact (relabel_union π c d).symm

section Combination

variable (π : Symbol → Symbol) (x y : Except ClausifyError (List Clause))

theorem join_map :
    (do return (← x.map (List.map (relabel π))) ++ (← y.map (List.map (relabel π)))) =
      (do return (← x) ++ (← y) : Except ClausifyError (List Clause)).map (List.map (relabel π)) := by
  cases x with
  | error e => rfl
  | ok cs =>
    cases y with
    | error e => rfl
    | ok ds => exact congrArg Except.ok List.map_append.symm

theorem distribute_map_bind :
    (do distribute (← x.map (List.map (relabel π))) (← y.map (List.map (relabel π)))) =
      (do distribute (← x) (← y)).map (List.map (relabel π)) := by
  cases x with
  | error e => rfl
  | ok cs =>
    cases y with
    | error e => rfl
    | ok ds => exact distribute_map π cs ds

end Combination

/-- How `distinct` takes the next clause. -/
def keep (acc : Std.TreeSet Clause × List Clause) (c : Clause) : Std.TreeSet Clause × List Clause :=
  if acc.1.contains c then acc else (acc.1.insert c, c :: acc.2)

theorem distinct_eq (cs : List Clause) : distinct cs = (cs.foldl keep (∅, [])).2.reverse := rfl

/-- The clauses seen so far are those that have been kept. -/
def Tracks (acc : Std.TreeSet Clause × List Clause) : Prop :=
  ∀ c, acc.1.contains c = true ↔ c ∈ acc.2

theorem Tracks.keep {acc : Std.TreeSet Clause × List Clause} (h : Tracks acc) (c : Clause) :
    Tracks (keep acc c) := by
  intro d
  unfold Clause.keep
  split
  · exact h d
  · rw [Std.TreeSet.contains_insert, Bool.or_eq_true, h d, beq_iff_eq, Std.compare_eq_iff_eq,
      List.mem_cons, eq_comm]

/-- Clauses that an injective map does not identify are kept in step with their
images. -/
theorem foldl_keep_map {g : Clause → Clause} {S : Set Clause} (hg : Set.InjOn g S)
    {cs : List Clause} {acc acc' : Std.TreeSet Clause × List Clause} (hcs : ∀ c ∈ cs, c ∈ S)
    (hkept : ∀ c ∈ acc.2, c ∈ S) (h : Tracks acc) (h' : Tracks acc') (hacc : acc'.2 = acc.2.map g) :
    ((cs.map g).foldl keep acc').2 = (cs.foldl keep acc).2.map g := by
  induction cs generalizing acc acc' with
  | nil => exact hacc
  | cons c cs ih =>
    have hc := hcs c List.mem_cons_self
    have hiff : acc'.1.contains (g c) = acc.1.contains c := by
      rw [Bool.eq_iff_iff, h, h', hacc, List.mem_map]
      exact ⟨fun ⟨d, hd, heq⟩ => hg (hkept d hd) hc heq ▸ hd, fun hd => ⟨c, hd, rfl⟩⟩
    refine ih (fun d hd => hcs d (List.mem_cons_of_mem c hd)) ?_ (h.keep c) (h'.keep (g c)) ?_
    · intro d hd
      unfold keep at hd
      split at hd
      · exact hkept d hd
      · rcases List.mem_cons.mp hd with rfl | hd
        · exact hc
        · exact hkept d hd
    · unfold keep
      rw [hiff]
      split
      · exact hacc
      · rw [hacc, List.map_cons]

theorem distinct_map {g : Clause → Clause} {cs : List Clause} {S : Set Clause}
    (hg : Set.InjOn g S) (hcs : ∀ c ∈ cs, c ∈ S) : distinct (cs.map g) = (distinct cs).map g := by
  have hempty : Tracks (∅, []) := fun c => by simp
  rw [distinct_eq, distinct_eq, List.map_reverse,
    foldl_keep_map hg hcs (fun c hc => absurd hc List.not_mem_nil) hempty hempty rfl]

end Clause

/-- An equivalence has the clauses of two implications. -/
theorem Formula.clauses_iff (negated : Bool) (f g : Formula) :
    (iff f g).clauses negated = (and (or (not f) g) (or (not g) f)).clauses negated := by
  cases negated with
  | false => simp only [clauses, Bool.not_false, bind_assoc]
  | true => simp only [clauses, Bool.not_true, bind_assoc, pure_bind]

theorem Formula.clauses_relabel (π : Symbol → Symbol) (negated : Bool) (f : Formula) :
    (f.relabel π).clauses negated = (f.clauses negated).map (List.map (Clause.relabel π)) := by
  induction f generalizing negated with
  | rel r args =>
    simp only [relabel, clauses, Except.map, List.map_cons, List.map_nil, Clause.relabel_ofList]
    rfl
  | eq l r =>
    simp only [relabel, clauses, Except.map, List.map_cons, List.map_nil, Clause.relabel_ofList,
      Literal.relabel, Atom.relabel_equation]
  | not f ih =>
    rw [relabel, clauses, clauses]
    exact ih _
  | and f g ihf ihg | or f g ihf ihg | imp f g ihf ihg =>
    cases negated <;>
      simp only [relabel, clauses, ihf, ihg, Clause.join_map, Clause.distribute_map_bind]
  | iff f g ihf ihg =>
    rw [relabel, clauses_iff, clauses_iff]
    cases negated <;> simp only [clauses, ihf, ihg, Clause.join_map, Clause.distribute_map_bind]
  | all x f ih | ex x f ih => exact ih negated

end Entailment
