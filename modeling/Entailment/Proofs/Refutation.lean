import Entailment.Proofs.Saturation
import Entailment.Search.Proof
import Mathlib

/-! Soundness of proofs by refutation. An interpretation of the premises in which
the goal is false would satisfy the clauses of the negated goal, up to the
meaning of new symbols, and with them every clause of the search; but the search
has come upon the empty clause. -/
namespace Entailment

universe u

open SessionM Saturation

variable {base : List Clause} {goal : Formula} {k : Clausifier} {limits : Limits} {t : Session}

namespace Saturation

theorem grows_finish (s : Saturation) : Grows s.finish := by
  refine Grows.bind (grows_get.bind fun _ => grows_pursueFor (fun _ _ => grows_pure _) _ s ()) ?_
  rintro ⟨report, s, _⟩
  cases report with
  | found g => exact g.elim
  | ended e => exact grows_pure _

/-- A property that no inference leaves holds of the empty clause if the search
ends with a contradiction. -/
theorem Within.finish {P : Clause → Prop} {σ : Symbols} {s : Saturation} (hP : Deductive σ P)
    (hσ : σ ≤ t.symbols) (h : Within P s) (hend : (s.finish t).1.1 = .contradiction) :
    P .empty := by
  have hpursue := (h.pursueFor hP (fun (_ : Unit) _ => grows_pure ((), (none : Option Empty))) hσ
    (s.remaining t.horizon) ()).2
  unfold Saturation.finish pursue at hend
  rw [bind_apply, bind_apply, get_apply] at hend
  rcases hrun : Saturation.pursueFor (fun (_ : Unit) _ => pure ((), (none : Option Empty)))
    (s.remaining t.horizon) s () t with ⟨⟨report, s', _⟩, t'⟩
  rw [hrun] at hpursue hend
  cases report with
  | found g => exact g.elim
  | ended e =>
    cases hend
    exact hpursue rfl

end Saturation

theorem Ending.eq_contradiction_of_outcome {e : Ending} (h : e.outcome = .entailed) :
    e = .contradiction := by
  cases e with
  | contradiction => rfl
  | saturated | exhausted => cases h

theorem grows_clausify (f : Formula) (k : Clausifier) : Grows (k.clausify f) :=
  fun t => Clausifier.le_clausify f k t

/-- A proof adds names to those of the conversion it starts with. -/
theorem clausify_le_prove (base : List Clause) (goal : Formula) (k : Clausifier)
    (limits : Limits) (t : Session) :
    (k.clausify (.not goal) t).2.symbols ≤ (prove base goal k limits t).2.symbols := by
  unfold prove
  rw [bind_apply]
  rcases k.clausify (.not goal) t with ⟨⟨result, k⟩, t⟩
  cases result with
  | error e => exact le_refl t.symbols
  | ok negated =>
    refine Grows.bind (grows_insertAll (base ++ negated.clauses) (init limits)) (fun s => ?_) t
    exact (grows_finish s).bind fun _ => (grows_note _).bind fun _ => grows_pure _

theorem grows_prove (base : List Clause) (goal : Formula) (k : Clausifier) (limits : Limits) :
    Grows (prove base goal k limits) :=
  fun t => le_trans (Clausifier.le_clausify (.not goal) k t)
    (clausify_le_prove base goal k limits t)

/-- Behind every proof there is a refutation: no property that inferences keep can
hold of the premises and of the clauses of the negated goal, unless it holds of
the empty clause. -/
theorem exists_refutation (hproved : (prove base goal k limits t).1.1 = .ok .entailed) :
    ∃ cs, (k.clausify (.not goal) t).1.1 = .ok cs ∧
      ∀ P, Deductive t.symbols P → (∀ c ∈ base ++ cs.clauses, P c) → P .empty := by
  unfold prove at hproved
  rw [bind_apply] at hproved
  rcases hconvert : k.clausify (.not goal) t with ⟨⟨result, k'⟩, t'⟩
  have ht : t.symbols ≤ t'.symbols := by
    have hle := Clausifier.le_clausify (.not goal) k t
    rwa [hconvert] at hle
  rw [hconvert] at hproved
  cases result with
  | error e => cases hproved
  | ok cs =>
    refine ⟨cs, rfl, fun P hP hall => ?_⟩
    have hstart := Within.start hP hall limits t'
    refine hstart.finish (t := (start (base ++ cs.clauses) limits t').2) hP
      (le_trans ht (grows_insertAll _ _ t')) ?_
    exact Ending.eq_contradiction_of_outcome (Except.ok.inj hproved)

theorem unsatisfiable_of_prove (hproved : (prove base goal k limits t).1.1 = .ok .entailed) :
    ∃ cs, (k.clausify (.not goal) t).1.1 = .ok cs ∧
      ∀ {D : Type u} (J : Interpretation D), ¬ ∀ c ∈ base ++ cs.clauses, c.TrueIn J := by
  obtain ⟨cs, hok, hrefuted⟩ := exists_refutation hproved
  refine ⟨cs, hok, fun J hall => ?_⟩
  have hempty := hrefuted (Clause.TrueIn J) (deductive_trueIn J t.symbols) hall
  exact Clause.not_holds_of_isEmpty rfl (hempty fun _ => J.const default)

theorem convertible_of_prove {cs : ClauseSet} (hgoal : ∀ a ∈ goal.symbols, t.symbols.Knows a)
    (hsize : (prove base goal k limits t).2.symbols.size < UInt32.size)
    (hok : (k.clausify (.not goal) t).1.1 = .ok cs) : k.Convertible (.not goal) t.symbols :=
  Clausifier.convertible_of_ok hgoal hok
    ((Symbols.size_le (clausify_le_prove base goal k limits t)).trans_lt hsize)

/-- If the premises and the clauses of the negated goal have no common model, then
the premises entail the goal: in a model of the premises where the goal is false,
the Skolem symbols of the negated goal could be given a suitable meaning. -/
theorem trueIn_of_unsatisfiable {D : Type u} {I : Interpretation D} {cs : ClauseSet}
    (hbase : Clause.Over t.symbols.Knows base) (h : k.Convertible (.not goal) t.symbols)
    (hok : (k.clausify (.not goal) t).1.1 = .ok cs)
    (hunsat : ∀ J : Interpretation D, ¬ ∀ c ∈ base ++ cs.clauses, c.TrueIn J)
    (hmodel : ∀ c ∈ base, c.TrueIn I) : goal.TrueIn I := by
  by_contra hgoal
  have hclosed : ∀ x, ¬ goal.Free x := h.closed
  have hnot : (Formula.not goal).TrueIn I := (Formula.trueIn_not_iff hclosed).mpr hgoal
  obtain ⟨J, hJ, hcs⟩ := Clausifier.exists_trueIn_clausify h hok hnot
  refine hunsat J fun c hc => ?_
  rcases List.mem_append.mp hc with hc | hc
  · exact (Clause.trueIn_congr (Formula.agreeOn_knows hJ) (hbase c hc)).mp (hmodel c hc)
  · exact hcs c hc

/-- A proven goal is true in every interpretation in which the premises are, given
that all names made on the way had a 32-bit word left for them. -/
theorem trueIn_of_prove (hbase : ∀ c ∈ base, ∀ a ∈ c.symbols, t.symbols.Knows a)
    (hgoal : ∀ a ∈ goal.symbols, t.symbols.Knows a)
    (hsize : (prove base goal k limits t).2.symbols.size < UInt32.size)
    (hproved : (prove base goal k limits t).1.1 = .ok .entailed)
    (D : Type u) (I : Interpretation D) (hmodel : ∀ c ∈ base, c.TrueIn I) : goal.TrueIn I := by
  obtain ⟨cs, hok, hunsat⟩ := unsatisfiable_of_prove hproved
  exact trueIn_of_unsatisfiable hbase (convertible_of_prove hgoal hsize hok) hok hunsat hmodel

/-- The premises `c = d` and `P(c)`, where `P`, `c` and `d` are the first names. -/
def replacementPremises : List Clause :=
  [⟨[⟨.eq (.const ⟨1⟩) (.const ⟨2⟩), false⟩]⟩, ⟨[⟨.rel ⟨0⟩ [.const ⟨1⟩], false⟩]⟩]

/-- All constants are zero, and relations hold of zero. -/
def zeroes : Interpretation Nat := ⟨fun _ => 0, fun _ ds => ds.sum, fun _ ds => ds = [0]⟩

/-- From `c = d` and `P(c)` follows `P(d)`, also where both constants are zero. -/
theorem trueIn_of_prove_replacement :
    (prove replacementPremises (.rel ⟨0⟩ [.const ⟨2⟩]) .new ⟨some 4, none⟩
      (.knowing ["P", "c", "d"])).1.1 = .ok .entailed ∧
    (Formula.rel ⟨0⟩ [.const ⟨2⟩]).TrueIn zeroes := by
  have hproved : (prove replacementPremises (.rel ⟨0⟩ [.const ⟨2⟩]) .new ⟨some 4, none⟩
      (.knowing ["P", "c", "d"])).1.1 = .ok .entailed := by cbv
  have hsize : (prove replacementPremises (.rel ⟨0⟩ [.const ⟨2⟩]) .new ⟨some 4, none⟩
      (.knowing ["P", "c", "d"])).2.symbols.size < UInt32.size := by cbv
  have hmodel : ∀ c ∈ replacementPremises, c.TrueIn zeroes := by
    intro c hc v
    simp only [replacementPremises, List.mem_cons, List.not_mem_nil, or_false] at hc
    rcases hc with rfl | rfl
    · exact ⟨_, List.mem_singleton_self _, rfl⟩
    · exact ⟨_, List.mem_singleton_self _, rfl⟩
  exact ⟨hproved, trueIn_of_prove (by decide) (by decide) hsize hproved Nat zeroes hmodel⟩

end Entailment
