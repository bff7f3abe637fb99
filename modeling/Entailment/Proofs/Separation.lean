import Entailment.Proofs.Query

/-! Goals and premises stay apart. Every clause of a negated goal has an answer literal,
and no rule drops one. So whatever the search of a query derives without answer literals
follows from the premises alone. -/
namespace Entailment

universe u

open SessionM Saturation

namespace Formula

variable {p : Symbol → Prop} {f : Formula}

/-- A disjunction below universal quantifiers, with such a relation on the right. -/
def Labelled (p : Symbol → Prop) : Formula → Prop
  | .all _ f => f.Labelled p
  | .or _ (.rel r _) => p r
  | _ => False

theorem labelled_foldr_all {xs : List Symbol} (h : f.Labelled p) :
    (xs.foldr all f).Labelled p := by
  induction xs with
  | nil => exact h
  | cons x xs ih => exact ih

namespace Labelled

theorem exists_eq_or {g : Formula} (h : (f.or g).Labelled p) : ∃ r args, g = .rel r args ∧ p r := by
  cases g with
  | rel r args => exact ⟨r, args, rfl, h⟩
  | _ => cases h

theorem basic (h : f.Labelled p) : f.basic.Labelled p := by
  induction f with
  | all x f ih => exact ih h
  | or f g =>
    obtain ⟨r, args, rfl, hr⟩ := h.exists_eq_or
    exact hr
  | _ => cases h

theorem nnf (h : f.Labelled p) : f.nnf.Labelled p := by
  induction f with
  | all x f ih => exact ih h
  | or f g =>
    obtain ⟨r, args, rfl, hr⟩ := h.exists_eq_or
    exact hr
  | _ => cases h

theorem recast {g : Formula} (h : f.Labelled p) (hfg : f.Recast g) : g.Labelled p := by
  induction hfg with
  | all x y _ ih => exact ih h
  | or _ hg =>
    obtain ⟨r, args, rfl, hr⟩ := h.exists_eq_or
    cases hg
    exact hr
  | _ => cases h

/-- Distribution puts the label into every clause. -/
theorem exists_mem (hskolem : f.IsSkolem) (h : f.Labelled p) {cs : List Clause}
    (hcs : f.clauses false = .ok cs) : ∀ c ∈ cs, ∃ r args, ⟨.rel r args, false⟩ ∈ c.literals ∧ p r := by
  induction hskolem generalizing cs with
  | all x _ ih => exact ih h hcs
  | or _ _ =>
    obtain ⟨r, args, rfl, hr⟩ := h.exists_eq_or
    obtain ⟨ds, es, -, hes, hcs⟩ := Clause.exists_of_distribute hcs
    cases hes
    intro e he
    obtain ⟨c, -, d, hd, rfl⟩ := (Clause.mem_distribute hcs).mp he
    obtain rfl := List.mem_singleton.mp hd
    refine ⟨r, args, Clause.mem_ofList.mpr (List.mem_append_right _ ?_), hr⟩
    exact Clause.mem_ofList.mpr List.mem_cons_self
  | _ => cases h

end Labelled

end Formula

theorem Clausifier.exists_label_of_clausify {p : Symbol → Prop} {f : Formula} {k : Clausifier}
    {s : Session} {cs : ClauseSet} (hf : f.Labelled p) (hok : (clausify f k s).1.1 = .ok cs) :
    ∀ c ∈ cs.clauses, ∃ r args, ⟨.rel r args, false⟩ ∈ c.literals ∧ p r := by
  obtain ⟨ds, hds, hcs⟩ := exists_clauses_of_clausify hok
  have hlabelled := hf.basic.nnf.recast (recast_skolemForm f k s.symbols)
  intro c hc
  exact hlabelled.exists_mem (isSkolem_skolemForm f k s.symbols) hds c ((hcs c).mp hc).1

namespace Clause

variable {σ τ : Symbols} {c d e : Clause}

/-- No literal records an answer. -/
def AnswerFree (σ : Symbols) (c : Clause) : Prop := ∀ l ∈ c.literals, l.isAnswer σ = false

theorem answerFree_iff_of_le (hle : σ ≤ τ) (hc : c.RelationsIn σ) :
    c.AnswerFree τ ↔ c.AnswerFree σ :=
  forall₂_congr fun l hl => by rw [Literal.isAnswer_eq_of_le hle (hc l hl)]

namespace AnswerFree

theorem of_rename {ρ : Symbol → Symbol} (h : (c.rename ρ).AnswerFree σ) : c.AnswerFree σ :=
  fun l hl => (Literal.isAnswer_under σ l _).symm.trans (h _ (under_mem_under hl))

theorem of_combine {ls : List Literal} {s : Substitution} (h : (combine ls s).AnswerFree σ) :
    ∀ l ∈ ls, l.isAnswer σ = false :=
  fun l hl => (Literal.isAnswer_under σ l s.apply).symm.trans
    (h _ (mem_ofList.mpr (List.mem_map_of_mem hl)))

/-- The literal that a rule takes away was no answer. -/
theorem of_without {l : Literal} {i : Nat} (hl : (l, i) ∈ c.literals.zipIdx)
    (hnot : l.isAnswer σ = false) (h : ∀ k ∈ c.without i, k.isAnswer σ = false) :
    c.AnswerFree σ := by
  intro k hk
  obtain ⟨j, hj⟩ := List.mem_iff_getElem?.mp hk
  by_cases hji : j = i
  · rw [List.mk_mem_zipIdx_iff_getElem?, ← hji, hj] at hl
    cases hl
    exact hnot
  · exact h k (List.mem_eraseIdx_iff_getElem?.mpr ⟨j, hji, hj⟩)

theorem of_mem_resolvents (he : e ∈ c.resolvents σ d) (h : e.AnswerFree σ) :
    c.AnswerFree σ ∧ d.AnswerFree σ := by
  simp only [resolvents, List.mem_flatMap] at he
  obtain ⟨⟨l, i⟩, hl, he⟩ := he
  split at he
  · cases he
  rename_i hlanswer
  obtain ⟨⟨k, j⟩, hk, he⟩ := List.mem_flatMap.mp he
  split at he
  · cases he
  rename_i hkanswer
  obtain ⟨s, -, rfl⟩ := List.mem_map.mp he
  obtain ⟨hc, hd⟩ := List.forall_mem_append.mp h.of_combine
  refine ⟨of_without hl (Bool.eq_false_of_not_eq_true hlanswer) hc, of_without hk ?_ hd⟩
  exact (Bool.or_eq_false_iff.mp (Bool.eq_false_of_not_eq_true hkanswer)).1

theorem of_mem_factors (he : e ∈ c.factors σ) (h : e.AnswerFree σ) : c.AnswerFree σ := by
  obtain ⟨s, -, rfl⟩ := List.mem_map.mp he
  exact of_combine (s := s) h

theorem of_mem_equalityResolvents (he : e ∈ c.equalityResolvents) (h : e.AnswerFree σ) :
    c.AnswerFree σ := by
  obtain ⟨⟨l, i⟩, hl, he⟩ := List.mem_flatMap.mp he
  simp only at he
  split at he
  · split at he
    · rw [List.mem_singleton.mp he] at h
      exact of_without hl rfl h.of_combine
    · cases he
  · cases he

theorem of_mem_paramodulants (he : e ∈ c.paramodulants σ d) (h : e.AnswerFree σ) :
    c.AnswerFree σ ∧ d.AnswerFree σ := by
  obtain ⟨⟨q, i⟩, hq, he⟩ := List.mem_flatMap.mp he
  simp only at he
  split at he
  · obtain ⟨⟨t, u⟩, -, he⟩ := List.mem_flatMap.mp he
    obtain ⟨⟨k, j⟩, hk, he⟩ := List.mem_flatMap.mp he
    simp only at he
    split at he
    · cases he
    rename_i hkanswer
    obtain ⟨path, -, hpath⟩ := List.mem_filterMap.mp he
    split at hpath
    · cases hpath
    split at hpath
    · cases hpath
      obtain ⟨hc, hd⟩ := List.forall_mem_append.mp (List.forall_mem_append.mp h.of_combine).1
      exact ⟨of_without hq rfl hc, of_without hk (Bool.eq_false_of_not_eq_true hkanswer) hd⟩
    · cases hpath
  · cases he

theorem of_mem_unaryConsequences (he : e ∈ unaryConsequences σ c) (h : e.AnswerFree σ) :
    c.AnswerFree σ :=
  (List.mem_append.mp he).elim (of_mem_factors · h) (of_mem_equalityResolvents · h)

end AnswerFree

end Clause

namespace Saturation

variable {P : Clause → Prop} {σ : Symbols} {s s' : Saturation} {t t' : Session}

/-- Clauses with answers may be anything: what has none was inferred from what has none. -/
theorem Deductive.answerFree (hP : Deductive σ P) :
    Deductive σ fun c => c.RelationsIn σ ∧ (c.AnswerFree σ → P c) := by
  have hrel := deductive_relationsIn σ
  constructor
  · exact fun c ρ hc => ⟨hrel.rename c ρ hc.1, fun h => hP.rename c ρ (hc.2 h.of_rename)⟩
  · intro τ hτ c hc e he
    have he' := hrel.unary τ hτ c hc.1 e he
    refine ⟨he', fun h => hP.unary τ hτ c (hc.2 ?_) e he⟩
    rw [← Clause.answerFree_iff_of_le hτ he'] at h
    exact (Clause.answerFree_iff_of_le hτ hc.1).mp (h.of_mem_unaryConsequences he)
  · intro τ hτ c d hc hd e he
    have he' := hrel.resolvents τ hτ c d hc.1 hd.1 e he
    refine ⟨he', fun h => ?_⟩
    rw [← Clause.answerFree_iff_of_le hτ he'] at h
    obtain ⟨hfree, hfree'⟩ := h.of_mem_resolvents he
    exact hP.resolvents τ hτ c d (hc.2 ((Clause.answerFree_iff_of_le hτ hc.1).mp hfree))
      (hd.2 ((Clause.answerFree_iff_of_le hτ hd.1).mp hfree')) e he
  · intro τ hτ c d hc hd e he
    have he' := hrel.paramodulants τ hτ c d hc.1 hd.1 e he
    refine ⟨he', fun h => ?_⟩
    rw [← Clause.answerFree_iff_of_le hτ he'] at h
    obtain ⟨hfree, hfree'⟩ := h.of_mem_paramodulants he
    exact hP.paramodulants τ hτ c d (hc.2 ((Clause.answerFree_iff_of_le hτ hc.1).mp hfree))
      (hd.2 ((Clause.answerFree_iff_of_le hτ hd.1).mp hfree')) e he

theorem steady_within (hP : Deductive σ P) : Steady fun τ s => σ ≤ τ ∧ Within P s where
  mono hle h := ⟨h.1.trans hle, h.2⟩
  heard h hrest := ⟨h.1, h.2.clauses, fun f hf => h.2.pending f (hrest f hf), h.2.active,
    h.2.byWeight, h.2.byAge⟩
  select h hselect := ⟨h.1.trans (grows_select _ _), h.2.select hP h.1 hselect⟩

end Saturation

namespace Query

/-- The states of the search of a query that was started as `q₀`: those between two
bindings, and on the way to the next binding those in which findings have been taken
in and those after a selection. -/
inductive Searching (q₀ : Query) (t₀ : Session) : Saturation → Session → Prop
  | between {q t bs s} (hrun : Run q₀ t₀ q t bs) (hs : q.saturation = some s) :
    Searching q₀ t₀ s t
  | heard {s t n a report rest a' t'} (h : Searching q₀ t₀ s t)
      (hdrain : drain (Answers.receive n) s.pending a t = ((report, rest, a'), t')) :
    Searching q₀ t₀ { s with pending := rest } t'
  | selected {s s' t} (h : Searching q₀ t₀ s t) (hpending : s.pending = [])
      (hselect : (select s t).1 = some s') :
    Searching q₀ t₀ s' (select s t).2

/-- When the query is asked for its next binding, the search comes upon a contradiction. -/
def Contradicts (q : Query) (t : Session) : Prop :=
  ∃ s, q.saturation = some s ∧
    (s.pursue (Answers.receive q.vars.length) q.answers t).1.1 = .ended .contradiction

variable {q q₀ : Query} {t t₀ : Session} {s : Saturation} {bs : List Substitution}

/-- A contradiction gives the empty binding. -/
theorem next_of_contradicts (h : q.Contradicts t) : (q.next t).1.1 = some .empty := by
  obtain ⟨s, hs, hend⟩ := h
  rcases hrun : s.pursue (Answers.receive q.vars.length) q.answers t with ⟨⟨report, s', a⟩, t'⟩
  rw [hrun] at hend
  subst hend
  rw [next_of_ended hs hrun]
  rfl

section Steady

variable {Inv : Symbols → Saturation → Prop} (hInv : Steady Inv)

include hInv

theorem steady_next (h : ∀ s, q.saturation = some s → Inv t.symbols s) :
    ∀ s, (q.next t).1.2.saturation = some s → Inv (q.next t).2.symbols s := by
  cases hs : q.saturation with
  | none =>
    rw [next_of_none hs]
    exact h
  | some s =>
    have hkept := hInv.pursueFor (grows_receive q.vars.length) (h s hs) (s.remaining t.horizon)
      q.answers
    rcases hrun : s.pursue (Answers.receive q.vars.length) q.answers t with ⟨⟨report, s', a⟩, t'⟩
    rw [← pursue_eq, hrun] at hkept
    cases report with
    | found args =>
      rw [next_of_found hs hrun]
      rintro _ ⟨⟩
      exact hkept
    | ended e =>
      rw [next_of_ended hs hrun]
      rintro _ ⟨⟩

theorem Run.steady (hstart : ∀ s, q₀.saturation = some s → Inv t₀.symbols s)
    (hrun : Run q₀ t₀ q t bs) : ∀ s, q.saturation = some s → Inv t.symbols s := by
  refine Run.induction (motive := fun q t _ => ∀ s, q.saturation = some s → Inv t.symbols s)
    hstart ?_ ?_ hrun
  · exact fun h hle s hs => hInv.mono hle (h s hs)
  · exact fun h => steady_next hInv h

theorem Searching.steady (hstart : ∀ s, q₀.saturation = some s → Inv t₀.symbols s)
    (h : Searching q₀ t₀ s t) : Inv t.symbols s := by
  induction h with
  | between hrun hs => exact hrun.steady hInv hstart _ hs
  | heard _ hdrain ih => exact hInv.drain (grows_receive _) ih hdrain
  | selected _ _ hselect ih => exact hInv.select ih hselect

end Steady

section Start

variable {base : List Clause} {goal : Formula} {k : Clausifier} {limits : Limits} {cs : ClauseSet}

theorem labelled_target (goal : Formula) (t : Session) :
    (target goal t).1.Labelled (· = answerSymbol t) :=
  Formula.labelled_foldr_all (f := .or _ (.rel _ _)) rfl

/-- Every clause of the refuted formula has an answer literal. -/
theorem not_answerFree_of_conversion (hok : (conversion goal k t).1.1 = .ok cs) :
    ∀ c ∈ cs.clauses, ¬ c.AnswerFree (conversion goal k t).2.symbols := by
  intro c hc hfree
  obtain ⟨_, args, hmem, rfl⟩ :=
    Clausifier.exists_label_of_clausify (labelled_target goal t) hok c hc
  have hname : (conversion goal k t).2.symbols.name (answerSymbol t) = Atom.answerName :=
    (Symbols.name_eq_of_le (le_conversion goal k t) (knows_answerSymbol goal t)).trans
      (Symbols.name_intern _ _)
  exact absurd (hfree _ hmem) (by simp [Literal.isAnswer, Atom.isAnswer, hname])

theorem relationsIn_of_conversion (hgoal : ∀ a ∈ goal.symbols, t.symbols.Knows a)
    (hok : (conversion goal k t).1.1 = .ok cs) :
    ∀ c ∈ cs.clauses, c.RelationsIn (conversion goal k t).2.symbols := by
  refine Clausifier.forall_clausify
    (p := fun _ a => a.RelationIn (conversion goal k t).2.symbols)
    (fun n a θ h => by cases a <;> exact h) ?_ ?_ ?_ (signs_target ?_ ?_) hok
  · intro n r args h l hl
    rw [List.mem_singleton.mp (Clause.mem_ofList.mp hl)]
    exact h
  · intro n l r _ m hm
    rw [List.mem_singleton.mp (Clause.mem_ofList.mp hm)]
    exact Atom.relationIn_equation l r
  · exact fun c d hc hd l hl =>
      (List.mem_append.mp (Clause.mem_ofList.mp hl)).elim (hc l) (hd l)
  · have hle := (le_target goal t).trans (le_conversion goal k t)
    refine Formula.signs_of_atoms (fun a ha n => Atom.relationIn_of_symbols fun x hx => ?_) true
    rw [goal.atoms_peelExistentials] at ha
    exact (hgoal x (Formula.mem_symbols_of_mem_atoms ha hx)).mono hle
  · exact (knows_answerSymbol goal t).mono (le_conversion goal k t)

/-- Where the premises are true, so are all clauses without answers from which the search
starts. -/
theorem within_query (hbase : ∀ c ∈ base, ∀ a ∈ c.symbols, t.symbols.Knows a)
    (hgoal : ∀ a ∈ goal.symbols, t.symbols.Knows a)
    (hquery : (query base goal k limits t).1.1 = .ok q) {D : Type u} {I : Interpretation D}
    (hmodel : ∀ c ∈ base, c.TrueIn I) (hs : q.saturation = some s) :
    (conversion goal k t).2.symbols ≤ (query base goal k limits t).2.symbols ∧
      Within (fun c => c.RelationsIn (conversion goal k t).2.symbols ∧
        (c.AnswerFree (conversion goal k t).2.symbols → c.TrueIn I)) s := by
  obtain ⟨cs, t₁, hok, hsymbols, rfl, hsession⟩ := query_of_ok hquery
  obtain rfl := Option.some.inj hs
  have hle := (le_target goal t).trans (le_conversion goal k t)
  rw [hsession, ← hsymbols]
  refine ⟨grows_insertAll _ _ t₁,
    Within.start (deductive_trueIn I t₁.symbols).answerFree (fun c hc => ?_) limits t₁⟩
  rw [hsymbols]
  rcases List.mem_append.mp hc with hc | hc
  · refine ⟨fun l hl => Atom.relationIn_of_symbols fun a ha => ?_, fun _ => hmodel c hc⟩
    exact (hbase c hc a (Clause.mem_symbols.mpr ⟨l, hl, ha⟩)).mono hle
  · exact ⟨relationsIn_of_conversion hgoal hok c hc,
      fun h => absurd h (not_answerFree_of_conversion hok c hc)⟩

/-- The clauses without answers that a query ever holds follow from the premises alone,
and it comes upon a contradiction, which gives the empty binding, only if the premises
have no model. -/
theorem trueIn_of_searching (hbase : ∀ c ∈ base, ∀ a ∈ c.symbols, t.symbols.Knows a)
    (hgoal : ∀ a ∈ goal.symbols, t.symbols.Knows a)
    (hquery : (query base goal k limits t).1.1 = .ok q) :
    (∀ s t', Searching q (query base goal k limits t).2 s t' →
      ∀ c ∈ s.clauses, c.AnswerFree t'.symbols →
        ∀ (D : Type u) (I : Interpretation D), (∀ b ∈ base, b.TrueIn I) → c.TrueIn I) ∧
    ∀ q' t' bs, Run q (query base goal k limits t).2 q' t' bs → q'.Contradicts t' →
      (q'.next t').1.1 = some .empty ∧
        ∀ (D : Type u) (I : Interpretation D), ¬ ∀ b ∈ base, b.TrueIn I := by
  have hsteady {D : Type u} (I : Interpretation D) :=
    steady_within (deductive_trueIn I (conversion goal k t).2.symbols).answerFree
  constructor
  · intro s t' hsearching c hc hfree D I hmodel
    obtain ⟨hle, hwithin⟩ := hsearching.steady (hsteady I) fun s hs =>
      within_query hbase hgoal hquery hmodel hs
    obtain ⟨hrel, htrue⟩ := hwithin.clauses c hc
    exact htrue ((Clause.answerFree_iff_of_le hle hrel).mp hfree)
  · intro q' t' bs hrun hcontradicts
    refine ⟨next_of_contradicts hcontradicts, fun D I hmodel => ?_⟩
    obtain ⟨s, hs, hend⟩ := hcontradicts
    obtain ⟨hle, hwithin⟩ := hrun.steady (hsteady I)
      (fun s hs => within_query hbase hgoal hquery hmodel hs) s hs
    rw [pursue_eq] at hend
    have hempty := (hwithin.pursueFor (deductive_trueIn I _).answerFree (grows_receive _) hle
      (s.remaining t'.horizon) q'.answers).2 hend
    exact Clause.not_holds_of_isEmpty rfl (hempty.2 nofun fun _ => I.const default)

/-- What a query is when the conversion of its goal succeeds. -/
theorem query_of_conversion (base : List Clause) (limits : Limits)
    (hok : (conversion goal k t).1.1 = .ok cs) :
    let s := start (base ++ cs.clauses) limits
      (note (.querying goal goal.peelExistentials.1.length) (conversion goal k t).2).2
    (query base goal k limits t).1.1 =
        .ok ⟨some s.1, goal.peelExistentials.1, .empty, none⟩ ∧
      (query base goal k limits t).2 = s.2 := by
  rcases hconvert : conversion goal k t with ⟨⟨result, k'⟩, t₁⟩
  rw [hconvert] at hok
  subst hok
  unfold conversion target at hconvert
  rw [bind_apply] at hconvert
  simp only [query, bind_apply, hconvert]
  exact ⟨rfl, rfl⟩

/-- The premises `P(c)`, `¬P(x) ∨ Q(x)` and `¬Q(x)`, where `P`, `Q`, `R`, `c` and `x` are
the first names. -/
def refutedPremises : List Clause :=
  [⟨[⟨.rel ⟨0⟩ [.const ⟨3⟩], false⟩]⟩,
    ⟨[⟨.rel ⟨0⟩ [.var ⟨4⟩], true⟩, ⟨.rel ⟨1⟩ [.var ⟨4⟩], false⟩]⟩,
    ⟨[⟨.rel ⟨1⟩ [.var ⟨4⟩], true⟩]⟩]

/-- The goal `∃x R(x)`. -/
def refutedGoal : Formula := .ex ⟨4⟩ (.rel ⟨2⟩ [.var ⟨4⟩])

def refutedSession : Session := .knowing ["P", "Q", "R", "c", "x"]

def refutedQuery : (Except ClausifyError Query × Clausifier) × Session :=
  query refutedPremises refutedGoal .new ⟨some 4, none⟩ refutedSession

/-- The search from the premises and `¬R(x) ∨ $answer(x)`. -/
def refutedStart : Saturation × Session :=
  start (refutedPremises ++
      [⟨[⟨.rel ⟨2⟩ [.var ⟨4⟩], true⟩, ⟨.rel ⟨5⟩ [.var ⟨4⟩], false⟩]⟩]) ⟨some 4, none⟩
    (note (.querying refutedGoal 1) (conversion refutedGoal .new refutedSession).2).2

/-- The search after each of its selections. -/
def refutedFirst : Saturation × Session := activate 0 (refutedStart.1.taken 3 0) refutedStart.2

def refutedSecond : Saturation × Session := activate 2 (refutedFirst.1.taken 3 2) refutedFirst.2

def refutedThird : Saturation × Session := activate 1 (refutedSecond.1.taken 6 1) refutedSecond.2

def refutedFourth : Saturation × Session := activate 4 (refutedThird.1.taken 3 4) refutedThird.2

def refutedSearch : Query := ⟨some refutedStart.1, [⟨4⟩], .empty, none⟩

theorem lightest_refuted : refutedStart.1.Lightest 3 0 ∧ refutedFirst.1.Lightest 3 2 ∧
    refutedSecond.1.Lightest 6 1 ∧ refutedThird.1.Lightest 3 4 := by
  refine ⟨?_, ?_, ?_, ?_⟩ <;> decide +kernel

/-- The third selection brings `Q(c)`, and the fourth one the contradiction. -/
theorem searching_refuted : Searching refutedSearch refutedStart.2 refutedThird.1 refutedThird.2 ∧
    refutedSearch.Contradicts refutedStart.2 := by
  obtain ⟨hstart, hfirst, hsecond, hthird⟩ := lightest_refuted
  have hselected {s : Saturation} {t : Session} {weight id : Nat}
      (h : Searching refutedSearch refutedStart.2 s t) (hs : s.Lightest weight id) :
      Searching refutedSearch refutedStart.2 (activate id (s.taken weight id) t).1
        (activate id (s.taken weight id) t).2 := by
    have hselect := select_of_pick (t := t) hs.pick
    have hnext := h.selected hs.1 (congrArg Prod.fst hselect)
    rwa [hselect] at hnext
  refine ⟨hselected (hselected (hselected (.between .start rfl) hstart) hfirst) hsecond,
    refutedStart.1, rfl, ?_⟩
  have hremaining : refutedStart.1.remaining refutedStart.2.horizon = 4 := by decide +kernel
  have hpending : refutedFourth.1.pending = [.contradiction] := by decide +kernel
  have hpursue := calc refutedStart.1.pursue (Answers.receive 1) .empty refutedStart.2
    _ = pursueFor (Answers.receive 1) 4 refutedStart.1 .empty refutedStart.2 := by
      rw [pursue_eq, hremaining]
    _ = pursueFor (Answers.receive 1) 3 refutedFirst.1 .empty refutedFirst.2 :=
      hstart.pursueFor 3 _ _
    _ = pursueFor (Answers.receive 1) 2 refutedSecond.1 .empty refutedSecond.2 :=
      hfirst.pursueFor 2 _ _
    _ = pursueFor (Answers.receive 1) 1 refutedThird.1 .empty refutedThird.2 :=
      hsecond.pursueFor 1 _ _
    _ = pursueFor (Answers.receive 1) 0 refutedFourth.1 .empty refutedFourth.2 :=
      hthird.pursueFor 0 _ _
    _ = _ := (Pursuit.report (by rw [hpending]; rfl)).eq
  exact congrArg (·.1.1) hpursue

/-- The derived `Q(c)` follows from the premises, which have no model. -/
theorem trueIn_of_searching_refuted :
    refutedQuery.1.1 = .ok refutedSearch ∧
    refutedThird.1.clause 4 = ⟨[⟨.rel ⟨1⟩ [.const ⟨3⟩], false⟩]⟩ ∧
    (∀ (D : Type) (I : Interpretation D), (∀ b ∈ refutedPremises, b.TrueIn I) →
      (refutedThird.1.clause 4).TrueIn I) ∧
    refutedSearch.Contradicts refutedQuery.2 ∧
    ∀ (D : Type) (I : Interpretation D), ¬ ∀ b ∈ refutedPremises, b.TrueIn I := by
  obtain ⟨hquery, hsession⟩ : refutedQuery.1.1 = .ok refutedSearch ∧
      refutedQuery.2 = refutedStart.2 :=
    query_of_conversion refutedPremises ⟨some 4, none⟩ (show (conversion refutedGoal .new
      refutedSession).1.1 = .ok ⟨[⟨[⟨.rel ⟨2⟩ [.var ⟨4⟩], true⟩, ⟨.rel ⟨5⟩ [.var ⟨4⟩], false⟩]⟩]⟩
      from rfl)
  obtain ⟨hclause, hsize, hfree⟩ :
      refutedThird.1.clause 4 = ⟨[⟨.rel ⟨1⟩ [.const ⟨3⟩], false⟩]⟩ ∧
        4 < refutedThird.1.clauses.size ∧
        (⟨.rel ⟨1⟩ [.const ⟨3⟩], false⟩ : Literal).isAnswer refutedThird.2.symbols = false := by
    decide +kernel
  obtain ⟨hsearching, hcontradicts⟩ := searching_refuted
  obtain ⟨hfollows, hempty⟩ := trueIn_of_searching.{0} (by decide) (by decide) hquery
  rw [← hsession] at hsearching hcontradicts
  refine ⟨hquery, hclause, fun D I => ?_, hcontradicts,
    (hempty _ _ _ .start hcontradicts).2⟩
  refine hfollows _ _ hsearching _ (clause_mem hsize) ?_ D I
  rw [hclause]
  exact List.forall_mem_singleton.mpr hfree

end Start

end Query

end Entailment
