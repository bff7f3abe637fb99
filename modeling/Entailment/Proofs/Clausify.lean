import Entailment.Proofs.Matrix
import Entailment.Proofs.Recast
import Entailment.Proofs.Session

/-! Conversion to clauses keeps meaning up to Skolem symbols. Its steps are put
together here: normal form, distinct binders, Skolem terms, clauses of the
matrix, and what is left out of them. -/
namespace Entailment

universe u

namespace Clause

variable {D : Type u} {I : Interpretation D} {v : Symbol → D}

/-- The clauses seen so far have been kept, and what was kept is never lost. -/
theorem mem_keep {cs : List Clause} {c : Clause} {seen : Std.TreeSet Clause} {kept : List Clause}
    (hseen : ∀ d ∈ seen, d ∈ kept) :
    c ∈ (cs.foldl (fun (seen, kept) c =>
      if seen.contains c then (seen, kept) else (seen.insert c, c :: kept)) (seen, kept)).2 ↔
        c ∈ kept ∨ c ∈ cs := by
  induction cs generalizing seen kept with
  | nil => simp
  | cons d cs ih =>
    rw [List.foldl_cons]
    by_cases hd : seen.contains d = true
    · have hkept := hseen d hd
      simp only [hd, if_true]
      rw [ih hseen, List.mem_cons]
      constructor
      · exact fun h => h.imp_right .inr
      · rintro (h | rfl | h)
        · exact .inl h
        · exact .inl hkept
        · exact .inr h
    · simp only [hd, Bool.false_eq_true, if_false]
      rw [ih, List.mem_cons, List.mem_cons, or_left_comm, or_assoc]
      intro e he
      rcases Std.TreeSet.mem_insert.mp he with he | he
      · rw [Std.LawfulEqOrd.eq_of_compare he]
        exact List.mem_cons_self
      · exact List.mem_cons_of_mem d (hseen e he)

theorem mem_distinct {cs : List Clause} {c : Clause} : c ∈ distinct cs ↔ c ∈ cs := by
  unfold distinct
  rw [List.mem_reverse, mem_keep fun d hd => absurd hd Std.TreeSet.not_mem_emptyc]
  simp

/-- Only clauses that were not kept before are kept. -/
theorem nodup_keep {cs : List Clause} {seen : Std.TreeSet Clause} {kept : List Clause}
    (hkept : ∀ d ∈ kept, d ∈ seen) (h : kept.Nodup) :
    (cs.foldl (fun (seen, kept) c =>
      if seen.contains c then (seen, kept) else (seen.insert c, c :: kept)) (seen, kept)).2.Nodup := by
  induction cs generalizing seen kept with
  | nil => exact h
  | cons d cs ih =>
    rw [List.foldl_cons]
    by_cases hd : seen.contains d = true
    · simp only [hd, if_true]
      exact ih hkept h
    · simp only [hd, Bool.false_eq_true, if_false]
      refine ih (fun e he => ?_) (List.nodup_cons.mpr ⟨fun hmem => hd (hkept d hmem), h⟩)
      rcases List.mem_cons.mp he with rfl | he
      · exact Std.TreeSet.mem_insert_self
      · exact Std.TreeSet.mem_insert.mpr (.inr (hkept e he))

theorem nodup_distinct (cs : List Clause) : (distinct cs).Nodup :=
  List.nodup_reverse.mpr (nodup_keep (by simp) List.nodup_nil)

theorem keep_of_nodup {cs : List Clause} {seen : Std.TreeSet Clause} {kept : List Clause}
    (hseen : ∀ d ∈ seen, d ∈ kept) (h : cs.Nodup) (hnew : ∀ c ∈ cs, c ∉ kept) :
    (cs.foldl (fun (seen, kept) c =>
      if seen.contains c then (seen, kept) else (seen.insert c, c :: kept)) (seen, kept)).2 =
        cs.reverse ++ kept := by
  induction cs generalizing seen kept with
  | nil => rfl
  | cons d cs ih =>
    obtain ⟨hd, hcs⟩ := List.nodup_cons.mp h
    obtain ⟨hdkept, hnew⟩ := List.forall_mem_cons.mp hnew
    have hunseen : ¬ seen.contains d = true := fun hmem => hdkept (hseen d hmem)
    rw [List.foldl_cons, List.reverse_cons, List.append_assoc]
    simp only [hunseen, Bool.false_eq_true, if_false]
    refine ih (fun e he => ?_) hcs fun c hc => ?_
    · rcases Std.TreeSet.mem_insert.mp he with he | he
      · rw [Std.LawfulEqOrd.eq_of_compare he]
        exact List.mem_cons_self
      · exact List.mem_cons_of_mem d (hseen e he)
    · exact List.not_mem_cons_of_ne_of_not_mem (fun heq => hd (heq ▸ hc)) (hnew c hc)

/-- Without repetitions nothing is left out. -/
theorem distinct_of_nodup {cs : List Clause} (h : cs.Nodup) : distinct cs = cs := by
  unfold distinct
  rw [keep_of_nodup (fun d hd => absurd hd Std.TreeSet.not_mem_emptyc) h (by simp), List.append_nil,
    List.reverse_reverse]

theorem holds_of_hasComplement {ls : List Literal} (h : hasComplement ls = true) :
    ∃ l ∈ ls, l.Holds I v := by
  fun_induction hasComplement ls with
  | case1 l k ls ih =>
    rw [Bool.or_eq_true, Bool.and_eq_true, beq_iff_eq, bne_iff_ne] at h
    rcases h with ⟨hatom, hsign⟩ | h
    · have hiff := Literal.holds_iff_not_of_opposite (I := I) (v := v) (by rw [hatom]) hsign
      by_cases hk : k.Holds I v
      · exact ⟨k, by simp, hk⟩
      · exact ⟨l, by simp, hiff.mpr hk⟩
    · obtain ⟨m, hm, hholds⟩ := ih h
      exact ⟨m, List.mem_cons_of_mem l hm, hholds⟩
  | case2 ls => cases h

theorem holds_of_isReflexive {l : Literal} (h : isReflexive l = true) : l.Holds I v := by
  unfold isReflexive at h
  split at h
  · rw [beq_iff_eq] at h
    rw [h]
    rfl
  · cases h

/-- A tautology is true in every interpretation. -/
theorem holds_of_isTautology {c : Clause} (h : c.isTautology = true) : c.Holds I v := by
  rw [isTautology, Bool.or_eq_true, List.any_eq_true] at h
  rcases h with h | ⟨l, hl, h⟩
  · exact holds_of_hasComplement h
  · exact ⟨l, hl, holds_of_isReflexive h⟩

end Clause

namespace Clausifier

theorem symbols_sift (cs : List Clause) (s : Session) : (sift cs s).2.symbols = s.symbols :=
  SessionM.symbols_forM_note Note.tautology _ s

/-- What is left of a list of clauses. -/
def residue (cs : List Clause) : ClauseSet := ⟨Clause.distinct (cs.filter (!·.isTautology))⟩

theorem mem_residue {cs : List Clause} {c : Clause} :
    c ∈ (residue cs).clauses ↔ c ∈ cs ∧ c.isTautology = false := by
  rw [residue, Clause.mem_distinct, List.mem_filter, Bool.not_eq_true']

theorem residue_of_nodup {cs : List Clause} (h : cs.Nodup) (hcs : ∀ c ∈ cs, c.isTautology = false) :
    residue cs = ⟨cs⟩ := by
  have hfilter : cs.filter (!·.isTautology) = cs :=
    List.filter_eq_self.mpr fun c hc => by rw [hcs c hc, Bool.not_false]
  rw [residue, hfilter, Clause.distinct_of_nodup h]

variable (f : Formula) (k : Clausifier) (σ : Symbols)

/-- The normal form with distinct binders, and the names in use afterwards. -/
def prepared : Formula × BinderState := f.basic.nnf.distinctBelow [] ⟨σ, k.varCounter, []⟩

/-- The Skolem form, and the names in use afterwards. -/
def skolemForm : Formula × SkolemState :=
  (prepared f k σ).1.skolemBelow [] [] ⟨(prepared f k σ).2.symbols, k.skolemCounter⟩

theorem le_skolemForm : σ ≤ (skolemForm f k σ).2.symbols :=
  le_trans (Formula.le_distinctBelow [] f.basic.nnf ⟨σ, k.varCounter, []⟩)
    (Formula.le_skolemBelow [] [] _ ⟨(prepared f k σ).2.symbols, k.skolemCounter⟩)

theorem recast_skolemForm : f.basic.nnf.Recast (skolemForm f k σ).1 :=
  (Formula.recast_distinctBelow [] f.basic.nnf _).trans (Formula.recast_skolemBelow [] [] _ _)

/-- The part of the conversion that follows the Skolem form `g`. -/
def conclude (g : Formula) : SessionM (Except ClausifyError ClauseSet × Clausifier) := do
  SessionM.note (.skolemForm f g)
  match g.clauses false with
  | .error e => return (.error e, k)
  | .ok cs =>
    let cs ← sift cs
    SessionM.note (.converted f cs)
    return (.ok cs, k)

variable {f k} {s : Session}

theorem clausify_of_error {e : ScopeError} (h : f.validate = .error e) :
    clausify f k s = ((.error (.scope e), k), s) := by
  unfold clausify
  rw [h]
  rfl

theorem clausify_of_ok (h : f.validate = .ok ()) :
    clausify f k s =
      conclude f ⟨(prepared f k s.symbols).2.counter, (skolemForm f k s.symbols).2.counter⟩
        (skolemForm f k s.symbols).1 { s with symbols := (skolemForm f k s.symbols).2.symbols } := by
  unfold clausify
  rw [h]
  rfl

theorem symbols_conclude (g : Formula) : (conclude f k g s).2.symbols = s.symbols := by
  unfold conclude
  cases g.clauses false with
  | error e => rfl
  | ok cs => exact symbols_sift cs _

theorem fst_conclude (g : Formula) : (conclude f k g s).1.1 = (g.clauses false).map residue := by
  unfold conclude
  cases g.clauses false with
  | error e => rfl
  | ok cs => rfl

/-- The clauses are what is left of those of the Skolem form. -/
theorem fst_clausify_of_ok (h : f.validate = .ok ()) :
    (clausify f k s).1.1 = ((skolemForm f k s.symbols).1.clauses false).map residue := by
  rw [clausify_of_ok h, fst_conclude]

theorem validate_of_clausify {cs : ClauseSet} (hok : (clausify f k s).1.1 = .ok cs) :
    f.validate = .ok () := by
  cases hvalid : f.validate with
  | ok => rfl
  | error e =>
    rw [clausify_of_error hvalid] at hok
    cases hok

theorem symbols_clausify_of_ok (h : f.validate = .ok ()) :
    (clausify f k s).2.symbols = (skolemForm f k s.symbols).2.symbols := by
  rw [clausify_of_ok h, symbols_conclude]

theorem le_clausify (f : Formula) (k : Clausifier) (s : Session) :
    s.symbols ≤ (clausify f k s).2.symbols := by
  cases hvalid : f.validate with
  | ok =>
    rw [symbols_clausify_of_ok hvalid]
    exact le_skolemForm f k s.symbols
  | error e => rw [clausify_of_error hvalid]

theorem isNnf_prepared (f : Formula) (k : Clausifier) (σ : Symbols) : (prepared f k σ).1.IsNnf :=
  Formula.isNnf_distinctBelow (Formula.isNnf_pushNegation false f.basic) [] _

theorem isSkolem_skolemForm (f : Formula) (k : Clausifier) (σ : Symbols) :
    (skolemForm f k σ).1.IsSkolem :=
  Formula.isSkolem_skolemBelow (isNnf_prepared f k σ) [] [] _

/-- Names are known, the formula is closed, and names do not run out. -/
structure Convertible (f : Formula) (k : Clausifier) (σ : Symbols) : Prop where
  names : ∀ a ∈ f.symbols, σ.Knows a
  closed : ∀ x, ¬ f.Free x
  size : (skolemForm f k σ).2.symbols.size < UInt32.size

theorem convertible_of_ok {cs : ClauseSet} (hnames : ∀ a ∈ f.symbols, s.symbols.Knows a)
    (hok : (clausify f k s).1.1 = .ok cs)
    (hsize : (clausify f k s).2.symbols.size < UInt32.size) : Convertible f k s.symbols where
  names := hnames
  closed := Formula.not_free_of_validate (validate_of_clausify hok)
  size := by rwa [← symbols_clausify_of_ok (validate_of_clausify hok)]

namespace Convertible

variable {σ : Symbols} {D : Type u} {I : Interpretation D}

theorem size_prepared (h : Convertible f k σ) : (prepared f k σ).2.symbols.size < UInt32.size :=
  (Symbols.size_le (Formula.le_skolemBelow [] [] _ ⟨_, k.skolemCounter⟩)).trans_lt h.size

theorem names_nnf (h : Convertible f k σ) (a : Symbol) (ha : a ∈ f.basic.nnf.symbols) :
    σ.Knows a :=
  h.names a (Formula.mem_symbols_basic.mp (Formula.mem_symbols_pushNegation.mp ha))

theorem ready (h : Convertible f k σ) : Formula.Ready [] f.basic.nnf ⟨σ, k.varCounter, []⟩ :=
  Formula.ready_distinctBinders k.varCounter h.names_nnf

theorem trueIn_prepared (h : Convertible f k σ) : (prepared f k σ).1.TrueIn I ↔ f.TrueIn I := by
  refine forall_congr' fun v => ?_
  calc (prepared f k σ).1.Holds I v
      ↔ f.basic.nnf.Holds I v := Formula.holds_distinctBelow h.ready h.size_prepared v
    _ ↔ f.basic.Holds I v := Formula.holds_pushNegation false f.basic v
    _ ↔ f.Holds I v := Formula.holds_basic f v

theorem nodup_prepared (h : Convertible f k σ) : (prepared f k σ).1.binders.Nodup :=
  Formula.nodup_distinctBinders k.varCounter h.names_nnf h.size_prepared

theorem not_free_prepared (h : Convertible f k σ) (x : Symbol) : ¬ (prepared f k σ).1.Free x := by
  intro hx
  obtain ⟨y, hy, -⟩ := (Formula.free_distinctBelow h.ready h.size_prepared x).mp hx
  exact h.closed y (Formula.free_basic.mp (Formula.free_pushNegation.mp hy))

theorem scope_prepared (h : Convertible f k σ) :
    Formula.Scoped [] [] (prepared f k σ).1 ⟨(prepared f k σ).2.symbols, k.skolemCounter⟩ where
  names := Formula.knows_distinctBelow h.ready
  outer _ ha := absurd ha List.not_mem_nil
  terms z hz := absurd hz (h.not_free_prepared z)
  vars z hz := absurd hz (h.not_free_prepared z)
  unused _ _ := ⟨List.not_mem_nil, rfl⟩
  nodup := h.nodup_prepared

theorem trueIn_of_skolemForm (h : Convertible f k σ) (htrue : (skolemForm f k σ).1.TrueIn I) :
    f.TrueIn I := by
  refine h.trueIn_prepared.mp fun v => ?_
  exact Formula.holds_of_skolemBelow (isNnf_prepared f k σ) h.scope_prepared v (htrue v)

theorem exists_trueIn_skolemForm (h : Convertible f k σ) (htrue : f.TrueIn I) :
    ∃ J : Interpretation D,
      I.AgreeOn (fun c => ¬ σ.SkolemBetween (skolemForm f k σ).2.symbols c) J ∧
        (skolemForm f k σ).1.TrueIn J := by
  obtain ⟨J, hJ, hform⟩ :=
    Formula.extends_skolemBelow D (isNnf_prepared f k σ) h.scope_prepared h.size I
  have hle := Formula.le_distinctBelow [] f.basic.nnf ⟨σ, k.varCounter, []⟩
  refine ⟨J, hJ.mono fun c hc hnew => hc (hnew.earlier hle), fun v => hform v ?_⟩
  exact h.trueIn_prepared.mpr htrue v

theorem trueIn_skolemForm_iff (h : Convertible f k σ) {ds : List Clause}
    (hds : (skolemForm f k σ).1.clauses false = .ok ds) :
    (skolemForm f k σ).1.TrueIn I ↔ ∀ d ∈ ds, d.TrueIn I := by
  have hclosed (x : Symbol) : ¬ (skolemForm f k σ).1.Free x := fun hx =>
    List.not_mem_nil (Formula.mem_of_free_skolemBelow (isNnf_prepared f k σ) h.scope_prepared hx)
  have hnodup : (skolemForm f k σ).1.binders.Nodup :=
    h.nodup_prepared.sublist (Formula.binders_skolemBelow_sublist [] [] _ _)
  rw [Formula.trueIn_iff_matrix (isSkolem_skolemForm f k σ) hnodup hclosed]
  constructor
  · exact fun hmatrix d hd v => (Formula.allHold_clauses hds).mpr (hmatrix v) d hd
  · exact fun hall v => (Formula.allHold_clauses hds).mp fun d hd => hall d hd v

end Convertible

theorem exists_residue_of_clausify {cs : ClauseSet} (hok : (clausify f k s).1.1 = .ok cs) :
    ∃ ds, (skolemForm f k s.symbols).1.clauses false = .ok ds ∧ cs = residue ds := by
  rw [fst_clausify_of_ok (validate_of_clausify hok)] at hok
  cases hds : (skolemForm f k s.symbols).1.clauses false with
  | error e =>
    rw [hds] at hok
    cases hok
  | ok ds =>
    rw [hds] at hok
    exact ⟨ds, rfl, (Except.ok.inj hok).symm⟩

/-- On success the clauses are those of the Skolem form that are no tautologies. -/
theorem exists_clauses_of_clausify {cs : ClauseSet} (hok : (clausify f k s).1.1 = .ok cs) :
    ∃ ds, (skolemForm f k s.symbols).1.clauses false = .ok ds ∧
      ∀ c, c ∈ cs.clauses ↔ c ∈ ds ∧ c.isTautology = false := by
  obtain ⟨ds, hds, rfl⟩ := exists_residue_of_clausify hok
  exact ⟨ds, hds, fun c => mem_residue⟩

theorem trueIn_skolemForm_iff_clauses {D : Type u} {I : Interpretation D} {cs : ClauseSet}
    (h : Convertible f k s.symbols) (hok : (clausify f k s).1.1 = .ok cs) :
    (skolemForm f k s.symbols).1.TrueIn I ↔ ∀ c ∈ cs.clauses, c.TrueIn I := by
  obtain ⟨ds, hds, hcs⟩ := exists_clauses_of_clausify hok
  rw [h.trueIn_skolemForm_iff hds]
  constructor
  · exact fun hall c hc => hall c ((hcs c).mp hc).1
  · intro hall d hd
    cases htautology : d.isTautology with
    | true => exact fun v => Clause.holds_of_isTautology htautology
    | false => exact hall d ((hcs d).mpr ⟨hd, htautology⟩)

/-- The symbols of the clauses are in the table after the conversion. -/
theorem knows_of_clausify {cs : ClauseSet} (h : Convertible f k s.symbols)
    (hok : (clausify f k s).1.1 = .ok cs) :
    Clause.Over (clausify f k s).2.symbols.Knows cs.clauses := by
  obtain ⟨ds, hds, hcs⟩ := exists_clauses_of_clausify hok
  rw [symbols_clausify_of_ok (validate_of_clausify hok)]
  intro c hc
  exact Formula.over_clauses hds
    (Formula.knows_skolemBelow (isNnf_prepared f k s.symbols) h.scope_prepared) c ((hcs c).mp hc).1

section Models

variable {cs : ClauseSet} {D : Type u} {I : Interpretation D} (h : Convertible f k s.symbols)
  (hok : (clausify f k s).1.1 = .ok cs)

include h hok

theorem trueIn_of_clausify (hall : ∀ c ∈ cs.clauses, c.TrueIn I) : f.TrueIn I :=
  h.trueIn_of_skolemForm ((trueIn_skolemForm_iff_clauses h hok).mpr hall)

theorem exists_trueIn_clausify (htrue : f.TrueIn I) :
    ∃ J : Interpretation D,
      I.AgreeOn (fun c => ¬ s.symbols.SkolemBetween (clausify f k s).2.symbols c) J ∧
        ∀ c ∈ cs.clauses, c.TrueIn J := by
  obtain ⟨J, hJ, hform⟩ := h.exists_trueIn_skolemForm htrue
  rw [symbols_clausify_of_ok (validate_of_clausify hok)]
  exact ⟨J, hJ, (trueIn_skolemForm_iff_clauses h hok).mp hform⟩

end Models

/-- A model of the clauses is a model of the formula, and a model of the formula
becomes one of the clauses when the Skolem symbols that the conversion made are
given another meaning. Symbols are 32-bit words, so that a table has new ones as
long as it is smaller than `UInt32.size`. -/
theorem clausify_conservative {cs : ClauseSet} (hnames : ∀ a ∈ f.symbols, s.symbols.Knows a)
    (hok : (clausify f k s).1.1 = .ok cs)
    (hsize : (clausify f k s).2.symbols.size < UInt32.size) (D : Type u) (I : Interpretation D) :
    ((∀ c ∈ cs.clauses, c.TrueIn I) → f.TrueIn I) ∧
    (f.TrueIn I → ∃ J : Interpretation D,
      I.AgreeOn (fun c => ¬ s.symbols.SkolemBetween (clausify f k s).2.symbols c) J ∧
        ∀ c ∈ cs.clauses, c.TrueIn J) := by
  have h := convertible_of_ok hnames hok hsize
  exact ⟨trueIn_of_clausify h hok, exists_trueIn_clausify h hok⟩

/-- `(∀ x. ∃ y. P(x, y)) ∧ (∃ x. ∀ y. P(x, y))`, where `P`, `x` and `y` are the
first three names. -/
def noTopButBottom : Formula :=
  .and (.all ⟨1⟩ (.ex ⟨2⟩ (.rel ⟨0⟩ [.var ⟨1⟩, .var ⟨2⟩])))
    (.ex ⟨1⟩ (.all ⟨2⟩ (.rel ⟨0⟩ [.var ⟨1⟩, .var ⟨2⟩])))

/-- Its clauses `P(x, $sk1(x))` and `P($sk2, y_2)`. -/
def noTopButBottomClauses : ClauseSet :=
  ⟨[⟨[⟨.rel ⟨0⟩ [.var ⟨1⟩, .app ⟨5⟩ [.var ⟨1⟩]], false⟩]⟩,
    ⟨[⟨.rel ⟨0⟩ [.const ⟨6⟩, .var ⟨4⟩], false⟩]⟩]⟩

/-- All relations mean that the arguments increase. -/
def natOrder : Interpretation Nat := ⟨fun _ => 1, fun _ _ => 1, fun _ ds => ds.Pairwise (· ≤ ·)⟩

theorem trueIn_natOrder : noTopButBottom.TrueIn natOrder := by
  intro v
  constructor
  · intro d
    exact ⟨d, by simp [Formula.Holds, natOrder]⟩
  · refine ⟨0, fun d => ?_⟩
    simp [Formula.Holds, natOrder]

theorem clausify_conservative_natOrder :
    (clausify noTopButBottom new (.knowing ["P", "x", "y"])).1.1 = .ok noTopButBottomClauses ∧
    (∀ a ∈ noTopButBottom.symbols, (Session.knowing ["P", "x", "y"]).symbols.Knows a) ∧
    ∃ J : Interpretation Nat,
      natOrder.AgreeOn (fun c => ¬ (Session.knowing ["P", "x", "y"]).symbols.SkolemBetween
        (clausify noTopButBottom new (.knowing ["P", "x", "y"])).2.symbols c) J ∧
        ∀ c ∈ noTopButBottomClauses.clauses, c.TrueIn J := by
  have hok : (clausify noTopButBottom new (.knowing ["P", "x", "y"])).1.1 =
      .ok noTopButBottomClauses := by decide
  have hnames : ∀ a ∈ noTopButBottom.symbols,
      (Session.knowing ["P", "x", "y"]).symbols.Knows a := by decide
  exact ⟨hok, hnames,
    (clausify_conservative hnames hok (by decide) Nat natOrder).2 trueIn_natOrder⟩

end Clausifier

end Entailment
