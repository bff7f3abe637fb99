import Entailment.Proofs.ClauseForm

/-! Clause form is stable. A clause stands for its universal closure, and a list of
clauses for the conjunction of these. Converting that formula gives the clauses
back, one by one and in order, with other names for their variables. -/
namespace Entailment

def Atom.toFormula : Atom → Formula
  | .rel r args => .rel r args
  | .eq l r => .eq l r

def Literal.toFormula (l : Literal) : Formula :=
  if l.negated then .not l.atom.toFormula else l.atom.toFormula

/-- The formulas joined from the left, if there are any. -/
def Formula.join (op : Formula → Formula → Formula) : List Formula → Option Formula
  | [] => none
  | f :: fs => some (fs.foldl op f)

/-- The disjunction of the literals below quantifiers for all variables. There is none
for the empty clause. -/
def Clause.toFormula (c : Clause) : Option Formula :=
  (Formula.join .or (c.literals.map Literal.toFormula)).map fun f => c.vars.foldr .all f

/-- The conjunction of the closures of the clauses. -/
def ClauseSet.toFormula (cs : ClauseSet) : Option Formula := do
  Formula.join .and (← cs.clauses.mapM Clause.toFormula)

section Joins

variable {α : Type} {op : Formula → Formula → Formula} {R : α → Formula → Prop}

/-- The formula is made of parts for the elements of the list, joined from the left. -/
inductive Joins (op : Formula → Formula → Formula) (R : α → Formula → Prop) :
    List α → Formula → Prop
  | one {a f} (h : R a f) : Joins op R [a] f
  | snoc {as f b g} (h : Joins op R as f) (hg : R b g) : Joins op R (as ++ [b]) (op f g)

theorem Joins.foldl {as bs : List α} {f : Formula} {gs : List Formula} (h : Joins op R as f)
    (hgs : List.Forall₂ R bs gs) : Joins op R (as ++ bs) (gs.foldl op f) := by
  induction hgs generalizing as f with
  | nil => rwa [List.append_nil]
  | cons hg _ ih =>
    rw [List.append_cons]
    exact ih (h.snoc hg)

theorem Joins.forall {P : Formula → Prop} {as : List α} {f : Formula} (h : Joins op R as f)
    (hpart : ∀ a ∈ as, ∀ f, R a f → P f) (hop : ∀ f g, P f → P g → P (op f g)) : P f := by
  induction h with
  | one h => exact hpart _ List.mem_cons_self _ h
  | snoc _ hg ih =>
    obtain ⟨has, hb⟩ := List.forall_mem_append.mp hpart
    exact hop _ _ (ih has) (hb _ List.mem_cons_self _ hg)

theorem exists_join (op : Formula → Formula → Formula) {as : List α} {fs : List Formula}
    (h : List.Forall₂ R as fs) (hne : as ≠ []) :
    ∃ f, Formula.join op fs = some f ∧ Joins op R as f := by
  cases h with
  | nil => exact absurd rfl hne
  | cons hf hfs => exact ⟨_, rfl, (Joins.one hf).foldl hfs⟩

theorem exists_mapM {p : α → Option Formula} {as : List α}
    (h : ∀ a ∈ as, ∃ f, p a = some f ∧ R a f) :
    ∃ fs, as.mapM p = some fs ∧ List.Forall₂ R as fs := by
  induction as with
  | nil => exact ⟨[], rfl, .nil⟩
  | cons a as ih =>
    obtain ⟨⟨f, hf, hR⟩, has⟩ := List.forall_mem_cons.mp h
    obtain ⟨fs, hfs, hall⟩ := ih has
    refine ⟨f :: fs, ?_, .cons hR hall⟩
    rw [List.mapM_cons, hf, hfs]
    rfl

end Joins

namespace Clause

/-- The formula quantifies all variables of the disjunction of the literals. -/
def Closure (c : Clause) (f : Formula) : Prop :=
  ∃ g, Joins .or (fun l f => f = Literal.toFormula l) c.literals g ∧ f = c.vars.foldr .all g

theorem exists_toFormula {c : Clause} (h : c.literals ≠ []) :
    ∃ f, c.toFormula = some f ∧ c.Closure f := by
  have hall : List.Forall₂ (fun l f => f = Literal.toFormula l) c.literals
      (c.literals.map Literal.toFormula) :=
    List.forall₂_map_right_iff.mpr (List.forall₂_same.mpr fun _ _ => rfl)
  obtain ⟨g, hg, hjoins⟩ := exists_join .or hall h
  exact ⟨_, congrArg (Option.map _) hg, g, hjoins, rfl⟩

end Clause

theorem ClauseSet.exists_toFormula {cs : ClauseSet} (hne : cs.clauses ≠ [])
    (h : ∀ c ∈ cs.clauses, c.literals ≠ []) :
    ∃ g, cs.toFormula = some g ∧ Joins .and Clause.Closure cs.clauses g := by
  obtain ⟨fs, hfs, hall⟩ := exists_mapM fun c hc => Clause.exists_toFormula (h c hc)
  obtain ⟨g, hg, hjoins⟩ := exists_join .and hall hne
  refine ⟨g, ?_, hjoins⟩
  unfold toFormula
  rw [hfs]
  exact hg

namespace Formula

/-- What clauses stand for: a negation normal form with universal quantifiers only that
passes the scope check and has the symbols of `P`. -/
structure Clausal (P : Symbol → Prop) (scope : List Symbol) (f : Formula) : Prop where
  isSkolem : f.IsSkolem
  inScope : f.checkScope scope = .ok ()
  symbols : ∀ a ∈ f.symbols, P a

namespace Clausal

variable {P : Symbol → Prop} {scope : List Symbol} {f g : Formula}

theorem and (hf : f.Clausal P scope) (hg : g.Clausal P scope) :
    (Formula.and f g).Clausal P scope where
  isSkolem := .and hf.isSkolem hg.isSkolem
  inScope := bind_eq_ok_iff.mpr ⟨(), hf.inScope, hg.inScope⟩
  symbols := List.forall_mem_append.mpr ⟨hf.symbols, hg.symbols⟩

theorem or (hf : f.Clausal P scope) (hg : g.Clausal P scope) :
    (Formula.or f g).Clausal P scope where
  isSkolem := .or hf.isSkolem hg.isSkolem
  inScope := bind_eq_ok_iff.mpr ⟨(), hf.inScope, hg.inScope⟩
  symbols := List.forall_mem_append.mpr ⟨hf.symbols, hg.symbols⟩

theorem literal {l : Literal} (hsymbols : ∀ a ∈ l.atom.symbols, P a)
    (hvars : ∀ x, l.HasVar x → x ∈ scope) : l.toFormula.Clausal P scope := by
  obtain ⟨a, negated⟩ := l
  have hscope : Term.checkScopeAll scope a.terms = .ok () :=
    Term.checkScopeAll_eq_ok_iff.mpr fun t ht =>
      Term.checkScope_eq_ok_iff.mpr fun x hx => hvars x ⟨t, ht, hx⟩
  cases a with
  | rel r args | eq l r => cases negated <;> exact ⟨by constructor, hscope, hsymbols⟩

theorem foldr_all {xs : List Symbol} (hxs : xs.Nodup) (hP : ∀ x ∈ xs, P x)
    (h : f.Clausal P xs.reverse) : (xs.foldr all f).Clausal P [] where
  isSkolem := h.isSkolem.foldr_all xs
  inScope := by
    refine checkScope_foldr_all.mpr ⟨hxs, fun x _ => List.not_mem_nil, ?_⟩
    rw [List.append_nil]
    exact h.inScope
  symbols a ha := (mem_symbols_foldr_all.mp ha).elim (hP a) (h.symbols a)

end Clausal

end Formula

namespace Clause

theorem mem_symbols_of_mem_vars {c : Clause} {x : Symbol} (h : x ∈ c.vars) : x ∈ c.symbols := by
  obtain ⟨l, hl, t, ht, hx⟩ := mem_vars.mp h
  exact mem_symbols.mpr ⟨l, hl, Atom.mem_symbols_of_mem_terms ht (Term.mem_symbols_of_hasVar hx)⟩

theorem Closure.clausal {c : Clause} {f : Formula} {P : Symbol → Prop} (h : c.Closure f)
    (hP : ∀ a ∈ c.symbols, P a) : f.Clausal P [] := by
  obtain ⟨g, hg, rfl⟩ := h
  have hvars (x : Symbol) (hx : x ∈ c.vars) : P x := hP x (mem_symbols_of_mem_vars hx)
  refine .foldr_all (Term.nodup_varsOf _) hvars (hg.forall ?_ fun _ _ => .or)
  rintro l hl _ rfl
  refine .literal (fun a ha => hP a (mem_symbols.mpr ⟨l, hl, ha⟩)) fun x hx => ?_
  exact List.mem_reverse.mpr (mem_vars.mpr ⟨l, hl, hx⟩)

theorem ofList_union (ls ks : List Literal) :
    (ofList ls).union (ofList ks) = ofList (ls ++ ks) :=
  ofList_congr fun l => by simp only [List.mem_append, mem_ofList]

end Clause

namespace Formula

variable {ρ : List (Symbol × Symbol)} {f g : Formula}

/-- Below the binders that `ρ` pairs, the formula has one clause, which consists of the
literals with the new names of their variables. -/
structure Reads (ρ : List (Symbol × Symbol)) (ls : List Literal) (f : Formula) : Prop where
  vars : ∀ l ∈ ls, ∀ x, l.HasVar x → Corresponds ρ x (renamed ρ x)
  clauses : f.clauses false = .ok [.ofList (ls.map (·.mapTerms (Term.rename (renamed ρ))))]

theorem Reads.or {ls ks : List Literal} (hf : f.Reads ρ ls) (hg : g.Reads ρ ks) :
    (Formula.or f g).Reads ρ (ls ++ ks) where
  vars := List.forall_mem_append.mpr ⟨hf.vars, hg.vars⟩
  clauses := by
    rw [List.map_append, ← Clause.ofList_union, Formula.clauses, hf.clauses, hg.clauses]
    rfl

theorem rename_eq_renamed {t : Term} {π : Symbol → Symbol}
    (h : ∀ x, t.hasVar x = true → Corresponds ρ x (π x)) :
    t.rename π = t.rename (renamed ρ) :=
  Term.subst_congr fun x hx => congrArg Term.var (h x hx).renamed_eq.symm

theorem clauses_of_alphaEq_atom {a : Atom} (h : AlphaEq ρ a.toFormula g) :
    (∀ t ∈ a.terms, ∀ x, t.hasVar x = true → Corresponds ρ x (renamed ρ x)) ∧
      ∀ negated, g.clauses negated =
        .ok [.ofList [⟨a.mapTerms (Term.rename (renamed ρ)), negated⟩]] := by
  -- Whatever renaming the atom was given, on its variables it is that of the binders.
  cases a with
  | rel r args =>
    cases h with
    | rel hπ =>
      rw [List.map_congr_left fun t ht => rename_eq_renamed (hπ t ht)]
      exact ⟨fun t ht x hx => (hπ t ht x hx).self_renamed, fun negated => rfl⟩
  | eq l r =>
    cases h with
    | eq hπ =>
      rw [rename_eq_renamed (hπ l (by simp)), rename_eq_renamed (hπ r (by simp))]
      exact ⟨fun t ht x hx => (hπ t ht x hx).self_renamed, fun negated => rfl⟩

theorem reads_literal {l : Literal} (h : AlphaEq ρ l.toFormula g) : g.Reads ρ [l] := by
  obtain ⟨a, negated⟩ := l
  cases negated with
  | false =>
    obtain ⟨hvars, hclauses⟩ := clauses_of_alphaEq_atom h
    exact ⟨List.forall_mem_singleton.mpr fun x ⟨t, ht, hx⟩ => hvars t ht x hx, hclauses false⟩
  | true =>
    cases h with
    | not h =>
      obtain ⟨hvars, hclauses⟩ := clauses_of_alphaEq_atom h
      exact ⟨List.forall_mem_singleton.mpr fun x ⟨t, ht, hx⟩ => hvars t ht x hx, hclauses true⟩

theorem reads_of_joins {ls : List Literal}
    (h : Joins .or (fun l f => f = Literal.toFormula l) ls f) (hα : AlphaEq ρ f g) :
    g.Reads ρ ls := by
  induction h generalizing g with
  | one h => exact reads_literal (h ▸ hα)
  | snoc _ hl ih =>
    cases hα with
    | or hf hg => exact (ih hf).or (reads_literal (hl ▸ hg))

/-- Quantifiers in front of a formula tell which variables have which new names, and do
nothing else to its clauses. -/
theorem exists_of_alphaEq_foldr_all {xs : List Symbol} (h : AlphaEq ρ (xs.foldr all f) g) :
    ∃ ρ' g', AlphaEq ρ' f g' ∧ g.clauses false = g'.clauses false ∧
      ∀ x y, Corresponds ρ' x y → x ∈ xs ∧ y ∈ g.binders ∨ x ∉ xs ∧ Corresponds ρ x y := by
  induction xs generalizing ρ g with
  | nil => exact ⟨ρ, g, h, rfl, fun x y hxy => .inr ⟨List.not_mem_nil, hxy⟩⟩
  | cons z xs ih =>
    cases h with
    | @all _ _ w _ g h =>
      obtain ⟨ρ', g', hbody, hclauses, hbound⟩ := ih h
      refine ⟨ρ', g', hbody, hclauses, fun x y hxy => ?_⟩
      rcases hbound x y hxy with ⟨hx, hy⟩ | ⟨hx, ⟨hxz, hyw⟩ | ⟨hxz, -, hxy⟩⟩
      · exact .inl ⟨List.mem_cons_of_mem z hx, List.mem_cons_of_mem w hy⟩
      · exact .inl ⟨hxz ▸ List.mem_cons_self, hyw ▸ List.mem_cons_self⟩
      · exact .inr ⟨List.not_mem_cons_of_ne_of_not_mem hxz hx, hxy⟩

end Formula

namespace Clause

variable {c d : Clause} {cs cs' ds ds' : List Clause} {f g : Formula}

/-- `d` is `c` after an injective renaming of its variables. The literals are sorted
again then, and so are the sides of equations. -/
def Renamed (c d : Clause) : Prop := ∃ π, c.KeepsApart π ∧ d = c.rename π

namespace Renamed

theorem eq_of_vars_eq_nil (hc : c.Normal) (h : c.Renamed d) (hd : d.vars = []) : c = d := by
  obtain ⟨π, -, rfl⟩ := h
  refine (under_eq_self hc fun x hx => ?_).symm
  have hmem : π x ∈ (c.rename π).vars := mem_vars_rename.mpr ⟨x, hx, rfl⟩
  rw [hd] at hmem
  cases hmem

theorem isTautology_eq_false (hc : c.Normal) (h : c.Renamed d) (hfalse : c.isTautology = false) :
    d.isTautology = false := by
  obtain ⟨π, hπ, rfl⟩ := h
  obtain ⟨η, hη⟩ := exists_under_rename hc hπ
  by_contra htrue
  have htautology := isTautology_under (normal_rename π c) (Bool.of_not_eq_false htrue) η
  rw [hη, hfalse] at htautology
  cases htautology

theorem exists_mem (h : List.Forall₂ Renamed cs ds) (hd : d ∈ ds) : ∃ c ∈ cs, c.Renamed d := by
  induction h with
  | nil => cases hd
  | cons hcd _ ih =>
    rcases List.mem_cons.mp hd with rfl | hd
    · exact ⟨_, List.mem_cons_self, hcd⟩
    · obtain ⟨c, hc, hrenamed⟩ := ih hd
      exact ⟨c, List.mem_cons_of_mem _ hc, hrenamed⟩

end Renamed

/-- The formula has a copy of each clause, all of them different and with variables from
its own quantifiers. -/
structure Copies (cs : List Clause) (f : Formula) (ds : List Clause) : Prop where
  clauses : f.clauses false = .ok ds
  renamed : List.Forall₂ Renamed cs ds
  vars : ∀ d ∈ ds, ∀ x ∈ d.vars, x ∈ f.binders
  nodup : ds.Nodup

theorem Closure.exists_copy (h : c.Closure f) (hα : Formula.AlphaEq [] f g) :
    ∃ d, Copies [c] g [d] := by
  obtain ⟨body, hbody, rfl⟩ := h
  obtain ⟨ρ, g', hα, hclauses, hbound⟩ := Formula.exists_of_alphaEq_foldr_all hα
  have hreads := Formula.reads_of_joins hbody hα
  have hvars (x : Symbol) (hx : x ∈ c.vars) : Formula.Corresponds ρ x (Formula.renamed ρ x) := by
    obtain ⟨l, hl, hx⟩ := mem_vars.mp hx
    exact hreads.vars l hl x hx
  have hapart : c.KeepsApart (Formula.renamed ρ) := by
    intro x hx y hy hxy
    exact (hvars x hx).injective (hxy ▸ hvars y hy)
  refine ⟨c.rename (Formula.renamed ρ), hclauses.trans hreads.clauses, .cons ⟨_, hapart, rfl⟩ .nil,
    List.forall_mem_singleton.mpr fun y hy => ?_, List.nodup_singleton _⟩
  obtain ⟨x, hx, rfl⟩ := mem_vars_rename.mp hy
  exact ((hbound x _ (hvars x hx)).resolve_right fun h => h.1 hx).2

theorem Copies.and (hf : Copies cs f ds) (hg : Copies cs' g ds')
    (hbinders : (f.binders ++ g.binders).Nodup) (hnormal : ∀ c ∈ cs ++ cs', c.Normal)
    (hcs : (cs ++ cs').Nodup) : Copies (cs ++ cs') (.and f g) (ds ++ ds') where
  clauses := by
    rw [Formula.clauses, hf.clauses, hg.clauses]
    rfl
  renamed := List.rel_append hf.renamed hg.renamed
  vars := List.forall_mem_append.mpr
    ⟨fun d hd x hx => List.mem_append_left _ (hf.vars d hd x hx),
      fun d hd x hx => List.mem_append_right _ (hg.vars d hd x hx)⟩
  nodup := by
    refine List.nodup_append.mpr ⟨hf.nodup, hg.nodup, ?_⟩
    rintro d hd _ hd' rfl
    -- Clauses on both sides that share no binder are equal only if they have no
    -- variables, and then they are copies of themselves.
    have hground : d.vars = [] := List.eq_nil_iff_forall_not_mem.mpr fun x hx =>
      (List.nodup_append.mp hbinders).2.2 x (hf.vars d hd x hx) x (hg.vars d hd' x hx) rfl
    obtain ⟨c, hc, hrenamed⟩ := Renamed.exists_mem hf.renamed hd
    obtain ⟨c', hc', hrenamed'⟩ := Renamed.exists_mem hg.renamed hd'
    have heq := hrenamed.eq_of_vars_eq_nil (hnormal c (List.mem_append_left _ hc)) hground
    have heq' := hrenamed'.eq_of_vars_eq_nil (hnormal c' (List.mem_append_right _ hc')) hground
    exact (List.nodup_append.mp hcs).2.2 c hc c' hc' (heq.trans heq'.symm)

theorem exists_copies (h : Joins .and Closure cs f) (hα : Formula.AlphaEq [] f g)
    (hbinders : g.binders.Nodup) (hnormal : ∀ c ∈ cs, c.Normal) (hcs : cs.Nodup) :
    ∃ ds, Copies cs g ds := by
  induction h generalizing g with
  | one h =>
    obtain ⟨d, hd⟩ := h.exists_copy hα
    exact ⟨[d], hd⟩
  | snoc _ hc ih =>
    cases hα with
    | and hf hg =>
      obtain ⟨ds, hds⟩ := ih hf (List.nodup_append.mp hbinders).1
        (List.forall_mem_append.mp hnormal).1 (List.nodup_append.mp hcs).1
      obtain ⟨d, hd⟩ := hc.exists_copy hg
      exact ⟨ds ++ [d], hds.and hd hbinders hnormal hcs⟩

end Clause

namespace Clausifier

variable {f g : Formula} {k k' : Clausifier} {s s' : Session} {cs : ClauseSet}

/-- Only the names of quantifiers are left to be changed. -/
theorem prepared_of_isSkolem (h : g.IsSkolem) (k : Clausifier) (σ : Symbols) :
    prepared g k σ = g.distinctBelow [] ⟨σ, k.varCounter, []⟩ := by
  rw [prepared, h.isNnf.isBasic.basic_eq, h.isNnf.nnf_eq]

theorem skolemForm_of_isSkolem (h : g.IsSkolem) (k : Clausifier) (σ : Symbols) :
    skolemForm g k σ =
      ((g.distinctBelow [] ⟨σ, k.varCounter, []⟩).1,
        ⟨(g.distinctBelow [] ⟨σ, k.varCounter, []⟩).2.symbols, k.skolemCounter⟩) := by
  rw [skolemForm, prepared_of_isSkolem h]
  exact (h.distinctBelow [] _).skolemBelow_eq [] _

/-- The conjunction of the closures of different clauses is converted to a copy of each. -/
theorem exists_clausify_of_joins {cs : List Clause} (h : Joins .and Clause.Closure cs g)
    (hknown : Clause.Over s.symbols.Knows cs) (hnormal : ∀ c ∈ cs, c.Normal) (hnodup : cs.Nodup)
    (htautology : ∀ c ∈ cs, c.isTautology = false)
    (hsize : (clausify g k s).2.symbols.size < UInt32.size) :
    ∃ ds, (clausify g k s).1.1 = .ok ⟨ds⟩ ∧ List.Forall₂ Clause.Renamed cs ds := by
  have hclausal : g.Clausal s.symbols.Knows [] :=
    h.forall (fun c hc f hf => hf.clausal (hknown c hc)) fun _ _ => .and
  have hvalid : g.validate = .ok () := hclausal.inScope
  have hform := skolemForm_of_isSkolem hclausal.isSkolem k s.symbols
  rw [symbols_clausify_of_ok hvalid, hform] at hsize
  have hready := Formula.ready_distinctBinders k.varCounter hclausal.symbols
  obtain ⟨ds, hds⟩ := Clause.exists_copies h
    (Formula.alphaEq_distinctBelow hready hsize fun _ _ => rfl)
    (Formula.nodup_distinctBinders k.varCounter hclausal.symbols hsize) hnormal hnodup
  refine ⟨ds, ?_, hds.renamed⟩
  rw [fst_clausify_of_ok hvalid, hform, hds.clauses]
  refine congrArg Except.ok (residue_of_nodup hds.nodup fun d hd => ?_)
  obtain ⟨c, hc, hrenamed⟩ := Clause.Renamed.exists_mem hds.renamed hd
  exact hrenamed.isTautology_eq_false (hnormal c hc) (htautology c hc)

/-- The clauses of a formula, read as a formula again and converted by the same converter
in the same session, give as many clauses. Each of them is the one at its place with other
names for its variables. -/
theorem clausify_stable (hnames : ∀ a ∈ f.symbols, s.symbols.Knows a)
    (hrun : clausify f k s = ((.ok cs, k'), s')) (hne : cs.clauses ≠ []) :
    ∃ g, cs.toFormula = some g ∧
      ((clausify g k' s').2.symbols.size < UInt32.size →
        ∃ ds, (clausify g k' s').1.1 = .ok ds ∧
          List.Forall₂ Clause.Renamed cs.clauses ds.clauses) := by
  have hok : (clausify f k s).1.1 = .ok cs := by rw [hrun]
  have hnormal := normal_of_clausify hok
  obtain ⟨g, hg, hjoins⟩ := ClauseSet.exists_toFormula hne fun c hc => (hnormal c hc).2
  refine ⟨g, hg, fun hsize => ?_⟩
  have hfirst : (clausify f k s).2.symbols.size < UInt32.size := by
    rw [hrun]
    exact (Symbols.size_le (le_clausify g k' s')).trans_lt hsize
  have hknown := knows_of_clausify (convertible_of_ok hnames hok hfirst) hok
  rw [hrun] at hknown
  obtain ⟨ds, hds, hrenamed⟩ := exists_clausify_of_joins hjoins hknown
    (fun c hc => (hnormal c hc).1) (nodup_of_clausify hok) (not_isTautology_of_clausify hok) hsize
  exact ⟨⟨ds⟩, hds, hrenamed⟩

section Example

/-- A session with the names `P`, `Q`, `x` and `y`. -/
def overlapSession : Session := .knowing ["P", "Q", "x", "y"]

/-- `∀x ∀y. (P(x, y) ∧ x = y) ∨ Q(y, x)`. -/
def overlap : Formula :=
  .all ⟨2⟩ (.all ⟨3⟩ (.or (.and (.rel ⟨0⟩ [.var ⟨2⟩, .var ⟨3⟩]) (.eq (.var ⟨2⟩) (.var ⟨3⟩)))
    (.rel ⟨1⟩ [.var ⟨3⟩, .var ⟨2⟩])))

/-- `{P(x, y), Q(y, x)}` and `{Q(y, x), x = y}`. -/
def overlapClauses : ClauseSet :=
  ⟨[⟨[⟨.rel ⟨0⟩ [.var ⟨2⟩, .var ⟨3⟩], false⟩, ⟨.rel ⟨1⟩ [.var ⟨3⟩, .var ⟨2⟩], false⟩]⟩,
    ⟨[⟨.rel ⟨1⟩ [.var ⟨3⟩, .var ⟨2⟩], false⟩, ⟨.eq (.var ⟨2⟩) (.var ⟨3⟩), false⟩]⟩]⟩

/-- `(∀x ∀y. P(x, y) ∨ Q(y, x)) ∧ ∀y ∀x. Q(y, x) ∨ x = y`. -/
def overlapClosure : Formula :=
  .and (.all ⟨2⟩ (.all ⟨3⟩ (.or (.rel ⟨0⟩ [.var ⟨2⟩, .var ⟨3⟩]) (.rel ⟨1⟩ [.var ⟨3⟩, .var ⟨2⟩]))))
    (.all ⟨3⟩ (.all ⟨2⟩ (.or (.rel ⟨1⟩ [.var ⟨3⟩, .var ⟨2⟩]) (.eq (.var ⟨2⟩) (.var ⟨3⟩)))))

/-- `{P(x, y), Q(y, x)}` and `{Q(y_1, x_2), y_1 = x_2}`: the second equation is turned. -/
def overlapCopies : ClauseSet :=
  ⟨[⟨[⟨.rel ⟨0⟩ [.var ⟨2⟩, .var ⟨3⟩], false⟩, ⟨.rel ⟨1⟩ [.var ⟨3⟩, .var ⟨2⟩], false⟩]⟩,
    ⟨[⟨.rel ⟨1⟩ [.var ⟨4⟩, .var ⟨5⟩], false⟩, ⟨.eq (.var ⟨4⟩) (.var ⟨5⟩), false⟩]⟩]⟩

theorem clausify_stable_overlap :
    (clausify overlap new overlapSession).1.1 = .ok overlapClauses ∧
    overlapClauses.toFormula = some overlapClosure ∧
    (clausify overlapClosure (clausify overlap new overlapSession).1.2
      (clausify overlap new overlapSession).2).1.1 = .ok overlapCopies ∧
    List.Forall₂ Clause.Renamed overlapClauses.clauses overlapCopies.clauses := by
  have hok : (clausify overlap new overlapSession).1.1 = .ok overlapClauses := by decide
  have hclosure : overlapClauses.toFormula = some overlapClosure := by decide
  have hagain : (clausify overlapClosure (clausify overlap new overlapSession).1.2
      (clausify overlap new overlapSession).2).1.1 = .ok overlapCopies := by decide
  obtain ⟨g, hg, hstable⟩ := clausify_stable (f := overlap) (s := overlapSession) (by decide)
    (Prod.ext (Prod.ext hok rfl) rfl) (List.cons_ne_nil _ _)
  obtain rfl : overlapClosure = g := Option.some.inj (hclosure.symm.trans hg)
  obtain ⟨ds, hds, hrenamed⟩ := hstable (by decide)
  obtain rfl : overlapCopies = ds := Except.ok.inj (hagain.symm.trans hds)
  exact ⟨hok, hclosure, hagain, hrenamed⟩

end Example

end Clausifier

end Entailment
