import Entailment.Proofs.Query

/-! Repeated bindings. A query remembers the terms it has given and gives none twice,
and different terms are different bindings, since none of the variables of the query
occurs in them. Only a contradiction is reported without a look at what was given
before, so a goal without variables may have its empty binding twice. -/
namespace Entailment

universe u

open SessionM Saturation

namespace Query

variable {xs : List Symbol} {args args' : List Term}

/-- Terms for the variables `xs`, none of which occurs in them. -/
structure Values (xs : List Symbol) (args : List Term) : Prop where
  length : args.length = xs.length
  avoid : ∀ u ∈ args, ∀ x ∈ xs, ¬ u.hasVar x = true

theorem Values.ofList_inj (hxs : xs.Nodup) (h : Values xs args) (h' : Values xs args')
    (heq : Substitution.ofList (xs.zip args) = .ofList (xs.zip args')) : args = args' := by
  rw [← Substitution.map_apply_ofList h.length hxs h.avoid, heq,
    Substitution.map_apply_ofList h'.length hxs h'.avoid]

theorem Values.ofList_ne_empty (hxs : xs.Nodup) (h : Values xs args) (hne : xs ≠ []) :
    Substitution.ofList (xs.zip args) ≠ .empty := by
  intro heq
  obtain ⟨x, rest, rfl⟩ := List.exists_cons_of_ne_nil hne
  have hmap := Substitution.map_apply_ofList h.length hxs h.avoid
  rw [heq] at hmap
  -- the first term would be the first variable
  have hmem : Term.var x ∈ args := by
    rw [← hmap]
    exact List.mem_cons_self
  exact h.avoid _ hmem x List.mem_cons_self (by simp [Term.hasVar])

theorem values_of_terms? {c : Clause} (hc : c.Avoids (· ∈ xs))
    (h : Answers.terms? xs.length c = some args) : Values xs args := by
  obtain ⟨hlength, r, m, hliterals⟩ := literals_of_terms? h
  refine ⟨hlength, fun u hu x hx hvar => hc x (Clause.mem_vars.mpr ?_) hx⟩
  exact ⟨⟨.rel r args, m⟩, by rw [hliterals]; exact List.mem_cons_self, u, hu, hvar⟩

/-- What is received stays, and only terms that are new are given back. -/
theorem mem_receive (n : Nat) (a : Answers) (c : Clause) (t : Session) :
    (∀ args ∈ a.bindings, args ∈ (a.receive n c t).1.1.bindings) ∧
      ∀ args, (a.receive n c t).1.2 = some args →
        args ∉ a.bindings ∧ args ∈ (a.receive n c t).1.1.bindings := by
  cases hterms : Answers.terms? n c with
  | none =>
    simp only [Answers.receive, hterms]
    refine ⟨fun _ h => h, ?_⟩
    rintro args ⟨⟩
  | some found =>
    cases hnew : a.bindings.contains found with
    | true =>
      simp only [Answers.receive, hterms, if_apply, hnew]
      refine ⟨fun _ h => h, ?_⟩
      rintro args ⟨⟩
    | false =>
      rw [receive_of_new t hterms hnew]
      refine ⟨fun args h => Std.TreeSet.mem_insert.mpr (.inr h), ?_⟩
      rintro args ⟨⟩
      refine ⟨fun hmem => ?_, Std.TreeSet.mem_insert_self⟩
      rw [Std.TreeSet.mem_iff_contains, hnew] at hmem
      cases hmem

variable {P : Clause → Prop} {σ : Symbols} {cs : List Clause} {q q' : Query} {t t' : Session}
  {bs : List Substitution} {limits : Limits}

/-- The search of the query goes on as it should. The bindings given so far are those
of different remembered terms, and after a contradiction the empty one, which needs the
empty clause to have the property `P`. -/
structure Distinct (P : Clause → Prop) (xs : List Symbol) (σ : Symbols) (q : Query) (t : Session)
    (bs : List Substitution) : Prop where
  vars : q.vars = xs
  search : ∀ s, q.saturation = some s → Answering P (· ∈ xs) σ t.symbols s
  bindings : ∃ argss : List (List Term), argss.Nodup ∧
    (∀ args ∈ argss, args ∈ q.answers.bindings ∧ Values xs args) ∧
    (bs = argss.map (fun args => .ofList (xs.zip args)) ∨
      q.saturation = none ∧ P .empty ∧
        bs = argss.map (fun args => .ofList (xs.zip args)) ++ [.empty])

/-- A query takes in answers so that the terms it stops with are new to it. -/
theorem hears_receive_new (xs : List Symbol) (a₀ : Answers) :
    Hears (Answers.receive xs.length) (fun c => P c ∧ c.isAnswer σ = true ∧ c.Avoids (· ∈ xs))
      (fun a => ∀ args ∈ a₀.bindings, args ∈ a.bindings)
      fun a args => args ∉ a₀.bindings ∧ args ∈ a.bindings ∧ Values xs args := by
  rintro a c t ha ⟨-, -, havoids⟩
  obtain ⟨hkept, hnew⟩ := mem_receive xs.length a c t
  refine ⟨fun args hargs => hkept args (ha args hargs), fun args hargs => ?_⟩
  obtain ⟨hfresh, hmem⟩ := hnew args hargs
  exact ⟨fun hold => hfresh (ha args hold), hmem,
    values_of_terms? havoids (terms?_of_receive hargs)⟩

namespace Distinct

theorem start (hP : Deductive t.symbols P) (hrel : ∀ c, P c → c.RelationsIn t.symbols)
    (hxs : ∀ x ∈ xs, t.symbols.Knows x) (hcs : ∀ c ∈ cs, P c)
    (hanswer : ∀ c ∈ cs, c.isAnswer t.symbols = true → c.Avoids (· ∈ xs)) :
    Distinct P xs t.symbols ⟨some (start cs limits t).1, xs, .empty, none⟩ (start cs limits t).2
      [] where
  vars := rfl
  search := by
    rintro _ ⟨⟩
    exact answering_start hP hrel hxs hcs hanswer limits
  bindings := ⟨[], List.nodup_nil, nofun, .inl rfl⟩

theorem elsewhere (hP : Deductive σ P) (hrel : ∀ c, P c → c.RelationsIn σ)
    (hxs : ∀ x ∈ xs, σ.Knows x) (h : Distinct P xs σ q t bs) (hle : t.symbols ≤ t'.symbols) :
    Distinct P xs σ q t' bs :=
  { h with search := fun s hs => (invariant_answering hP hrel hxs).mono hle (h.search s hs) }

theorem next (hP : Deductive σ P) (hrel : ∀ c, P c → c.RelationsIn σ)
    (hxs : ∀ x ∈ xs, σ.Knows x) (h : Distinct P xs σ q t bs)
    (hsize : (q.next t).2.symbols.size < UInt32.size) :
    Distinct P xs σ (q.next t).1.2 (q.next t).2 (bs ++ (q.next t).1.1.toList) := by
  obtain ⟨rfl, hsearch, argss, hnodup, hargss, hbs⟩ := h
  cases hs : q.saturation with
  | none =>
    rw [next_of_none hs, show (none : Option Substitution).toList = [] from rfl, List.append_nil]
    exact ⟨rfl, hsearch, argss, hnodup, hargss, hbs⟩
  | some s =>
    obtain rfl := hbs.resolve_right fun hended => by rw [hs] at hended; cases hended.1
    have hInv := invariant_answering hP hrel hxs
    -- What the listener keeps up says that a new answer is none of the earlier ones.
    have hpursue := fun hsize => (hears_receive_new q.vars q.answers).pursueFor hInv
      (tells_answering P _ σ) (grows_receive _) (hsearch s hs) (s.remaining t.horizon)
      (fun _ hargs => hargs) hsize
    have hkept := hInv.pursueFor (grows_receive q.vars.length) (hsearch s hs)
      (s.remaining t.horizon) q.answers
    rcases hrun : s.pursue (Answers.receive q.vars.length) q.answers t with ⟨⟨report, s', a⟩, t'⟩
    rw [← pursue_eq, hrun] at hpursue hkept
    cases report with
    | found args =>
      rw [next_of_found hs hrun] at hsize ⊢
      obtain ⟨hgood, hnew, hmem, hvalues⟩ := hpursue hsize
      refine ⟨rfl, ?_, argss ++ [args], ?_, ?_, .inl (by simp [binding])⟩
      · rintro _ ⟨⟩
        exact (hkept nofun).1
      · rw [← List.concat_eq_append]
        exact hnodup.concat fun hold => hnew (hargss args hold).1
      · simp only [List.forall_mem_append, List.forall_mem_singleton]
        exact ⟨fun old hold => (hargss old hold).imp_left (hgood old), hmem, hvalues⟩
    | ended e =>
      rw [next_of_ended hs hrun] at hsize ⊢
      obtain ⟨hgood, hend⟩ := hpursue hsize
      refine ⟨rfl, nofun, argss, hnodup, fun old hold => (hargss old hold).imp_left (hgood old), ?_⟩
      cases e with
      | contradiction => exact .inr ⟨rfl, hend rfl, rfl⟩
      | saturated | exhausted => exact .inl (List.append_nil _)

/-- Bindings are repeated only by a contradiction, when there are no variables to bind. -/
theorem nodup_or (hxs : xs.Nodup) (h : Distinct P xs σ q t bs) :
    bs.Nodup ∨ xs = [] ∧ bs = [.empty, .empty] ∧ P .empty := by
  obtain ⟨-, -, argss, hnodup, hargss, hbs⟩ := h
  have hmap : (argss.map fun args => Substitution.ofList (xs.zip args)).Nodup :=
    hnodup.map_on fun args hargs args' hargs' heq =>
      (hargss args hargs).2.ofList_inj hxs (hargss args' hargs').2 heq
  rcases hbs with rfl | ⟨-, hempty, rfl⟩
  · exact .inl hmap
  by_cases hnil : xs = []
  · subst hnil
    -- the only terms for no variables are none
    have hnone : ∀ args ∈ argss, args = [] := fun args hargs =>
      List.length_eq_zero_iff.mp (hargss args hargs).2.length
    match argss, hnodup, hnone with
    | [], _, _ => exact .inl (List.nodup_singleton _)
    | [args], _, hnone =>
      exact .inr ⟨rfl, by rw [hnone args List.mem_cons_self]; rfl, hempty⟩
    | args :: args' :: _, hnodup, hnone =>
      have heq : args = args' := by rw [hnone args (by simp), hnone args' (by simp)]
      simp [heq] at hnodup
  · rw [← List.concat_eq_append]
    refine .inl (hmap.concat fun hmem => ?_)
    obtain ⟨args, hargs, heq⟩ := List.mem_map.mp hmem
    exact (hargss args hargs).2.ofList_ne_empty hxs hnil heq

end Distinct

theorem Run.distinct {q₀ : Query} {t₀ : Session} (hP : Deductive σ P)
    (hrel : ∀ c, P c → c.RelationsIn σ) (hxs : ∀ x ∈ xs, σ.Knows x) (hrun : Run q₀ t₀ q t bs)
    (hstart : Distinct P xs σ q₀ t₀ []) (hsize : t.symbols.size < UInt32.size) :
    Distinct P xs σ q t bs := by
  refine Run.induction (motive := fun q t bs => t.symbols.size < UInt32.size →
    Distinct P xs σ q t bs) (fun _ => hstart) ?_ ?_ hrun hsize
  · intro q t bs t' h hle hsize
    exact (h ((Symbols.size_le hle).trans_lt hsize)).elsewhere hP hrel hxs hle
  · intro q t bs h hsize
    exact (h ((Symbols.size_le (grows_next q t)).trans_lt hsize)).next hP hrel hxs hsize

/-- In a run from clauses with a property that no inference leaves, bindings are
repeated only if the empty clause has this property, too. -/
theorem nodup_or_of_run (hP : Deductive t.symbols P) (hrel : ∀ c, P c → c.RelationsIn t.symbols)
    (hknown : ∀ x ∈ xs, t.symbols.Knows x) (hxs : xs.Nodup) (hcs : ∀ c ∈ cs, P c)
    (hanswer : ∀ c ∈ cs, c.isAnswer t.symbols = true → c.Avoids (· ∈ xs))
    (hrun : Run ⟨some (start cs limits t).1, xs, .empty, none⟩ (start cs limits t).2 q t' bs)
    (hsize : t'.symbols.size < UInt32.size) :
    bs.Nodup ∨ xs = [] ∧ bs = [.empty, .empty] ∧ P .empty :=
  (hrun.distinct hP hrel hknown (.start hP hrel hknown hcs hanswer) hsize).nodup_or hxs

section Start

variable {base : List Clause} {goal : Formula} {k : Clausifier}

section Conversion

variable {cs : ClauseSet} (hbase : ∀ c ∈ base, ∀ a ∈ c.symbols, t.symbols.Knows a)
  (hbody : ∀ a ∈ goal.peelExistentials.2.atoms,
    a.RelationIn t.symbols ∧ a.isAnswer t.symbols = false)
  (hok : (conversion goal k t).1.1 = .ok cs)

include hbase hbody hok

theorem relationsIn_conversion :
    ∀ c ∈ base ++ cs.clauses, c.RelationsIn (conversion goal k t).2.symbols := by
  refine List.forall_mem_append.mpr ⟨fun c hc l hl => ?_, fun c hc l hl => ?_⟩
  · exact Atom.relationIn_of_symbols fun a ha =>
      (hbase c hc a (Clause.mem_symbols.mpr ⟨l, hl, ha⟩)).mono
        ((le_target goal t).trans (le_conversion goal k t))
  · exact (announces_of_conversion hbody hok c hc l hl).relationIn

/-- Answers that a query starts with are premises. -/
theorem avoids_conversion (hbaseAnswer : ∀ c ∈ base, c.isAnswer t.symbols = true →
      ∀ x ∈ c.vars, x ∉ goal.peelExistentials.1) :
    ∀ c ∈ base ++ cs.clauses, c.isAnswer (conversion goal k t).2.symbols = true →
      c.Avoids (· ∈ goal.peelExistentials.1) := by
  refine List.forall_mem_append.mpr ⟨fun c hc hanswer => ?_, fun c hc hanswer => ?_⟩
  · have hrel : c.RelationsIn t.symbols := fun l hl =>
      Atom.relationIn_of_symbols fun a ha => hbase c hc a (Clause.mem_symbols.mpr ⟨l, hl, ha⟩)
    have hle := (le_target goal t).trans (le_conversion goal k t)
    rw [Clause.isAnswer_eq_of_le hle hrel] at hanswer
    exact hbaseAnswer c hc hanswer
  · exact absurd hanswer (not_isAnswer_of_conversion hbody hok c hc)

end Conversion

/-- No binding is given twice, except that a goal without leading existential variables
may have its empty binding twice: by an answer, and then by a contradiction, so the
premises have no model. -/
theorem nodup_of_query (hbase : ∀ c ∈ base, ∀ a ∈ c.symbols, t.symbols.Knows a)
    (hbaseAnswer : ∀ c ∈ base, c.isAnswer t.symbols = true →
      ∀ x ∈ c.vars, x ∉ goal.peelExistentials.1)
    (hgoal : ∀ a ∈ goal.symbols, t.symbols.Knows a)
    (hgoalAnswer : ∀ a ∈ goal.atoms, a.isAnswer t.symbols = false)
    (hquery : (query base goal k limits t).1.1 = .ok q)
    (hrun : Run q (query base goal k limits t).2 q' t' bs)
    (hsize : t'.symbols.size < UInt32.size) :
    bs.Nodup ∨ goal.peelExistentials.1 = [] ∧ bs = [.empty, .empty] ∧
      ((∀ c ∈ base, ∀ l ∈ c.literals, l.isAnswer t.symbols = false) →
        ∀ (D : Type u) (I : Interpretation D), ¬ ∀ c ∈ base, c.TrueIn I) := by
  obtain ⟨cs, t₁, hok, hsymbols, rfl, hsession⟩ := query_of_ok hquery
  rw [hsession] at hrun
  have hbody : ∀ a ∈ goal.peelExistentials.2.atoms,
      a.RelationIn t.symbols ∧ a.isAnswer t.symbols = false := by
    rw [goal.atoms_peelExistentials]
    exact fun a ha => ⟨Atom.relationIn_of_symbols fun x hx =>
      hgoal x (Formula.mem_symbols_of_mem_atoms ha hx), hgoalAnswer a ha⟩
  have hrelations := relationsIn_conversion hbase hbody hok
  have hanswer := avoids_conversion hbase hbody hok hbaseAnswer
  have hknown (x : Symbol) (hx : x ∈ goal.peelExistentials.1) :
      (conversion goal k t).2.symbols.Knows x :=
    (hgoal x (Formula.mem_symbols_of_peelExistentials (.inl hx))).mono
      ((le_target goal t).trans (le_conversion goal k t))
  have hxs := (scope_of_validate (Clausifier.validate_of_clausify hok)).1
  rw [← hsymbols] at hrelations hanswer hknown
  refine (nodup_or_of_run (deductive_relationsIn _) (fun _ h => h) hknown hxs hrelations hanswer
    hrun hsize).imp_right fun ⟨hnil, hbs, _⟩ => ⟨hnil, hbs, fun hfree D I hmodel => ?_⟩
  -- in a model, no contradiction would have been found
  have hsizeConversion : (conversion goal k t).2.symbols.size < UInt32.size := by
    rw [← hsymbols]
    exact (Symbols.size_le ((grows_insertAll _ _ t₁).trans hrun.le)).trans_lt hsize
  obtain ⟨J, -, hsupports⟩ :=
    exists_supports_conversion hbody hok hgoal hbase hfree hmodel hsizeConversion
  rw [← hsymbols] at hsupports
  rcases nodup_or_of_run (Clause.deductive_supports J t₁.symbols (answerSymbol t))
    (fun c hc => hc.relationsIn) hknown hxs (fun c hc => (hsupports c hc).1) hanswer hrun hsize with
    hnodup | ⟨-, -, hempty⟩
  · simp [hbs] at hnodup
  · exact Clause.not_supports_empty hempty

theorem take_two {b b' : Substitution} {q₁ q₂ : Query} {t₁ t₂ : Session}
    (h : q.next t = ((some b, q₁), t₁)) (h' : q₁.next t₁ = ((some b', q₂), t₂)) :
    q.take 2 t = (([b, b'], q₂), t₂) := by
  rw [take_succ_of_some 1 (congrArg Prod.fst h), h, take_succ_of_some 0 (congrArg Prod.fst h'), h']
  rfl

/-- The premises `P(c)` and `P(d)`, where `P`, `c`, `d` and `x` are the first names. -/
def choicePremises : List Clause :=
  [⟨[⟨.rel ⟨0⟩ [.const ⟨1⟩], false⟩]⟩, ⟨[⟨.rel ⟨0⟩ [.const ⟨2⟩], false⟩]⟩]

/-- The goal `∃x P(x)`. -/
def choiceGoal : Formula := .ex ⟨3⟩ (.rel ⟨0⟩ [.var ⟨3⟩])

def choiceSession : Session := .knowing ["P", "c", "d", "x"]

def choiceQuery : (Except ClausifyError Query × Clausifier) × Session :=
  query choicePremises choiceGoal .new ⟨some 3, none⟩ choiceSession

/-- The search from `P(c)`, `P(d)` and `¬P(x) ∨ $answer(x)`. -/
def choiceStart : Saturation × Session :=
  start (choicePremises ++ [⟨[⟨.rel ⟨0⟩ [.var ⟨3⟩], true⟩, ⟨.rel ⟨4⟩ [.var ⟨3⟩], false⟩]⟩])
    ⟨some 3, none⟩ (note (.querying choiceGoal 1) (conversion choiceGoal .new choiceSession).2).2

/-- The search after each of its selections. -/
def choiceFirst : Saturation × Session := activate 0 (choiceStart.1.taken 3 0) choiceStart.2

def choiceSecond : Saturation × Session := activate 1 (choiceFirst.1.taken 3 1) choiceFirst.2

def choiceThird : Saturation × Session := activate 2 (choiceSecond.1.taken 6 2) choiceSecond.2

def choiceSearch : Query := ⟨some choiceStart.1, [⟨3⟩], .empty, none⟩

/-- The third selection gives `$answer(c)` and `$answer(d)`, which are told one after the
other. -/
theorem take_choiceSearch :
    (choiceSearch.take 2 choiceStart.2).1.1 =
        [.ofList [(⟨3⟩, .const ⟨1⟩)], .ofList [(⟨3⟩, .const ⟨2⟩)]] ∧
      (choiceSearch.take 2 choiceStart.2).2.symbols.size < UInt32.size := by
  have hremaining : choiceStart.1.remaining choiceStart.2.horizon = 3 := by decide +kernel
  have hstart : choiceStart.1.Lightest 3 0 := by decide +kernel
  have hfirst : choiceFirst.1.Lightest 3 1 := by decide +kernel
  have hsecond : choiceSecond.1.Lightest 6 2 := by decide +kernel
  obtain ⟨hpending, hsize⟩ :
      choiceThird.1.pending = [.answer ⟨[⟨.rel ⟨4⟩ [.const ⟨1⟩], false⟩]⟩,
          .answer ⟨[⟨.rel ⟨4⟩ [.const ⟨2⟩], false⟩]⟩] ∧
        choiceThird.2.symbols.size < UInt32.size := by decide +kernel
  have hpursue := calc choiceStart.1.pursue (Answers.receive 1) .empty choiceStart.2
    _ = pursueFor (Answers.receive 1) 3 choiceStart.1 .empty choiceStart.2 := by
      rw [pursue_eq, hremaining]
    _ = pursueFor (Answers.receive 1) 2 choiceFirst.1 .empty choiceFirst.2 :=
      hstart.pursueFor 2 _ _
    _ = pursueFor (Answers.receive 1) 1 choiceSecond.1 .empty choiceSecond.2 :=
      hfirst.pursueFor 1 _ _
    _ = pursueFor (Answers.receive 1) 0 choiceThird.1 .empty choiceThird.2 :=
      hsecond.pursueFor 0 _ _
    _ = _ := pursueFor_of_answer 0 _ hpending rfl rfl
  rw [take_two (next_of_found (q := choiceSearch) rfl hpursue)
    (next_of_found rfl (pursueFor_of_answer _ _ rfl rfl (by decide +kernel)))]
  exact ⟨rfl, hsize⟩

/-- Two bindings are found, and they differ. -/
theorem nodup_of_query_choice :
    choiceQuery.1.1 = .ok choiceSearch ∧
    (choiceSearch.take 2 choiceQuery.2).1.1 =
      [.ofList [(⟨3⟩, .const ⟨1⟩)], .ofList [(⟨3⟩, .const ⟨2⟩)]] ∧
    (choiceSearch.take 2 choiceQuery.2).1.1.Nodup := by
  have hquery : choiceQuery.1.1 = .ok choiceSearch := rfl
  have hsession : choiceQuery.2 = choiceStart.2 := rfl
  obtain ⟨hbindings, hsize⟩ := take_choiceSearch
  rw [← hsession] at hbindings hsize
  have hnodup := nodup_of_query.{0} (by decide) (by decide) (by decide) (by decide) hquery
    (.take 2 .start) hsize
  exact ⟨hquery, hbindings, hnodup.resolve_right nofun⟩

/-- The premises `P` and `f(c) ≠ f(c)`, where `P`, `f` and `c` are the first names. -/
def contestedPremises : List Clause :=
  [⟨[⟨.rel ⟨0⟩ [], false⟩]⟩, ⟨[⟨.eq (.app ⟨1⟩ [.const ⟨2⟩]) (.app ⟨1⟩ [.const ⟨2⟩]), true⟩]⟩]

def contestedSession : Session := .knowing ["P", "f", "c"]

/-- The query for `P`. -/
def contestedQuery : (Except ClausifyError Query × Clausifier) × Session :=
  query contestedPremises (.rel ⟨0⟩ []) .new ⟨some 3, none⟩ contestedSession

/-- The search from the premises and `¬P ∨ $answer`. -/
def contestedStart : Saturation × Session :=
  start (contestedPremises ++ [⟨[⟨.rel ⟨0⟩ [], true⟩, ⟨.rel ⟨3⟩ [], false⟩]⟩]) ⟨some 3, none⟩
    (note (.querying (.rel ⟨0⟩ []) 0) (conversion (.rel ⟨0⟩ []) .new contestedSession).2).2

/-- The search after each of its selections. -/
def contestedFirst : Saturation × Session :=
  activate 0 (contestedStart.1.taken 2 0) contestedStart.2

def contestedSecond : Saturation × Session :=
  activate 2 (contestedFirst.1.taken 4 2) contestedFirst.2

/-- The answer `$answer` has been told by then. -/
def contestedHeard : Saturation × Session :=
  ({ contestedSecond.1 with pending := [] },
    (note (.answer ⟨[⟨.rel ⟨3⟩ [], false⟩]⟩) contestedSecond.2).2)

def contestedThird : Saturation × Session :=
  activate 1 (contestedHeard.1.taken 6 1) contestedHeard.2

def contestedSearch : Query := ⟨some contestedStart.1, [], .empty, none⟩

/-- The empty binding is given for the answer, and once more for the contradiction that
is found later. -/
theorem take_contestedSearch :
    contestedQuery.1.1 = .ok contestedSearch ∧
      (contestedSearch.take 2 contestedQuery.2).1.1 = [.empty, .empty] := by
  have hremaining : contestedStart.1.remaining contestedStart.2.horizon = 3 ∧
      contestedHeard.1.remaining contestedHeard.2.horizon = 1 := by decide +kernel
  have hstart : contestedStart.1.Lightest 2 0 := by decide +kernel
  have hfirst : contestedFirst.1.Lightest 4 2 := by decide +kernel
  have hheard : contestedHeard.1.Lightest 6 1 := by decide +kernel
  obtain ⟨hsecond, hthird⟩ :
      contestedSecond.1.pending = [.answer ⟨[⟨.rel ⟨3⟩ [], false⟩]⟩] ∧
        contestedThird.1.pending = [.contradiction] := by decide +kernel
  have hanswer := calc contestedStart.1.pursue (Answers.receive 0) .empty contestedStart.2
    _ = pursueFor (Answers.receive 0) 3 contestedStart.1 .empty contestedStart.2 := by
      rw [pursue_eq, hremaining.1]
    _ = pursueFor (Answers.receive 0) 2 contestedFirst.1 .empty contestedFirst.2 :=
      hstart.pursueFor 2 _ _
    _ = pursueFor (Answers.receive 0) 1 contestedSecond.1 .empty contestedSecond.2 :=
      hfirst.pursueFor 1 _ _
    _ = _ := pursueFor_of_answer 1 _ hsecond rfl rfl
  let a : Answers := { Answers.empty with bindings := Answers.empty.bindings.insert [] }
  have hend := calc contestedHeard.1.pursue (Answers.receive 0) a contestedHeard.2
    _ = pursueFor (Answers.receive 0) 1 contestedHeard.1 a contestedHeard.2 := by
      rw [pursue_eq, hremaining.2]
    _ = pursueFor (Answers.receive 0) 0 contestedThird.1 a contestedThird.2 :=
      hheard.pursueFor 0 _ _
    _ = _ := (Pursuit.report (by rw [hthird]; rfl)).eq
  have hsession : contestedQuery.2 = contestedStart.2 := rfl
  rw [hsession, take_two (next_of_found (q := contestedSearch) rfl hanswer) (next_of_ended
    (q := { contestedSearch with saturation := some contestedHeard.1, answers := a }) rfl hend)]
  exact ⟨rfl, rfl⟩

end Start

end Query

end Entailment
