import Entailment.Proofs.Repetition

/-! What a query binds. A binding is made of the variables of the query and the terms of
an answer clause, one pair after the other. As none of the variables occurs in the
terms, no pair changes what was bound before, and all of them are bound. -/
namespace Entailment

open SessionM Saturation

namespace Substitution

variable {xs : List Symbol} {ts : List Term}

theorem get?_ofList_of_not_mem {pairs : List (Symbol × Term)} {y : Symbol}
    (hy : ∀ p ∈ pairs, y ≠ p.1) : (ofList pairs).get? y = none := by
  induction pairs using List.reverseRecOn with
  | nil => rfl
  | append_singleton pairs p ih =>
    obtain ⟨hpairs, hp⟩ := List.forall_mem_append.mp hy
    have hold : (ofList pairs).get? y = none := ih hpairs
    unfold ofList at hold ⊢
    rw [List.foldl_append, List.foldl_cons, List.foldl_nil]
    by_cases hself : p.2 = .var p.1
    · rwa [bind, if_pos hself]
    · rw [get?_bind hself, if_neg (hp p List.mem_cons_self), hold]
      rfl

/-- No other variables are bound, and each is bound to the term it is paired with. -/
theorem get?_ofList_zip (hlength : ts.length = xs.length) (hxs : xs.Nodup)
    (hts : ∀ t ∈ ts, ∀ x ∈ xs, ¬ t.hasVar x = true) :
    xs.map (ofList (xs.zip ts)).get? = ts.map some ∧
      ∀ x, (ofList (xs.zip ts)).contains x = true ↔ x ∈ xs := by
  have happly := map_apply_ofList hlength hxs hts
  have hbound (x : Symbol) (hx : x ∈ xs) :
      (ofList (xs.zip ts)).get? x = some ((ofList (xs.zip ts)).apply x) := by
    cases hget : (ofList (xs.zip ts)).get? x with
    | some t => rw [apply_of_get? hget]
    | none =>
      have hmem := List.mem_map_of_mem (f := (ofList (xs.zip ts)).apply) hx
      rw [happly, apply_of_get?_none hget] at hmem
      exact absurd ((Term.hasVar_var x x).mpr rfl) (hts _ hmem x hx)
  constructor
  · calc xs.map (ofList (xs.zip ts)).get?
      _ = (xs.map (ofList (xs.zip ts)).apply).map some := by
        rw [List.map_map]
        exact List.map_congr_left hbound
      _ = ts.map some := by rw [happly]
  · intro x
    rw [contains]
    by_cases hx : x ∈ xs
    · simp [hx, hbound x hx]
    · have hnone : (ofList (xs.zip ts)).get? x = none :=
        get?_ofList_of_not_mem fun p hp heq => hx (heq ▸ (List.of_mem_zip hp).1)
      simp [hx, hnone]

end Substitution

namespace Query

variable {xs : List Symbol} {args : List Term} {c : Clause} {σ : Symbols} {q q' : Query}
  {t t' : Session} {b : Substitution} {bs : List Substitution}

/-- Takes in an answer clause as a query does, and with a binding that is new gives back
the clause, too. -/
def receiveFrom (n : Nat) (a : Answers) (c : Clause) :
    SessionM (Answers × Option (Clause × List Term)) := do
  let (a, args) ← a.receive n c
  return (a, args.map (c, ·))

theorem receiveFrom_apply (n : Nat) (a : Answers) (c : Clause) (t : Session) :
    receiveFrom n a c t =
      (((a.receive n c t).1.1, (a.receive n c t).1.2.map (c, ·)), (a.receive n c t).2) :=
  rfl

/-- Asked for the next binding, the query goes on up to the answer clause `c` and stops
with its terms. -/
def StopsWith (q : Query) (t : Session) (c : Clause) (args : List Term) : Prop :=
  ∃ s, q.saturation = some s ∧
    (s.pursue (receiveFrom q.vars.length) q.answers t).1.1 = .found (c, args)

theorem pursue_receive (s : Saturation) (n : Nat) (a : Answers) (t : Session) :
    s.pursue (Answers.receive n) a t =
      ((relabel Prod.snd (s.pursue (receiveFrom n) a t).1.1,
        (s.pursue (receiveFrom n) a t).1.2), (s.pursue (receiveFrom n) a t).2) := by
  refine pursueFor_map (φ := id) (g := Prod.snd) (fun a c t => ?_) _ s a t
  have hsnd : (a.receive n c t).1.2.map (Prod.snd ∘ (c, ·)) = (a.receive n c t).1.2 :=
    congrFun Option.map_id _
  rw [receiveFrom_apply, Option.map_map, hsnd]
  rfl

theorem grows_receiveFrom (n : Nat) (a : Answers) (c : Clause) : Grows (receiveFrom n a c) :=
  (grows_receive n a c).bind fun _ => grows_pure _

theorem hears_receiveFrom (n : Nat) (R : Clause → Prop) :
    Hears (receiveFrom n) R (fun _ => True)
      fun _ p => R p.1 ∧ Answers.terms? n p.1 = some p.2 := by
  rintro a c t - hc
  refine ⟨trivial, fun p hp => ?_⟩
  rw [receiveFrom_apply] at hp
  obtain ⟨args, hargs, rfl⟩ := Option.map_eq_some_iff.mp hp
  exact ⟨hc, terms?_of_receive hargs⟩

/-- A binding is that of an answer clause with the terms of its only literal, or it comes
with a contradiction and is empty. -/
theorem stopsWith_of_next (hnext : (q.next t).1.1 = some b) :
    (∃ c args, q.StopsWith t c args ∧ b = q.binding args) ∨
      b = .empty ∧ (q.next t).1.2.saturation = none ∧ (q.next t).1.2.outcome = some .entailed := by
  cases hs : q.saturation with
  | none =>
    rw [next_of_none hs] at hnext
    cases hnext
  | some s =>
    have hreceive := pursue_receive s q.vars.length q.answers t
    rcases hrun : s.pursue (receiveFrom q.vars.length) q.answers t with ⟨⟨report, s', a⟩, t'⟩
    rw [hrun] at hreceive
    cases report with
    | found p =>
      rw [next_of_found hs hreceive] at hnext
      refine .inl ⟨p.1, p.2, ⟨s, hs, by rw [hrun]⟩, (Option.some.inj hnext).symm⟩
    | ended e =>
      rw [next_of_ended hs hreceive] at hnext ⊢
      cases e with
      | contradiction =>
        refine .inr ⟨(Option.some.inj hnext).symm, rfl, congrArg some ?_⟩
        exact ite_self Outcome.entailed
      | saturated | exhausted => cases hnext

/-- In a run from clauses with a property that no inference leaves, the answer clause has
this property and none of the variables of the query. -/
theorem values_of_stopsWith {P : Clause → Prop} (hP : Deductive σ P)
    (hrel : ∀ c, P c → c.RelationsIn σ) (hxs : ∀ x ∈ xs, σ.Knows x) (h : Distinct P xs σ q t bs)
    (hsize : (q.next t).2.symbols.size < UInt32.size) (hstop : q.StopsWith t c args) :
    P c ∧ c.isAnswer σ = true ∧ Answers.terms? xs.length c = some args ∧ Values xs args := by
  obtain ⟨s, hs, hfound⟩ := hstop
  obtain ⟨rfl, hsearch, -⟩ := h
  have hreceive := pursue_receive s q.vars.length q.answers t
  rcases hrun : s.pursue (receiveFrom q.vars.length) q.answers t with ⟨⟨report, s', a⟩, t'⟩
  rw [hrun] at hfound hreceive
  obtain rfl : report = .found (c, args) := hfound
  rw [next_of_found hs hreceive] at hsize
  have hheard := (hears_receiveFrom q.vars.length
      fun c => P c ∧ c.isAnswer σ = true ∧ c.Avoids (· ∈ q.vars)).pursueFor
    (invariant_answering hP hrel hxs) (tells_answering P _ σ) (grows_receiveFrom _) (hsearch s hs)
    (s.remaining t.horizon) (b := q.answers) trivial
  rw [← pursue_eq, hrun] at hheard
  obtain ⟨-, ⟨hc, hanswer, havoids⟩, hterms⟩ := hheard hsize
  exact ⟨hc, hanswer, hterms, values_of_terms? havoids hterms⟩

section Start

variable {base : List Clause} {goal : Formula} {k : Clausifier} {limits : Limits} {cs : ClauseSet}

/-- All clauses from which the search starts may have answers only as positive literals,
and none of them is an answer. -/
theorem announces_of_start (hbase : ∀ c ∈ base, ∀ a ∈ c.symbols, t.symbols.Knows a)
    (hbaseAnswer : ∀ c ∈ base, ∀ l ∈ c.literals, l.isAnswer t.symbols = false)
    (hbody : ∀ a ∈ goal.peelExistentials.2.atoms,
      a.RelationIn t.symbols ∧ a.isAnswer t.symbols = false)
    (hok : (conversion goal k t).1.1 = .ok cs) :
    ∀ c ∈ base ++ cs.clauses,
      (∀ l ∈ c.literals,
        l.atom.Announces (conversion goal k t).2.symbols (answerSymbol t) l.negated) ∧
      ¬ c.isAnswer (conversion goal k t).2.symbols = true := by
  have hle := (le_target goal t).trans (le_conversion goal k t)
  refine List.forall_mem_append.mpr ⟨fun c hc => ?_, fun c hc => ?_⟩
  · exact announces_of_le hle (hbase c hc) (hbaseAnswer c hc) (answerSymbol t)
  · exact ⟨announces_of_conversion hbody hok c hc, not_isAnswer_of_conversion hbody hok c hc⟩

/-- A binding that a query gives is that of an answer clause with a single literal. It
binds the leading existential variables of the goal, and no others, each to the term in
its place, and none of them occurs in these terms. Only a contradiction gives the empty
binding instead, and then the search has ended. -/
theorem binding_of_next (hbase : ∀ c ∈ base, ∀ a ∈ c.symbols, t.symbols.Knows a)
    (hbaseAnswer : ∀ c ∈ base, ∀ l ∈ c.literals, l.isAnswer t.symbols = false)
    (hgoal : ∀ a ∈ goal.symbols, t.symbols.Knows a)
    (hgoalAnswer : ∀ a ∈ goal.atoms, a.isAnswer t.symbols = false)
    (hquery : (query base goal k limits t).1.1 = .ok q)
    (hrun : Run q (query base goal k limits t).2 q' t' bs)
    (hsize : (q'.next t').2.symbols.size < UInt32.size) (hnext : (q'.next t').1.1 = some b) :
    (∃ args, q'.StopsWith t' ⟨[⟨.rel (answerSymbol t) args, false⟩]⟩ args ∧
      (∀ x, b.contains x = true ↔ x ∈ goal.peelExistentials.1) ∧
      goal.peelExistentials.1.map b.get? = args.map some ∧
      ∀ u ∈ args, ∀ x ∈ goal.peelExistentials.1, ¬ u.hasVar x = true) ∨
    b = .empty ∧ (q'.next t').1.2.saturation = none ∧
      (q'.next t').1.2.outcome = some .entailed := by
  obtain ⟨cs, t₁, hok, hsymbols, rfl, hsession⟩ := query_of_ok hquery
  rw [hsession] at hrun
  have hbody : ∀ a ∈ goal.peelExistentials.2.atoms,
      a.RelationIn t.symbols ∧ a.isAnswer t.symbols = false := by
    rw [goal.atoms_peelExistentials]
    exact fun a ha => ⟨Atom.relationIn_of_symbols fun x hx =>
      hgoal x (Formula.mem_symbols_of_mem_atoms ha hx), hgoalAnswer a ha⟩
  have hcs := announces_of_start hbase hbaseAnswer hbody hok
  have hknown (x : Symbol) (hx : x ∈ goal.peelExistentials.1) :
      (conversion goal k t).2.symbols.Knows x :=
    (hgoal x (Formula.mem_symbols_of_peelExistentials (.inl hx))).mono
      ((le_target goal t).trans (le_conversion goal k t))
  have hxs := (scope_of_validate (Clausifier.validate_of_clausify hok)).1
  rw [← hsymbols] at hcs hknown
  have hP := Clause.deductive_announces t₁.symbols (answerSymbol t)
  have hrel (c : Clause)
      (hc : ∀ l ∈ c.literals, l.atom.Announces t₁.symbols (answerSymbol t) l.negated) :
      c.RelationsIn t₁.symbols := fun l hl => (hc l hl).relationIn
  have hdistinct := hrun.distinct hP hrel hknown
    (.start hP hrel hknown (fun c hc => (hcs c hc).1) fun c hc h => absurd h (hcs c hc).2)
    ((Symbols.size_le (grows_next q' t')).trans_lt hsize)
  refine (stopsWith_of_next hnext).imp_left ?_
  rintro ⟨⟨ls⟩, args, hstop, rfl⟩
  obtain ⟨hannounces, hanswer, hterms, hvalues⟩ :=
    values_of_stopsWith hP hrel hknown hdistinct hsize hstop
  obtain ⟨-, r, negated, rfl⟩ := literals_of_terms? hterms
  obtain ⟨rfl, _, ⟨⟩⟩ := (hannounces _ List.mem_cons_self).exists_eq_rel
    ((Clause.isAnswer_iff.mp hanswer).2 _ List.mem_cons_self)
  obtain ⟨hbound, hdomain⟩ := Substitution.get?_ofList_zip hvalues.length hxs hvalues.avoid
  rw [binding, hdistinct.vars]
  exact ⟨args, hstop, hdomain, hbound, hvalues.avoid⟩

/-- The premise `P(f(x))`, where `P`, `f` and `x` are the first names. -/
def sharedPremises : List Clause := [⟨[⟨.rel ⟨0⟩ [.app ⟨1⟩ [.var ⟨2⟩]], false⟩]⟩]

/-- The goal `∃x P(x)`, about the same variable. -/
def sharedGoal : Formula := .ex ⟨2⟩ (.rel ⟨0⟩ [.var ⟨2⟩])

def sharedSession : Session := .knowing ["P", "f", "x"]

def sharedQuery : (Except ClausifyError Query × Clausifier) × Session :=
  query sharedPremises sharedGoal .new ⟨some 2, none⟩ sharedSession

/-- The search from `P(f(x))` and `¬P(x) ∨ $answer(x)`, which are given the variables `x_1`
and `x_2`. -/
def sharedStart : Saturation × Session :=
  start (sharedPremises ++ [⟨[⟨.rel ⟨0⟩ [.var ⟨2⟩], true⟩, ⟨.rel ⟨3⟩ [.var ⟨2⟩], false⟩]⟩])
    ⟨some 2, none⟩ (note (.querying sharedGoal 1) (conversion sharedGoal .new sharedSession).2).2

/-- The search after each of its selections. -/
def sharedFirst : Saturation × Session := activate 0 (sharedStart.1.taken 4 0) sharedStart.2

def sharedSecond : Saturation × Session := activate 1 (sharedFirst.1.taken 6 1) sharedFirst.2

def sharedSearch : Query := ⟨some sharedStart.1, [⟨2⟩], .empty, none⟩

/-- The binding of `x` to `f(x_1)`. -/
def sharedBinding : Substitution := .ofList [(⟨2⟩, .app ⟨1⟩ [.var ⟨5⟩])]

/-- The second selection gives `$answer(f(x_1))`. -/
theorem next_sharedSearch :
    (sharedSearch.next sharedQuery.2).1.1 = some sharedBinding ∧
      (sharedSearch.next sharedQuery.2).2.symbols.size < UInt32.size := by
  have hremaining : sharedStart.1.remaining sharedStart.2.horizon = 2 := by decide +kernel
  have hstart : sharedStart.1.Lightest 4 0 := by decide +kernel
  have hfirst : sharedFirst.1.Lightest 6 1 := by decide +kernel
  obtain ⟨hpending, hsize⟩ :
      sharedSecond.1.pending = [.answer ⟨[⟨.rel ⟨3⟩ [.app ⟨1⟩ [.var ⟨5⟩]], false⟩]⟩] ∧
        sharedSecond.2.symbols.size < UInt32.size := by decide +kernel
  have hpursue := calc sharedStart.1.pursue (Answers.receive 1) .empty sharedStart.2
    _ = pursueFor (Answers.receive 1) 2 sharedStart.1 .empty sharedStart.2 := by
      rw [pursue_eq, hremaining]
    _ = pursueFor (Answers.receive 1) 1 sharedFirst.1 .empty sharedFirst.2 :=
      hstart.pursueFor 1 _ _
    _ = pursueFor (Answers.receive 1) 0 sharedSecond.1 .empty sharedSecond.2 :=
      hfirst.pursueFor 0 _ _
    _ = _ := pursueFor_of_answer 0 _ hpending rfl rfl
  have hsession : sharedQuery.2 = sharedStart.2 := rfl
  rw [hsession, next_of_found (q := sharedSearch) rfl hpursue]
  exact ⟨rfl, hsize⟩

/-- The variable of the premise is renamed, so `x` does not occur in its own binding. -/
theorem binding_of_next_shared :
    sharedQuery.1.1 = .ok sharedSearch ∧
    (sharedSearch.next sharedQuery.2).1.1 = some sharedBinding ∧
    ∃ args, sharedSearch.StopsWith sharedQuery.2
        ⟨[⟨.rel (answerSymbol sharedSession) args, false⟩]⟩ args ∧
      (∀ x, sharedBinding.contains x = true ↔ x ∈ [(⟨2⟩ : Symbol)]) ∧
      [sharedBinding.get? ⟨2⟩] = args.map some ∧ ∀ u ∈ args, ¬ u.hasVar ⟨2⟩ = true := by
  have hquery : sharedQuery.1.1 = .ok sharedSearch := rfl
  obtain ⟨hnext, hsize⟩ := next_sharedSearch
  rcases binding_of_next (by decide) (by decide) (by decide) (by decide) hquery .start hsize
    hnext with ⟨args, hstop, hdomain, hbound, havoid⟩ | ⟨hempty, -⟩
  · exact ⟨hquery, hnext, args, hstop, hdomain, hbound, fun u hu => havoid u hu _ (by decide)⟩
  · exact absurd hempty (by decide)

end Start

end Query

end Entailment
