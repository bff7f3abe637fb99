import Entailment.Proofs.Bounds

/-! Searches with a bound on selections come to their end. The loop of a search is
described by rules that count its rounds and do nothing to stop it; that every call
has a derivation means that it returns, and the count is the number of clauses it has
selected. -/
namespace Entailment

open SessionM Saturation

/-- The loops inside a round. From the empty substitution on, unification passes on
settled ones only; for these it ends, and so do the application of bindings and the
search for a new name. None is cut short by the depth, rounds or tries that its
definition allows, since more of them would change nothing. All else in a round, such
as subsumption, follows the structure of terms and lists. -/
structure RoundsEnd : Prop where
  start : Substitution.empty.Settled
  settled : ∀ {s s' : Substitution} {t u : Term}, s.Settled → t.unify u s = .ok s' → s'.Settled
  unify : ∀ {s : Substitution}, s.Settled → ∀ t u depth, s.depthBound t u ≤ depth →
    s.unifyWithin depth t u = some (t.unify u s)
  resolve : ∀ {s : Substitution}, s.Settled → ∀ t rounds,
    s.settle rounds (t.instantiate s) = s.resolve t
  fresh : ∀ {σ : Symbols}, σ.size < UInt32.size → ∀ base counter tries, σ.size ≤ tries →
    σ.freshCounter base tries counter = σ.freshCounter base σ.size counter ∧
      σ.contains (base ++ toString (σ.freshCounter base tries counter).toNat) = false

theorem roundsEnd : RoundsEnd where
  start := Substitution.settled_empty
  settled {_ _ t u} hs hunify := by
    have hexact := Term.unify_exact hs t u
    rw [hunify] at hexact
    exact hexact.1
  unify hs t u depth hdepth := Substitution.unifyWithin_eq_unify hs hdepth
  resolve hs t rounds := (hs.settle_eq rounds t).trans (hs.resolve_eq t).symm
  fresh hsize base counter tries htries := by
    have hnew := Symbols.contains_freshCounter hsize base counter
    have heq := Symbols.freshCounter_of_le hnew htries
    exact ⟨heq, by rw [heq, hnew]⟩

namespace Saturation

section Loop

variable {β γ : Type}

/-- The limits do not allow another selection. -/
def AtLimit (s : Saturation) (clock : Nat → Duration) : Prop :=
  (∃ n, s.limits.maxIterations = some n ∧ n ≤ s.iterations) ∨ s.isTimedOut clock = true

/-- The loop of a search comes to a result after so many selections. -/
inductive Ends (listen : β → Clause → SessionM (β × Option γ)) :
    Nat → Saturation → β → Session → (Report γ × Saturation × β) × Session → Prop
  | report {s b t r rest b' t'}
      (hdrain : drain listen s.pending b t = ((some r, rest, b'), t')) :
    Ends listen 0 s b t ((r, { s with pending := rest }, b'), t')
  | exhausted {s b t b' t'} (hdrain : drain listen s.pending b t = ((none, [], b'), t'))
      (hlimit : s.AtLimit t'.clock) :
    Ends listen 0 s b t ((.ended .exhausted, { s with pending := [] }, b'), t')
  | saturated {s b t b' t'} (hdrain : drain listen s.pending b t = ((none, [], b'), t'))
      (hlimit : ¬ s.AtLimit t'.clock)
      (hselect : (select { s with pending := [] } t').1 = none) :
    Ends listen 0 s b t
      ((.ended .saturated, { s with pending := [] }, b'), (select { s with pending := [] } t').2)
  | selected {k s b t b' t' s' r} (hdrain : drain listen s.pending b t = ((none, [], b'), t'))
      (hlimit : ¬ s.AtLimit t'.clock)
      (hselect : (select { s with pending := [] } t').1 = some s')
      (hrest : Ends listen k s' b' (select { s with pending := [] } t').2 r) :
    Ends listen (k + 1) s b t r

variable {listen : β → Clause → SessionM (β × Option γ)} {s s' : Saturation} {b b' : β}
  {t t' : Session} {n k : Nat} {r : (Report γ × Saturation × β) × Session}

/-- With a bound on selections the loop ends. -/
theorem exists_ends (listen : β → Clause → SessionM (β × Option γ))
    (hmax : s.limits.maxIterations = some n) (b : β) (t : Session) :
    ∃ k, Ends listen k s b t (s.pursue listen b t) := by
  have hremaining : s.remaining t.horizon = n - s.iterations := by rw [remaining, hmax]; rfl
  rw [pursue_eq, hremaining]
  have hrun := pursuit listen (n - s.iterations) s b t
  generalize pursueFor listen (n - s.iterations) s b t = r at hrun ⊢
  generalize hm : n - s.iterations = m at hrun
  clear hremaining
  have hopen {m : Nat} {s : Saturation} {clock : Nat → Duration}
      (hmax : s.limits.maxIterations = some n) (hm : n - s.iterations = m + 1)
      (htime : ¬ s.isTimedOut clock = true) : ¬ s.AtLimit clock := by
    rintro (⟨n', hmax', hle⟩ | htimedOut)
    · rw [hmax, Option.some.injEq] at hmax'
      omega
    · exact htime htimedOut
  induction hrun with
  | report hdrain => exact ⟨0, .report hdrain⟩
  | exhausted hdrain => exact ⟨0, .exhausted hdrain (.inl ⟨n, hmax, by omega⟩)⟩
  | timedOut hdrain htime => exact ⟨0, .exhausted hdrain (.inr htime)⟩
  | saturated hdrain htime hselect => exact ⟨0, .saturated hdrain (hopen hmax hm htime) hselect⟩
  | selected hdrain htime hselect _ ih =>
    obtain ⟨hiterations, hlimits⟩ := progress_of_select hselect
    obtain ⟨k, hrest⟩ := ih (by rw [hlimits, hmax]) (by rw [hiterations]; dsimp only; omega)
    exact ⟨k + 1, .selected hdrain (hopen hmax hm htime) hselect hrest⟩

/-- The rounds are counted by the search itself. -/
theorem Ends.progress (h : Ends listen k s b t r) :
    r.1.2.1.iterations = s.iterations + k ∧ r.1.2.1.limits = s.limits := by
  induction h with
  | report | exhausted | saturated => exact ⟨rfl, rfl⟩
  | selected _ _ hselect _ ih =>
    obtain ⟨hiterations, hlimits⟩ := progress_of_select hselect
    refine ⟨?_, ih.2.trans hlimits⟩
    rw [ih.1, hiterations]
    dsimp only
    omega

/-- A search makes no selection beyond its bound. -/
theorem Ends.le_max (h : Ends listen k s b t r) (hmax : s.limits.maxIterations = some n) :
    s.iterations + k ≤ max n s.iterations := by
  induction h with
  | report | exhausted | saturated => exact le_max_right _ _
  | @selected k s _ _ _ t' _ _ _ hlimit hselect _ ih =>
    obtain ⟨hiterations, hlimits⟩ := progress_of_select hselect
    have hlt : s.iterations < n := by
      by_contra hle
      exact hlimit (.inl ⟨n, hmax, by omega⟩)
    have hrest := ih (by rw [hlimits, hmax])
    rw [hiterations] at hrest
    dsimp only at hrest
    omega

/-- Without a timeout, only the bound makes a search give up. -/
theorem Ends.of_exhausted (h : Ends listen k s b t r) (hend : r.1.1 = .ended .exhausted)
    (hmax : s.limits.maxIterations = some n) (htimeout : s.limits.timeout = none) :
    n ≤ s.iterations + k := by
  induction h with
  | report hdrain =>
    obtain rfl : _ = Report.ended Ending.exhausted := hend
    cases eq_contradiction_of_drain hdrain
  | exhausted _ hlimit =>
    rcases hlimit with ⟨n', hmax', hle⟩ | htime
    · rw [hmax, Option.some.injEq] at hmax'
      omega
    · simp [isTimedOut, htimeout] at htime
  | saturated => cases hend
  | selected _ _ hselect _ ih =>
    obtain ⟨hiterations, hlimits⟩ := progress_of_select hselect
    have hrest := ih hend (by rw [hlimits, hmax]) (by rw [hlimits, htimeout])
    rw [hiterations] at hrest
    dsimp only at hrest
    omega

theorem length_lt_of_drain {fs rest : List Finding} {report : Report γ}
    (h : drain listen fs b t = ((some report, rest, b'), t')) : rest.length < fs.length := by
  induction fs generalizing b t with
  | nil => cases h
  | cons f fs ih =>
    cases f with
    | contradiction =>
      cases h
      exact Nat.lt_succ_self _
    | answer c =>
      cases hstop : (listen b c t).1.2 with
      | none =>
        rw [drain_answer_of_none hstop] at h
        exact (ih h).trans (Nat.lt_succ_self _)
      | some g =>
        rw [drain_answer_of_some hstop] at h
        cases h
        exact Nat.lt_succ_self _

/-- A search that is interrupted without a selection has less to report. -/
theorem Ends.pending_lt (h : Ends listen 0 s b t r) {g : γ} (hfound : r.1.1 = .found g) :
    r.1.2.1.pending.length < s.pending.length := by
  cases h with
  | report hdrain => exact length_lt_of_drain hdrain
  | exhausted | saturated => cases hfound

end Loop

theorem ends_refute (cs : List Clause) (n : Nat) (t : Session) :
    ∃ k s' t', Ends (fun (_ : Unit) _ => pure ((), (none : Option Empty))) k
        (start cs ⟨some n, none⟩ t).1 () (start cs ⟨some n, none⟩ t).2
        ((.ended (refute cs ⟨some n, none⟩ t).1.1, s', ()), t') ∧
      k ≤ n ∧ ((refute cs ⟨some n, none⟩ t).1.1 = .exhausted → k = n) := by
  obtain ⟨-, hiterations, hlimits⟩ := unchanged_insertAll cs (init ⟨some n, none⟩) t
  have hmax : (start cs ⟨some n, none⟩ t).1.limits.maxIterations = some n := by rw [start, hlimits]; rfl
  have hzero : (start cs ⟨some n, none⟩ t).1.iterations = 0 := hiterations
  obtain ⟨k, hends⟩ := exists_ends (fun (_ : Unit) _ => pure ((), (none : Option Empty))) hmax ()
    (start cs ⟨some n, none⟩ t).2
  obtain ⟨e, s', t', hrun, hfinish⟩ :=
    exists_pursueFor_eq (start cs ⟨some n, none⟩ t).1 (start cs ⟨some n, none⟩ t).2
  rw [pursue_eq, hrun] at hends
  rw [refute, hfinish]
  have hle := hends.le_max hmax
  rw [hzero, Nat.zero_add, Nat.max_zero] at hle
  refine ⟨k, s', t', hends, hle, ?_⟩
  rintro rfl
  have hge := hends.of_exhausted rfl hmax (by rw [start, hlimits]; rfl)
  rw [hzero, Nat.zero_add] at hge
  exact le_antisymm hle hge

end Saturation

namespace Query

variable {q : Query} {s : Saturation} {n : Nat}

/-- The call for the next binding ends after so many selections. -/
inductive NextEnds (q : Query) (t : Session) : Nat → Prop
  | closed (hq : q.saturation = none) : NextEnds q t 0
  | pursued {s k} (hq : q.saturation = some s)
      (hends : Ends (Answers.receive q.vars.length) k s q.answers t
        (s.pursue (Answers.receive q.vars.length) q.answers t)) :
    NextEnds q t k

/-- Asked again and again, each time in the session that `ts` has for it, the query
gives these bindings and then no more, after so many selections in all. -/
inductive Yields : Query → (Nat → Session) → Nat → List Substitution → Prop
  | nil {q ts k} (hcall : q.NextEnds (ts 0) k) (hnone : (q.next (ts 0)).1.1 = none) :
    Yields q ts k []
  | cons {q ts k b l bs} (hcall : q.NextEnds (ts 0) k) (hsome : (q.next (ts 0)).1.1 = some b)
      (hrest : Yields (q.next (ts 0)).1.2 (fun i => ts (i + 1)) l bs) :
    Yields q ts (k + l) (b :: bs)

theorem yields_of_closed (hq : q.saturation = none) (ts : Nat → Session) : q.Yields ts 0 [] :=
  .nil (.closed hq) (by rw [next_of_none hq])

/-- A call for the next binding closes the search, or it leaves a search that has made
selections or has less to report. -/
theorem exists_nextEnds (hq : q.saturation = some s) (hmax : s.limits.maxIterations = some n)
    (t : Session) :
    ∃ k, q.NextEnds t k ∧ s.iterations + k ≤ max n s.iterations ∧
      ((q.next t).1.2.saturation = none ∨
        ∃ b s', (q.next t).1.1 = some b ∧ (q.next t).1.2.saturation = some s' ∧
          s'.limits = s.limits ∧ s'.iterations = s.iterations + k ∧
          (k = 0 → s'.pending.length < s.pending.length)) := by
  obtain ⟨k, hends⟩ := exists_ends (Answers.receive q.vars.length) hmax q.answers t
  refine ⟨k, .pursued hq hends, hends.le_max hmax, ?_⟩
  rcases hrun : s.pursue (Answers.receive q.vars.length) q.answers t with ⟨⟨args | e, s', a⟩, t'⟩
  · rw [hrun] at hends
    obtain ⟨hiterations, hlimits⟩ := hends.progress
    rw [next_of_found hq hrun]
    refine .inr ⟨_, s', rfl, rfl, hlimits, hiterations, ?_⟩
    rintro rfl
    exact hends.pending_lt rfl
  · rw [next_of_ended hq hrun]
    exact .inl rfl

/-- A bounded search has only finitely many bindings: selections are made up to the
bound, and between two of them there is less to report with every call. -/
theorem exists_yields {q : Query} {s : Saturation} (hq : q.saturation = some s)
    (hmax : s.limits.maxIterations = some n) (ts : Nat → Session) :
    ∃ k bs, q.Yields ts k bs ∧ s.iterations + k ≤ max n s.iterations := by
  obtain ⟨k, hcall, hle, hclosed | ⟨b, s', hb, hq', hlimits, hiterations, hless⟩⟩ :=
    exists_nextEnds hq hmax (ts 0)
  · cases hb : (q.next (ts 0)).1.1 with
    | none => exact ⟨k, [], .nil hcall hb, hle⟩
    | some b => exact ⟨k, [b], .cons hcall hb (yields_of_closed hclosed _), hle⟩
  · have hfewer (hk : 0 < k) : n - (s.iterations + k) < n - s.iterations := by omega
    obtain ⟨l, bs, hrest, hbound⟩ :=
      exists_yields hq' (by rw [hlimits, hmax]) fun i => ts (i + 1)
    exact ⟨k + l, b :: bs, .cons hcall hb hrest, by omega⟩
termination_by (n - s.iterations, s.pending.length)
decreasing_by
  rw [hiterations]
  rcases Nat.eq_zero_or_pos k with hk | hk
  · rw [hk]
    exact .right _ (hless hk)
  · exact .left _ _ (hfewer hk)

end Query

theorem prove_of_clausify_error {goal : Formula} {c : Clausifier} {t : Session}
    {e : ClausifyError} (base : List Clause) (limits : Limits)
    (herror : (c.clausify (.not goal) t).1.1 = .error e) :
    (prove base goal c limits t).1.1 = .error e := by
  unfold prove
  rw [bind_apply]
  rcases hconvert : c.clausify (.not goal) t with ⟨⟨result, k'⟩, t'⟩
  rw [hconvert] at herror
  cases herror
  rfl

theorem Ending.eq_exhausted_of_outcome {e : Ending} (h : e.outcome = .inconclusive) :
    e = .exhausted := by
  cases e with
  | exhausted => rfl
  | contradiction | saturated => cases h

/-- Searches with a bound of `n` selections end. Every call for the next report returns;
a proof comes to an outcome unless the goal is refused, and is inconclusive only when
all `n` selections were made; and a query has finitely many bindings, whatever sessions
it is continued in. None makes more than `n` selections in all. -/
theorem bounded_search_ends (n : Nat) :
    RoundsEnd ∧
    (∀ (s : Saturation) (t : Session), s.limits = ⟨some n, none⟩ →
      ∃ k r, Ends (fun (_ : Unit) c => pure ((), some c)) k s () t r ∧
        s.next t = ((r.1.1, r.1.2.1), r.2) ∧ (s.next t).1.2.iterations = s.iterations + k ∧
        s.iterations + k ≤ max n s.iterations) ∧
    (∀ (base : List Clause) (goal : Formula) (c : Clausifier) (t : Session),
      (∃ e, (c.clausify (.not goal) t).1.1 = .error e ∧
        (prove base goal c ⟨some n, none⟩ t).1.1 = .error e) ∨
      ∃ cs e k s' t', (c.clausify (.not goal) t).1.1 = .ok cs ∧
        Ends (fun (_ : Unit) _ => pure ((), (none : Option Empty))) k
          (start (base ++ cs.clauses) ⟨some n, none⟩ (c.clausify (.not goal) t).2).1 ()
          (start (base ++ cs.clauses) ⟨some n, none⟩ (c.clausify (.not goal) t).2).2
          ((.ended e, s', ()), t') ∧
        (prove base goal c ⟨some n, none⟩ t).1.1 = .ok e.outcome ∧ k ≤ n ∧
        (e.outcome = .inconclusive → k = n)) ∧
    ∀ (base : List Clause) (goal : Formula) (c : Clausifier) (t : Session) (q : Query),
      (query base goal c ⟨some n, none⟩ t).1.1 = .ok q →
      ∀ ts : Nat → Session, ∃ k bs, q.Yields ts k bs ∧ k ≤ n := by
  refine ⟨roundsEnd, ?_, ?_, ?_⟩
  · intro s t hlimits
    have hmax : s.limits.maxIterations = some n := by rw [hlimits]
    obtain ⟨k, hends⟩ := exists_ends (fun (_ : Unit) c => pure ((), some c)) hmax () t
    exact ⟨k, _, hends, rfl, hends.progress.1, hends.le_max hmax⟩
  · intro base goal c t
    cases hclausify : (c.clausify (.not goal) t).1.1 with
    | error e => exact .inl ⟨e, rfl, prove_of_clausify_error base _ hclausify⟩
    | ok cs =>
      obtain ⟨k, s', t', hends, hle, hexhausted⟩ :=
        ends_refute (base ++ cs.clauses) n (c.clausify (.not goal) t).2
      refine .inr ⟨cs, _, k, s', t', rfl, hends, (prove_of_clausify base _ hclausify).1, hle, ?_⟩
      intro hinconclusive
      exact hexhausted (Ending.eq_exhausted_of_outcome hinconclusive)
  · intro base goal c t q hquery ts
    obtain ⟨s, hq, hlimits, hiterations, -⟩ := Query.exists_of_query hquery
    obtain ⟨k, bs, hyields, hle⟩ := Query.exists_yields (n := n) hq (by rw [hlimits]) ts
    exact ⟨k, bs, hyields, by omega⟩

/-- The least element `c` is the first of finitely many bindings. -/
theorem bounded_search_ends_least :
    Query.leastStart.1.limits = ⟨some 3, none⟩ ∧ Query.leastQuery.1.1 = .ok Query.leastSearch ∧
    (∃ k r, Ends (fun (_ : Unit) c => pure ((), some c)) k Query.leastStart.1 ()
        Query.leastStart.2 r ∧
      Query.leastStart.1.next Query.leastStart.2 = ((r.1.1, r.1.2.1), r.2) ∧ k ≤ 3) ∧
    ∃ k bs, Query.leastSearch.Yields (fun _ => Query.leastQuery.2)
      k (.ofList [(⟨2⟩, .const ⟨1⟩)] :: bs) ∧ k ≤ 3 := by
  obtain ⟨-, hnext, -, hquery⟩ := bounded_search_ends 3
  have hlimits : Query.leastStart.1.limits = ⟨some 3, none⟩ := (unchanged_insertAll _ _ _).2.2
  have hzero : Query.leastStart.1.iterations = 0 := (unchanged_insertAll _ _ _).2.1
  have hok : Query.leastQuery.1.1 = .ok Query.leastSearch := rfl
  refine ⟨hlimits, hok, ?_, ?_⟩
  · obtain ⟨k, r, hends, heq, -, hle⟩ := hnext _ Query.leastStart.2 hlimits
    rw [hzero, Nat.zero_add] at hle
    exact ⟨k, r, hends, heq, hle⟩
  · obtain ⟨k, bs, hyields, hle⟩ := hquery _ _ _ _ _ hok fun _ => Query.leastQuery.2
    cases hyields with
    | nil _ hnone =>
      rw [Query.next_leastSearch.1] at hnone
      cases hnone
    | cons hcall hsome hrest =>
      obtain rfl := Option.some.inj (hsome.symm.trans Query.next_leastSearch.1)
      exact ⟨_, _, .cons hcall hsome hrest, hle⟩

end Entailment
