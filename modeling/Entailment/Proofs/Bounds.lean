import Entailment.Proofs.Query

/-! Bounds on searches. Limits are looked at only when a search asks whether it may go
on. So under a larger bound it first does all it does under a smaller one, and what
was found by then stays found. -/
namespace Entailment

open SessionM Saturation

namespace Saturation

variable {s s' : Saturation} {t t' : Session} {l limits : Limits}

/-- The search under other limits. -/
def limited (l : Limits) (s : Saturation) : Saturation := { s with limits := l }

/-- The search under other limits, in its session. -/
def limitedIn (l : Limits) (p : Saturation × Session) : Saturation × Session :=
  (p.1.limited l, p.2)

theorem insert_limited (c : Clause) (s : Saturation) (t : Session) :
    insert c (s.limited l) t = limitedIn l (insert c s t) := by
  rw [insert_eq, insert_eq, apply_ite (limitedIn l), apply_ite (limitedIn l),
    apply_ite (limitedIn l)]
  dsimp only
  rw [apply_ite (limitedIn l), apply_ite (limitedIn l)]
  rfl

theorem insertAll_limited (cs : List Clause) (s : Saturation) (t : Session) :
    insertAll cs (s.limited l) t = limitedIn l (insertAll cs s t) := by
  induction cs generalizing s t with
  | nil => rfl
  | cons c cs ih =>
    have hinsert := insert_limited (l := l) c s t
    have hrest := ih (insert c s t).1 (insert c s t).2
    change insertAll cs (insert c (s.limited l) t).1 (insert c (s.limited l) t).2 = _
    rw [hinsert]
    exact hrest

theorem start_limited (cs : List Clause) (l limits : Limits) (t : Session) :
    start cs l t = limitedIn l (start cs limits t) :=
  insertAll_limited cs (init limits) t

theorem pick_limited (s : Saturation) :
    (s.limited l).pick = s.pick.map fun p => (p.1, p.2.limited l) := by
  unfold pick
  dsimp only
  rw [apply_ite (Option.map _), Option.map_map, Option.map_map]
  rfl

/-- A clause that becomes active gets a copy, and everything that follows is taken in. -/
theorem activate_eq (id : Nat) (s : Saturation) (t : Session) :
    activate id s t =
      let r := renameApart (s.clause id)
        { s with active := s.active.push id, iterations := s.iterations + 1 }
        (note (.given id (s.clause id)) t).2
      insertAll (unaryConsequences t.symbols (s.clause id) ++
          (s.active.toList.flatMap fun other =>
            consequences t.symbols (s.clause id) (s.clause other)) ++
          selfConsequences r.2.symbols (s.clause id) r.1.1) r.1.2 r.2 :=
  rfl

theorem activate_limited (id : Nat) (s : Saturation) (t : Session) :
    activate id (s.limited l) t = limitedIn l (activate id s t) := by
  rw [activate_eq, activate_eq, ← insertAll_limited]
  rfl

theorem select_limited (s : Saturation) (t : Session) :
    select (s.limited l) t = ((select s t).1.map (limited l), (select s t).2) := by
  have hpick := pick_limited (l := l) s
  cases hs : s.pick with
  | none =>
    rw [hs] at hpick
    rw [select_of_pick_none hs, select_of_pick_none hpick]
    rfl
  | some p =>
    obtain ⟨id, sp⟩ := p
    rw [hs] at hpick
    rw [select_of_pick hs, select_of_pick hpick, activate_limited]
    rfl

section Pursuit

variable {β γ : Type} {listen : β → Clause → SessionM (β × Option γ)} {b b' : β}
  {report : Report γ}

/-- A search that is allowed `d` more selections, under other limits without a timeout,
ends as before, unless it was exhausted; then it goes on from there. -/
theorem pursueFor_limited (hs : s.limits.timeout = none) (hl : l.timeout = none) (n d : Nat)
    (h : pursueFor listen n s b t = ((report, s', b'), t')) :
    (report ≠ .ended .exhausted →
      pursueFor listen (n + d) (s.limited l) b t = ((report, s'.limited l, b'), t')) ∧
    (report = .ended .exhausted →
      pursueFor listen (n + d) (s.limited l) b t = pursueFor listen d (s'.limited l) b' t') := by
  have huntimed (s : Saturation) (clock : Nat → Duration) :
      ¬ isTimedOut (s.limited l) clock = true := by
    simp [isTimedOut, limited, hl]
  -- The induction is on the run under the old limits; each of its steps is one under the new ones.
  have hrun := pursuit listen n s b t
  rw [h] at hrun
  clear h
  generalize hr : ((report, s', b'), t') = r at hrun
  induction hrun with
  | @report n s _ _ _ _ _ _ hdrain =>
    cases hr
    refine ⟨fun _ => (Pursuit.report (s := s.limited l) hdrain).eq, ?_⟩
    rintro rfl
    cases eq_contradiction_of_drain hdrain
  | @exhausted s b t b₁ t₁ hdrain =>
    cases hr
    have hheard : drain listen s.pending b t = drain listen [] b' t' := hdrain
    refine ⟨fun hne => absurd rfl hne, fun _ => ?_⟩
    rw [Nat.zero_add]
    exact pursueFor_congr (s := s.limited l) d hheard
  | timedOut _ htime => simp [isTimedOut, hs] at htime
  | @saturated n s b t b₁ t₁ hdrain _ hselect =>
    cases hr
    obtain ⟨hnone, hsession⟩ :=
      Prod.ext_iff.mp (select_limited (l := l) { s with pending := [] } t₁)
    rw [hselect] at hnone
    refine ⟨fun _ => ?_, by simp⟩
    rw [Nat.add_right_comm,
      (Pursuit.saturated (n := n + d) (s := s.limited l) hdrain (huntimed _ _) hnone).eq]
    exact Prod.ext rfl hsession
  | @selected n s b t b₁ t₁ s₁ r hdrain _ hselect _ ih =>
    obtain ⟨hsome, hsession⟩ :=
      Prod.ext_iff.mp (select_limited (l := l) { s with pending := [] } t₁)
    rw [hselect] at hsome
    have hrest := pursuit listen (n + d) (s₁.limited l) b₁ (select { s with pending := [] } t₁).2
    rw [← hsession] at hrest
    rw [Nat.add_right_comm,
      (Pursuit.selected (s := s.limited l) hdrain (huntimed _ _) hsome hrest).eq, hsession]
    exact ih (by rw [(progress_of_select hselect).2, hs]) hr

/-- What a listener keeps up whatever it hears, it has kept up when it is left. -/
theorem drain_state {Good : β → Prop} (h : ∀ b c t, Good b → Good (listen b c t).1.1)
    (fs : List Finding) (hb : Good b) (t : Session) : Good (drain listen fs b t).1.2.2 := by
  induction fs generalizing b t with
  | nil => exact hb
  | cons f fs ih =>
    cases f with
    | contradiction => exact hb
    | answer c =>
      have hheard := h b c t hb
      cases hstop : (listen b c t).1.2 with
      | none =>
        rw [drain_answer_of_none hstop]
        exact ih hheard _
      | some g => rwa [drain_answer_of_some hstop]

theorem pursueFor_state {Good : β → Prop} (h : ∀ b c t, Good b → Good (listen b c t).1.1) (n : Nat)
    (s : Saturation) (hb : Good b) (t : Session) : Good (pursueFor listen n s b t).1.2.2 := by
  have hheard {s : Saturation} {b b' : β} {t t' : Session} {report : Option (Report γ)}
      {rest : List Finding} (hdrain : drain listen s.pending b t = ((report, rest, b'), t'))
      (hb : Good b) : Good b' := by
    have hgood := drain_state h s.pending hb t
    rwa [hdrain] at hgood
  have hrun := pursuit listen n s b t
  generalize pursueFor listen n s b t = r at hrun ⊢
  induction hrun with
  | report hdrain | exhausted hdrain | timedOut hdrain | saturated hdrain =>
    exact hheard hdrain hb
  | selected hdrain _ _ _ ih => exact ih (hheard hdrain hb)

end Pursuit

theorem finish_limited (hs : s.limits.timeout = none) (hl : l.timeout = none)
    (hle : s.remaining t.horizon ≤ (s.limited l).remaining t.horizon)
    (hend : (s.finish t).1.1 ≠ .exhausted) :
    ((s.limited l).finish t).1.1 = (s.finish t).1.1 := by
  obtain ⟨e, s', t', hrun, hfinish⟩ := exists_pursueFor_eq s t
  obtain ⟨e₁, s₁, t₁, hrun₁, hfinish₁⟩ := exists_pursueFor_eq (s.limited l) t
  obtain ⟨d, hd⟩ := Nat.exists_eq_add_of_le hle
  rw [hfinish] at hend ⊢
  rw [hd, (pursueFor_limited hs hl _ d hrun).1 fun heq => hend (Report.ended.inj heq)] at hrun₁
  rw [hfinish₁]
  cases hrun₁
  rfl

/-- A refutation that was not given up is found under every larger bound. -/
theorem refute_of_le {cs : List Clause} (hend : (refute cs limits t).1.1 ≠ .exhausted)
    (htimeout : limits.timeout = none) (hl : l.timeout = none)
    (hle : limits.maxIterations.getD t.horizon ≤ l.maxIterations.getD t.horizon) :
    (refute cs l t).1.1 = (refute cs limits t).1.1 := by
  have hstart := start_limited cs l limits t
  rw [← remaining_start cs limits t, ← remaining_start cs l t] at hle
  unfold refute at hend ⊢
  rw [hstart] at hle ⊢
  have hlimits : (start cs limits t).1.limits = limits := (unchanged_insertAll cs _ t).2.2
  exact finish_limited (by rw [hlimits, htimeout]) hl hle hend

end Saturation

namespace Query

variable {q q' : Query} {s s' : Saturation} {t t' : Session} {l limits : Limits}

/-- The query with its search under other limits. -/
def limited (l : Limits) (q : Query) : Query :=
  { q with saturation := q.saturation.map (Saturation.limited l) }

/-- Limits have no part in how a query is started. -/
theorem query_limited (base : List Clause) (goal : Formula) (k : Clausifier) (l limits : Limits)
    (t : Session) :
    query base goal k l t =
      (((query base goal k limits t).1.1.map (limited l), (query base goal k limits t).1.2),
        (query base goal k limits t).2) := by
  unfold query
  simp only [bind_apply]
  rcases (k.clausify _ _).1 with ⟨_ | cs, k'⟩
  · rfl
  · simp only [bind_apply]
    rw [start_limited _ l limits]
    rfl

theorem lasting_query (base : List Clause) (goal : Formula) (k : Clausifier) (limits : Limits) :
    Lasting (query base goal k limits) := by
  unfold query
  refine (lasting_naming _).bind fun _ => (Clausifier.lasting_clausify _ k).bind ?_
  rintro ⟨_ | cs, k'⟩
  · exact lasting_pure _
  · exact (lasting_note _).bind fun _ => (lasting_start _ limits).bind fun _ => lasting_pure _

theorem exists_of_query {base : List Clause} {goal : Formula} {k : Clausifier}
    (h : (query base goal k limits t).1.1 = .ok q) :
    ∃ s, q.saturation = some s ∧ s.limits = limits ∧ s.iterations = 0 ∧ q.Pending := by
  obtain ⟨cs, t', -, -, rfl, -⟩ := query_of_ok h
  obtain ⟨-, hiterations, hlimits⟩ := unchanged_insertAll (base ++ cs.clauses) (init limits) t'
  exact ⟨_, rfl, hlimits, hiterations, fun _ => rfl⟩

theorem isEmpty_receive {a : Answers} (h : a.isEmpty = false) (n : Nat) (c : Clause) (t : Session) :
    (a.receive n c t).1.1.isEmpty = false := by
  cases hterms : Answers.terms? n c with
  | none =>
    simp only [Answers.receive, hterms]
    exact Bool.and_false _
  | some args =>
    cases hnew : a.bindings.contains args with
    | true =>
      simp only [Answers.receive, hterms, if_apply, hnew]
      exact h
    | false =>
      rw [receive_of_new t hterms hnew]
      simp [Answers.isEmpty]

/-- When a search may go on for longer, it brings further bindings after those it has
brought, and an outcome other than that it was given up stays. -/
theorem all_limited (hq : q.saturation = some s) (hs : s.limits.timeout = none)
    (hl : l.timeout = none) (hle : s.remaining t.horizon ≤ (s.limited l).remaining t.horizon) :
    (q.all t).1.1 <+: ((q.limited l).all t).1.1 ∧
      ∀ o, o ≠ .inconclusive → (q.all t).1.2.outcome = some o →
        ((q.limited l).all t).1.2.outcome = some o := by
  have hq' : (q.limited l).saturation = some (s.limited l) := congrArg (Option.map _) hq
  obtain ⟨d, hd⟩ := Nat.exists_eq_add_of_le hle
  rcases hrun : s.pursue q.collect (q.answers, []) t with ⟨⟨_ | e, s', a, bs⟩, t'⟩
  · contradiction
  have hlimited := pursueFor_limited hs hl _ d hrun
  rw [← hd] at hlimited
  rw [all_of_ended hq hrun]
  by_cases he : e = .exhausted
  · subst he
    rcases hmore : pursueFor q.collect d (s'.limited l) (a, bs) t' with ⟨⟨_ | e, s₁, a₁, bs₁⟩, t₁⟩
    · contradiction
    obtain ⟨hbs, hanswers⟩ : bs <:+ bs₁ ∧ (a.isEmpty = false → a₁.isEmpty = false) := by
      have hheard (state : Answers × List Substitution) (c : Clause) (t : Session)
          (h : bs <:+ state.2 ∧ (a.isEmpty = false → state.1.isEmpty = false)) :
          bs <:+ (q.collect state c t).1.1.2 ∧
            (a.isEmpty = false → (q.collect state c t).1.1.1.isEmpty = false) :=
        ⟨h.1.trans (List.suffix_append _ _), fun ha => isEmpty_receive (h.2 ha) _ c t⟩
      have hstate := pursueFor_state (b := (a, bs)) hheard d (s'.limited l)
        ⟨List.suffix_rfl, id⟩ t'
      rwa [hmore] at hstate
    rw [all_of_ended (q := q.limited l) hq' ((hlimited.2 rfl).trans hmore)]
    refine ⟨?_, fun o ho hout => ?_⟩
    · rw [show lastBinding .exhausted = [] from rfl, List.append_nil]
      exact (List.reverse_prefix.mpr hbs).trans (List.prefix_append _ _)
    · cases hempty : a.isEmpty with
      | true =>
        simp only [ended, finalOutcome, hempty] at hout
        exact absurd (Option.some.inj hout).symm ho
      | false =>
        simp only [ended, finalOutcome, hempty] at hout
        simp only [ended, finalOutcome, hanswers hempty]
        exact hout
  · rw [all_of_ended (q := q.limited l) hq' (hlimited.1 fun heq => he (Report.ended.inj heq))]
    exact ⟨List.prefix_rfl, fun o _ hout => hout⟩

end Query

/-- A larger bound, or none, never changes what was found. Where there is none, the
horizon of the session stands in for it. -/
theorem kept_of_bound_le {base : List Clause} {goal : Formula} {k : Clausifier} {t : Session}
    {m : Nat} {m' : Option Nat} (hm : m ≤ m'.getD t.horizon) :
    (∀ o, o ≠ .inconclusive → (prove base goal k ⟨some m, none⟩ t).1.1 = .ok o →
      (prove base goal k ⟨m', none⟩ t).1.1 = .ok o) ∧
    ∀ q k₁ t₁, query base goal k ⟨some m, none⟩ t = ((.ok q, k₁), t₁) →
      ∃ q', query base goal k ⟨m', none⟩ t = ((.ok q', k₁), t₁) ∧
        (∀ n, (q.take n t₁).1.1 <+: (q'.take n t₁).1.1) ∧
        ∀ n o, o ≠ .inconclusive → (q.take n t₁).1.2.outcome = some o →
          ∃ n', ∀ i ≥ n', (q'.take i t₁).1.2.outcome = some o := by
  constructor
  · intro o ho hprove
    obtain ⟨cs, hok⟩ := exists_clausify_of_prove hprove
    rw [(prove_of_clausify base _ hok).1] at hprove ⊢
    obtain rfl := Except.ok.inj hprove
    have hbound : m ≤ m'.getD (k.clausify (.not goal) t).2.horizon := by
      rwa [Clausifier.lasting_clausify]
    have hend : (refute (base ++ cs.clauses) ⟨some m, none⟩ (k.clausify (.not goal) t).2).1.1 ≠
        .exhausted := fun hend => ho (by rw [hend]; rfl)
    rw [refute_of_le (l := ⟨m', none⟩) hend rfl rfl hbound]
  · intro q k₁ t₁ hquery
    obtain ⟨s, hs, hlimits, hiterations, hpending⟩ :=
      Query.exists_of_query (congrArg (·.1.1) hquery)
    have hhorizon : t₁.horizon = t.horizon := by
      rw [← Query.lasting_query base goal k ⟨some m, none⟩ t, hquery]
    have hle : s.remaining t₁.horizon ≤ (s.limited ⟨m', none⟩).remaining t₁.horizon := by
      rw [← hhorizon] at hm
      simpa [remaining, Saturation.limited, hlimits, hiterations] using hm
    obtain ⟨hbindings, hout⟩ := Query.all_limited hs (by rw [hlimits]) rfl hle
    refine ⟨q.limited ⟨m', none⟩, ?_, fun n => ?_, fun n o ho hn => ?_⟩
    · rw [Query.query_limited base goal k ⟨m', none⟩ ⟨some m, none⟩, hquery]
      rfl
    · rw [Query.take_bindings, Query.take_bindings]
      exact hbindings.take n
    · refine ⟨((q.limited ⟨m', none⟩).all t₁).1.1.length + 1, fun i hi => ?_⟩
      rw [Query.take_eq_all hi]
      exact hout o ho (Query.outcome_of_take hpending hn)

/-- A proof in two steps is found without a bound, and the first binding of a bounded
query is the first one of the unbounded query, too. -/
theorem kept_of_bound_le_least :
    (prove [⟨[⟨.rel ⟨0⟩ [], false⟩]⟩] (.rel ⟨0⟩ []) .new .unbounded .new).1.1 = .ok .entailed ∧
    ∃ q', (query Query.leastPremises Query.leastElement .new .unbounded
        Query.leastSession).1.1 = .ok q' ∧
      [.ofList [(⟨2⟩, .const ⟨1⟩)]] <+: (q'.take 1 Query.leastQuery.2).1.1 := by
  have hproved : (prove [⟨[⟨.rel ⟨0⟩ [], false⟩]⟩] (.rel ⟨0⟩ []) .new ⟨some 2, none⟩ .new).1.1 =
      .ok .entailed := by cbv
  have hok : Query.leastQuery.1.1 = .ok Query.leastSearch := rfl
  have hquery : Query.leastQuery =
      ((.ok Query.leastSearch, Query.leastQuery.1.2), Query.leastQuery.2) := by
    rw [← hok]
  have hfirst : (Query.leastSearch.take 1 Query.leastQuery.2).1.1 =
      [.ofList [(⟨2⟩, .const ⟨1⟩)]] := by
    rcases hnext : (Query.leastSearch.next Query.leastQuery.2).1 with ⟨b, q⟩
    have hb := Query.next_leastSearch.1
    rw [hnext] at hb
    cases hb
    rw [Query.take_succ_of_some 0 hnext]
    rfl
  have htwo : 2 ≤ (none : Option Nat).getD Session.new.horizon := by decide
  have hthree : 3 ≤ (none : Option Nat).getD Query.leastSession.horizon := by decide
  refine ⟨(kept_of_bound_le htwo).1 .entailed (by decide) hproved, ?_⟩
  obtain ⟨q', hq', hbindings, -⟩ :=
    (kept_of_bound_le hthree).2 _ _ _ hquery
  exact ⟨q', congrArg (·.1.1) hq', hfirst ▸ hbindings 1⟩

end Entailment
