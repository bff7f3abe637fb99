import Entailment.Proofs.Course
import Entailment.Proofs.Termination
import Entailment.Search.Query

/-! Bindings one by one. To ask a query for all of its bindings is to ask for the next
one until there is none. -/
namespace Entailment

open SessionM Saturation

namespace Saturation

section Pursuit

variable {β β' γ δ : Type} {listen : β → Clause → SessionM (β × Option γ)} {f : γ → δ → δ}
  {s s' : Saturation} {t t' : Session}

theorem pursue_eq (listen : β → Clause → SessionM (β × Option γ)) (s : Saturation) (b : β)
    (t : Session) : s.pursue listen b t = s.pursueFor listen (s.remaining t.horizon) b t :=
  rfl

theorem lasting_select (s : Saturation) : Lasting (select s) := by
  unfold select
  split
  · exact lasting_pure _
  · refine Lasting.bind ?_ fun _ => lasting_pure _
    unfold activate
    refine (lasting_note _).bind fun _ => lasting_get.bind fun _ => Lasting.bind ?_ fun _ =>
      lasting_get.bind fun _ => lasting_foldlM (fun s c => lasting_insert c s) _ _
    exact (lasting_naming _).bind fun _ => lasting_pure _

theorem lasting_drain (hlisten : ∀ b c, Lasting (listen b c)) (fs : List Finding) (b : β) :
    Lasting (drain listen fs b) := by
  induction fs generalizing b with
  | nil => exact lasting_pure _
  | cons f fs ih =>
    cases f with
    | contradiction => exact lasting_pure _
    | answer c =>
      refine (hlisten b c).bind fun ⟨b, stop⟩ => ?_
      cases stop with
      | none => exact ih b
      | some g => exact lasting_pure _

theorem lasting_pursueFor (hlisten : ∀ b c, Lasting (listen b c)) (n : Nat) (s : Saturation)
    (b : β) : Lasting (pursueFor listen n s b) := by
  induction n generalizing s b with
  | zero =>
    rw [pursueFor]
    apply (lasting_drain hlisten s.pending b).bind
    rintro ⟨_ | r, rest, b⟩ <;> exact lasting_pure _
  | succ n ih =>
    rw [pursueFor]
    apply (lasting_drain hlisten s.pending b).bind
    rintro ⟨_ | r, rest, b⟩
    · apply lasting_get.bind
      intro t
      apply lasting_ite (lasting_pure _) ((lasting_select _).bind _)
      rintro (_ | s')
      · exact lasting_pure _
      · exact ih s' b
    · exact lasting_pure _

/-- Selections are counted, and the limits stay as they are. -/
theorem progress_of_select (hselect : (select s t).1 = some s') :
    s'.iterations = s.iterations + 1 ∧ s'.limits = s.limits := by
  cases hpick : s.pick with
  | none =>
    rw [select_of_pick_none hpick] at hselect
    cases hselect
  | some p =>
    obtain ⟨id, sp⟩ := p
    obtain ⟨-, -, hiterations, hlimits⟩ := pick_frame hpick
    rw [select_of_pick hpick] at hselect
    obtain rfl := Option.some.inj hselect
    obtain ⟨-, hcount, hkept⟩ := unchanged_insertAll _ _ _
    exact ⟨hcount.trans (congrArg (· + 1) hiterations), hkept.trans hlimits⟩

/-- A search goes on as it would from any other findings that are heard in the same
way. -/
theorem pursueFor_congr (n : Nat) {fs fs' : List Finding} {b b' : β}
    (h : drain listen fs b t = drain listen fs' b' t') :
    pursueFor listen n { s with pending := fs } b t =
      pursueFor listen n { s with pending := fs' } b' t' := by
  unfold pursueFor
  rw [bind_apply, bind_apply]
  dsimp only
  rw [h]

/-- A listener that takes in what another one would stop with. -/
def relay (listen : β → Clause → SessionM (β × Option γ)) (f : γ → δ → δ) (state : β × δ)
    (c : Clause) : SessionM ((β × δ) × Option Empty) := do
  let (b, stop) ← listen state.1 c
  return ((b, stop.elim state.2 fun g => f g state.2), none)

theorem relay_apply (f : γ → δ → δ) (b : β) (d : δ) (c : Clause) (t : Session) :
    relay listen f (b, d) c t =
      ((((listen b c t).1.1, (listen b c t).1.2.elim d fun g => f g d), none), (listen b c t).2) :=
  rfl

theorem drain_relay (listen : β → Clause → SessionM (β × Option γ)) (f : γ → δ → δ)
    (fs : List Finding) (b : β) (d : δ) (t : Session) :
    drain (relay listen f) fs (b, d) t =
      match drain listen fs b t with
      | ((none, rest, b'), t') => ((none, rest, b', d), t')
      | ((some (.ended e), rest, b'), t') => ((some (.ended e), rest, b', d), t')
      | ((some (.found g), rest, b'), t') => drain (relay listen f) rest (b', f g d) t' := by
  induction fs generalizing b t with
  | nil => rfl
  | cons finding fs ih =>
    cases finding with
    | contradiction => rfl
    | answer c =>
      rw [drain_answer_of_none rfl, relay_apply]
      cases hstop : (listen b c t).1.2 with
      | none =>
        rw [drain_answer_of_none hstop, ← ih]
        rfl
      | some g =>
        rw [drain_answer_of_some hstop]
        rfl

/-- What a search comes to when its listener is replaced by one that never stops: the
same end, or, where the listener would have stopped, the rest of the search. -/
theorem pursueFor_relay (listen : β → Clause → SessionM (β × Option γ)) (f : γ → δ → δ) (n : Nat)
    (s : Saturation) (b : β) (d : δ) (t : Session) :
    pursueFor (relay listen f) n s (b, d) t =
      match pursueFor listen n s b t with
      | ((.ended e, s', b'), t') => ((.ended e, s', b', d), t')
      | ((.found g, s', b'), t') =>
        pursueFor (relay listen f) (n + s.iterations - s'.iterations) s' (b', f g d) t' := by
  have hrun := pursuit listen n s b t
  generalize pursueFor listen n s b t = r at hrun ⊢
  induction hrun with
  | @report n s b t r _ _ _ hdrain =>
    have hrelay := drain_relay listen f s.pending b d t
    rw [hdrain] at hrelay
    cases r with
    | ended e => exact (Pursuit.report hrelay).eq
    | found g =>
      dsimp only at hrelay ⊢
      rw [Nat.add_sub_cancel]
      exact pursueFor_congr n hrelay
  | exhausted hdrain => exact (Pursuit.exhausted (by rw [drain_relay, hdrain])).eq
  | timedOut hdrain htime => exact (Pursuit.timedOut (by rw [drain_relay, hdrain]) htime).eq
  | saturated hdrain htime hselect =>
    exact (Pursuit.saturated (by rw [drain_relay, hdrain]) htime hselect).eq
  | @selected n s _ _ _ _ _ _ hdrain htime hselect _ ih =>
    rw [(Pursuit.selected (by rw [drain_relay, hdrain]) htime hselect (pursuit _ n _ _ _)).eq, ih,
      (progress_of_select hselect).1]
    dsimp only
    rw [Nat.add_right_comm, Nat.add_assoc n s.iterations 1]

/-- The report with what a listener has asked for replaced. -/
def relabel (g : γ → δ) : Report γ → Report δ
  | .found a => .found (g a)
  | .ended e => .ended e

/-- Listeners whose states correspond hear the same and stop with what corresponds. -/
theorem drain_map {φ : β → β'} {g : γ → δ} {listen' : β' → Clause → SessionM (β' × Option δ)}
    (h : ∀ b c t, listen' (φ b) c t =
      ((φ (listen b c t).1.1, (listen b c t).1.2.map g), (listen b c t).2))
    (fs : List Finding) (b : β) (t : Session) :
    drain listen' fs (φ b) t =
      (((drain listen fs b t).1.1.map (relabel g), (drain listen fs b t).1.2.1,
        φ (drain listen fs b t).1.2.2), (drain listen fs b t).2) := by
  induction fs generalizing b t with
  | nil => rfl
  | cons f fs ih =>
    cases f with
    | contradiction => rfl
    | answer c =>
      cases hstop : (listen b c t).1.2 with
      | none =>
        rw [drain_answer_of_none hstop, drain_answer_of_none (by rw [h, hstop]; rfl), h, ih]
      | some a =>
        rw [drain_answer_of_some hstop, drain_answer_of_some (by rw [h, hstop]; rfl), h]
        rfl

theorem pursueFor_map {φ : β → β'} {g : γ → δ} {listen' : β' → Clause → SessionM (β' × Option δ)}
    (h : ∀ b c t, listen' (φ b) c t =
      ((φ (listen b c t).1.1, (listen b c t).1.2.map g), (listen b c t).2))
    (n : Nat) (s : Saturation) (b : β) (t : Session) :
    pursueFor listen' n s (φ b) t =
      ((relabel g (pursueFor listen n s b t).1.1, (pursueFor listen n s b t).1.2.1,
        φ (pursueFor listen n s b t).1.2.2), (pursueFor listen n s b t).2) := by
  have hrun := pursuit listen n s b t
  generalize pursueFor listen n s b t = r at hrun ⊢
  induction hrun with
  | report hdrain => exact (Pursuit.report (by rw [drain_map h, hdrain]; rfl)).eq
  | exhausted hdrain => exact (Pursuit.exhausted (by rw [drain_map h, hdrain]; rfl)).eq
  | timedOut hdrain htime => exact (Pursuit.timedOut (by rw [drain_map h, hdrain]; rfl) htime).eq
  | saturated hdrain htime hselect =>
    exact (Pursuit.saturated (by rw [drain_map h, hdrain]; rfl) htime hselect).eq
  | @selected n _ _ _ _ _ _ _ hdrain htime hselect _ ih =>
    rw [← ih]
    exact (Pursuit.selected (by rw [drain_map h, hdrain]; rfl) htime hselect
      (pursuit _ n _ _ _)).eq

theorem steady_progress (s₀ : Saturation) :
    Steady fun _ s => s₀.iterations ≤ s.iterations ∧ s.limits = s₀.limits where
  mono _ h := h
  heard h _ := h
  select h hselect := by
    obtain ⟨hiterations, hlimits⟩ := progress_of_select hselect
    exact ⟨h.1.trans (by omega), hlimits.trans h.2⟩

/-- What was left of the bound when the search was interrupted is left when it is taken
up again. -/
theorem remaining_pursueFor (hgrows : ∀ b c, Grows (listen b c))
    (hlasting : ∀ b c, Lasting (listen b c)) (s : Saturation) (b : β) (t : Session) :
    let r := pursueFor listen (s.remaining t.horizon) s b t
    s.remaining t.horizon + s.iterations - r.1.2.1.iterations = r.1.2.1.remaining r.2.horizon := by
  intro r
  obtain ⟨hiterations, hlimits⟩ : s.iterations ≤ r.1.2.1.iterations ∧ r.1.2.1.limits = s.limits :=
    (steady_progress s).pursueFor hgrows ⟨le_rfl, rfl⟩ (s.remaining t.horizon) b
  have hhorizon : r.2.horizon = t.horizon := lasting_pursueFor hlasting _ s b t
  unfold remaining
  rw [hlimits, hhorizon]
  omega

end Pursuit

end Saturation

namespace Query

variable {q q' : Query} {s s' : Saturation} {a : Answers} {e : Ending} {t t' : Session}

theorem grows_receive (n : Nat) (a : Answers) (c : Clause) : Grows (a.receive n c) := by
  unfold Answers.receive
  split
  · exact (grows_note _).bind fun _ => grows_pure _
  · exact grows_ite ((grows_note _).bind fun _ => grows_pure _)
      ((grows_note _).bind fun _ => grows_pure _)

theorem lasting_receive (n : Nat) (a : Answers) (c : Clause) : Lasting (a.receive n c) := by
  unfold Answers.receive
  split
  · exact (lasting_note _).bind fun _ => lasting_pure _
  · exact lasting_ite ((lasting_note _).bind fun _ => lasting_pure _)
      ((lasting_note _).bind fun _ => lasting_pure _)

/-- The query after its search has ended. -/
def ended (q : Query) (e : Ending) (a : Answers) : Query :=
  { q with saturation := none, answers := a, outcome := some (finalOutcome e a) }

theorem next_of_found (hs : q.saturation = some s) {args : List Term}
    (h : s.pursue (Answers.receive q.vars.length) q.answers t = ((.found args, s', a), t')) :
    q.next t = ((some (q.binding args), { q with saturation := some s', answers := a }), t') := by
  unfold next
  simp only [hs, bind_apply, h]
  rfl

theorem next_of_ended (hs : q.saturation = some s)
    (h : s.pursue (Answers.receive q.vars.length) q.answers t = ((.ended e, s', a), t')) :
    q.next t = (((lastBinding e).head?, q.ended e a), (q.finish e s' a t').2) := by
  unfold next
  simp only [hs, bind_apply, h]
  rfl

theorem next_of_none (hs : q.saturation = none) : q.next t = ((none, q), t) := by
  unfold next
  simp only [hs]
  rfl

theorem take_succ_of_none (n : Nat) {q' : Query} (h : (q.next t).1 = (none, q')) :
    q.take (n + 1) t = (([], q'), (q.next t).2) := by
  rw [take]
  simp only [bind_apply, h]
  rfl

theorem take_succ_of_some (n : Nat) {b : Substitution} {q' : Query}
    (h : (q.next t).1 = (some b, q')) :
    q.take (n + 1) t = ((b :: (q'.take n (q.next t).2).1.1, (q'.take n (q.next t).2).1.2),
      (q'.take n (q.next t).2).2) := by
  rw [take]
  simp only [bind_apply, h]
  rfl

/-- The listener of a search for all bindings. -/
def collect (q : Query) (state : Answers × List Substitution) (c : Clause) :
    SessionM ((Answers × List Substitution) × Option Empty) := do
  let (a, args) ← state.1.receive q.vars.length c
  return ((a, args.toList.map q.binding ++ state.2), none)

theorem all_of_ended (hs : q.saturation = some s) {bs : List Substitution}
    (h : s.pursue q.collect (q.answers, []) t = ((.ended e, s', a, bs), t')) :
    q.all t = ((bs.reverse ++ lastBinding e, q.ended e a), (q.finish e s' a t').2) := by
  unfold all
  simp only [hs, bind_apply]
  unfold collect at h
  simp only [h]
  rfl

theorem all_of_none (hs : q.saturation = none) : q.all t = (([], q), t) := by
  unfold all
  simp only [hs]
  rfl

theorem collect_eq_relay (q : Query) :
    q.collect = relay (Answers.receive q.vars.length) fun args bs => q.binding args :: bs := by
  funext state c t
  unfold collect relay
  rw [bind_apply, bind_apply]
  rcases (state.1.receive q.vars.length c t).1 with ⟨a, _ | args⟩ <;> rfl

theorem collect_append (q : Query) (bs : List Substitution) (state : Answers × List Substitution)
    (c : Clause) (t : Session) :
    q.collect (state.1, state.2 ++ bs) c t =
      ((((q.collect state c t).1.1.1, (q.collect state c t).1.1.2 ++ bs),
        (q.collect state c t).1.2.map id), (q.collect state c t).2) := by
  simp only [collect, bind_apply, ← List.append_assoc]
  rfl

/-- The first of all bindings is the next one. -/
theorem all_eq (q : Query) (t : Session) :
    q.all t =
      match q.next t with
      | ((none, q'), t') => (([], q'), t')
      | ((some b, q'), t') => ((b :: (q'.all t').1.1, (q'.all t').1.2), (q'.all t').2) := by
  cases hs : q.saturation with
  | none => rw [next_of_none hs, all_of_none hs]
  | some s =>
    -- To collect all answers is to stop at the first one and to collect the others from there.
    have hrelay := pursueFor_relay (Answers.receive q.vars.length)
      (fun args bs => q.binding args :: bs) (s.remaining t.horizon) s q.answers [] t
    have hremaining := remaining_pursueFor (grows_receive q.vars.length)
      (lasting_receive q.vars.length) s q.answers t
    rw [← collect_eq_relay, ← pursue_eq, ← pursue_eq] at hrelay
    rw [← pursue_eq] at hremaining
    rcases hrun : s.pursue (Answers.receive q.vars.length) q.answers t with ⟨⟨report, s', a⟩, t'⟩
    rw [hrun] at hrelay hremaining
    cases report with
    | ended e =>
      rw [next_of_ended hs hrun, all_of_ended hs hrelay]
      cases e with
      | contradiction =>
        dsimp only [lastBinding, List.head?]
        rw [all_of_none (q := q.ended .contradiction a) rfl]
        rfl
      | saturated | exhausted => rfl
    | found args =>
      dsimp only at hrelay hremaining
      rw [hremaining] at hrelay
      rw [next_of_found hs hrun]
      let q' : Query := { q with saturation := some s', answers := a }
      rcases hrest : s'.pursue q'.collect (q'.answers, []) t' with ⟨⟨_ | e, s'', a', bs⟩, t''⟩
      · contradiction
      -- What is collected is listed backwards, so the first binding stays behind the others.
      have hmore := pursueFor_map (φ := fun state => (state.1, state.2 ++ [q.binding args]))
        (q.collect_append [q.binding args]) (s'.remaining t'.horizon) s' (a, []) t'
      rw [← pursue_eq, ← pursue_eq, show s'.pursue q.collect (a, []) t' = _ from hrest] at hmore
      rw [all_of_ended hs (hrelay.trans hmore)]
      dsimp only
      rw [all_of_ended (q := q') rfl hrest, List.reverse_append]
      rfl

/-- The next bindings are the first ones of all. -/
theorem take_bindings (n : Nat) (q : Query) (t : Session) :
    (q.take n t).1.1 = (q.all t).1.1.take n := by
  induction n generalizing q t with
  | zero => rfl
  | succ n ih =>
    have hall := q.all_eq t
    rcases hnext : q.next t with ⟨⟨_ | b, q'⟩, t'⟩ <;> rw [hnext] at hall
    · rw [take_succ_of_none n (congrArg Prod.fst hnext), hall]
      rfl
    · rw [take_succ_of_some n (congrArg Prod.fst hnext), hall, hnext]
      exact congrArg (b :: ·) (ih q' t')

/-- Whoever asks often enough has asked for all bindings. -/
theorem take_eq_all {n : Nat} (hn : (q.all t).1.1.length < n) : q.take n t = q.all t := by
  induction n generalizing q t with
  | zero => exact absurd hn (Nat.not_lt_zero _)
  | succ n ih =>
    have hall := q.all_eq t
    rcases hnext : q.next t with ⟨⟨_ | b, q'⟩, t'⟩ <;> rw [hnext] at hall
    · rw [take_succ_of_none n (congrArg Prod.fst hnext), hall, hnext]
    · rw [hall] at hn ⊢
      rw [take_succ_of_some n (congrArg Prod.fst hnext), hnext, ih (Nat.lt_of_succ_lt_succ hn)]

/-- A query has an outcome only when its search has ended. -/
def Pending (q : Query) : Prop := q.saturation ≠ none → q.outcome = none

theorem Pending.next (h : q.Pending) (t : Session) : (q.next t).1.2.Pending := by
  intro hopen
  cases hs : q.saturation with
  | none =>
    rw [next_of_none hs] at hopen
    exact absurd hs hopen
  | some s =>
    rcases hrun : s.pursue (Answers.receive q.vars.length) q.answers t with ⟨⟨args | e, s', a⟩, t'⟩
    · rw [next_of_found hs hrun]
      exact h (by rw [hs]; nofun)
    · rw [next_of_ended hs hrun] at hopen
      exact absurd rfl hopen

theorem outcome_of_take (h : q.Pending) {n : Nat} {o : Outcome}
    (hout : (q.take n t).1.2.outcome = some o) : (q.all t).1.2.outcome = some o := by
  induction n generalizing q t with
  | zero =>
    have hended : q.saturation = none := by
      by_contra hopen
      have hnone : q.outcome = none := h hopen
      rw [show q.outcome = some o from hout] at hnone
      cases hnone
    rw [all_of_none hended]
    exact hout
  | succ n ih =>
    have hall := q.all_eq t
    have hpending := h.next t
    rcases hnext : q.next t with ⟨⟨_ | b, q'⟩, t'⟩ <;> rw [hnext] at hall hpending
    · rw [take_succ_of_none n (congrArg Prod.fst hnext)] at hout
      rw [hall]
      exact hout
    · rw [take_succ_of_some n (congrArg Prod.fst hnext), hnext] at hout
      rw [hall]
      exact ih hpending hout

/-- Continuations of the query `q₀`, which was started in the session `t₀`, with the
session they are now in and all bindings given so far. In between, other computations
may add names. -/
inductive Run (q₀ : Query) (t₀ : Session) : Query → Session → List Substitution → Prop
  | start : Run q₀ t₀ q₀ t₀ []
  | elsewhere {q t bs t'} : Run q₀ t₀ q t bs → t.symbols ≤ t'.symbols → Run q₀ t₀ q t' bs
  | next {q t bs} : Run q₀ t₀ q t bs →
      Run q₀ t₀ (q.next t).1.2 (q.next t).2 (bs ++ (q.next t).1.1.toList)
  | take {q t bs} (n : Nat) : Run q₀ t₀ q t bs →
      Run q₀ t₀ (q.take n t).1.2 (q.take n t).2 (bs ++ (q.take n t).1.1)
  | all {q t bs} : Run q₀ t₀ q t bs →
      Run q₀ t₀ (q.all t).1.2 (q.all t).2 (bs ++ (q.all t).1.1)

/-- What is kept up whenever one more binding is asked for is kept up along every
run. -/
theorem Run.induction {q₀ : Query} {t₀ : Session}
    {motive : Query → Session → List Substitution → Prop} (hstart : motive q₀ t₀ [])
    (helsewhere : ∀ {q t bs t'}, motive q t bs → t.symbols ≤ t'.symbols → motive q t' bs)
    (hnext : ∀ {q t bs}, motive q t bs →
      motive (q.next t).1.2 (q.next t).2 (bs ++ (q.next t).1.1.toList))
    {bs : List Substitution} (hrun : Run q₀ t₀ q t bs) : motive q t bs := by
  have htake (n : Nat) {q : Query} {t : Session} {bs : List Substitution} (h : motive q t bs) :
      motive (q.take n t).1.2 (q.take n t).2 (bs ++ (q.take n t).1.1) := by
    induction n generalizing q t bs with
    | zero => rwa [show (q.take 0 t).1.1 = [] from rfl, List.append_nil]
    | succ n ih =>
      have hstep := hnext h
      rcases hone : q.next t with ⟨⟨_ | b, q'⟩, t'⟩ <;> rw [hone] at hstep
      · rwa [take_succ_of_none n (congrArg Prod.fst hone), hone]
      · rw [take_succ_of_some n (congrArg Prod.fst hone), hone]
        dsimp only
        rw [List.append_cons]
        exact ih hstep
  induction hrun with
  | start => exact hstart
  | elsewhere _ hle ih => exact helsewhere ih hle
  | next _ ih => exact hnext ih
  | take n _ ih => exact htake n ih
  | all _ ih =>
    rw [← take_eq_all (Nat.lt_succ_self _)]
    exact htake _ ih

theorem grows_next (q : Query) : Grows q.next := by
  unfold next
  split
  · exact grows_pure _
  · refine Grows.bind (fun t => grows_pursueFor (grows_receive _) _ _ _ t) ?_
    rintro ⟨_ | _, s, a⟩
    · exact grows_pure _
    · exact ((grows_note _).bind fun _ => grows_pure _).bind fun _ => grows_pure _

theorem Run.le {q₀ : Query} {t₀ : Session} {bs : List Substitution} (h : Run q₀ t₀ q t bs) :
    t₀.symbols ≤ t.symbols :=
  Run.induction (motive := fun _ t _ => t₀.symbols ≤ t.symbols) le_rfl (fun h hle => h.trans hle)
    (fun h => h.trans (grows_next _ _)) h

theorem grows_all (q : Query) : Grows q.all := fun _ => Run.le (.all .start)

end Query

end Entailment
