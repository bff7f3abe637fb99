import Entailment.Proofs.Clausify
import Entailment.Proofs.Inference
import Entailment.Search.Saturation

/-! What a search can come upon. A property of clauses that no inference leaves
holds of everything the search stores or reports, if it holds of the clauses the
search starts with. -/
namespace Entailment

universe u

instance : Std.LawfulEqCmp pairOrder where
  eq_of_compare := by
    intro p q h
    simp only [compareLex, compareOn, Ordering.then_eq_eq, Std.compare_eq_iff_eq] at h
    exact Prod.ext h.1 h.2

open SessionM

/-- The clause that was found; a contradiction is the empty one. -/
def Finding.clause : Finding → Clause
  | .contradiction => .empty
  | .answer c => c

theorem Clause.eq_empty_of_isEmpty {c : Clause} (h : c.isEmpty = true) : c = .empty := by
  rw [isEmpty, List.isEmpty_iff] at h
  exact congrArg Clause.mk h

theorem Clause.le_canonical (c : Clause) (σ : Symbols) : σ ≤ (c.canonical σ).2 := by
  have hshape (ls : List Literal) (σ : Symbols) : σ ≤ (byShape ls σ).2 := by
    match ls with
    | [] | [_] => exact le_refl σ
    | _ :: _ :: _ => exact Symbols.le_intern "$v" σ
  exact le_trans (hshape c.literals σ) (Symbols.le_internAll _ _)

namespace Saturation

variable {c : Clause} {s s' : Saturation} {t : Session}

/-- The canonical form has been looked at. -/
def saw (form : Clause) (s : Saturation) : Saturation := { s with seen := s.seen.insert form }

theorem le_freshNames (xs : List Symbol) (counter : UInt32) (σ : Symbols) :
    σ ≤ (freshNames xs counter σ).2 := by
  induction xs generalizing counter σ with
  | nil => exact le_refl σ
  | cons x xs ih => exact le_trans (Symbols.le_fresh _ counter σ) (ih _ _)

theorem grows_renameApart (c : Clause) (s : Saturation) : Grows (renameApart c s) :=
  (grows_naming (le_freshNames c.vars s.varCounter)).bind fun _ => grows_pure _

theorem insert_eq (c : Clause) (s : Saturation) (t : Session) :
    insert c s t =
      if c.isEmpty then (s.report .contradiction, t)
      else if c.isTautology then (s, (note (.tautology c) t).2)
      else if c.isAnswer t.symbols then (s.report (.answer c), t)
      else
        let form := (c.canonical t.symbols).1
        let t := (naming c.canonical t).2
        if s.seen.contains form then (s, (note (.duplicate c) t).2)
        else if (s.saw form).isSubsumed c then (s.saw form, (note (.subsumed c) t).2)
        else
          let r := renameApart c (s.saw form) t
          (r.1.2.store r.1.1, (note (.stored r.1.2.clauses.size r.1.1) r.2).2) := by
  unfold insert
  rw [if_apply, if_apply, bind_apply, bind_apply, get_apply, if_apply, bind_apply, if_apply,
    if_apply]
  rfl

theorem grows_insert (c : Clause) (s : Saturation) : Grows (insert c s) := by
  unfold insert
  refine grows_ite (grows_pure _) (grows_ite ((grows_note _).bind fun _ => grows_pure _) ?_)
  refine grows_get.bind fun _ => grows_ite (grows_pure _) ?_
  refine (grows_naming c.le_canonical).bind fun _ => ?_
  refine grows_ite ((grows_note _).bind fun _ => grows_pure _) ?_
  refine grows_ite ((grows_note _).bind fun _ => grows_pure _) ?_
  exact (grows_renameApart c _).bind fun _ => (grows_note _).bind fun _ => grows_pure _

theorem grows_insertAll (cs : List Clause) (s : Saturation) : Grows (insertAll cs s) :=
  grows_foldlM (fun s c => grows_insert c s) cs s

/-- What taking in a clause can do to the search when the table is `σ`. -/
inductive Taken (σ : Symbols) (c : Clause) (s : Saturation) : Saturation → Prop
  | contradiction (h : c.isEmpty = true) : Taken σ c s (s.report .contradiction)
  | tautology (h : c.isTautology = true) : Taken σ c s s
  | answer (h : c.isAnswer σ = true) : Taken σ c s (s.report (.answer c))
  | duplicate (h : s.seen.contains (c.canonical σ).1 = true) : Taken σ c s s
  | subsumed (h : (s.saw (c.canonical σ).1).isSubsumed c = true) :
    Taken σ c s (s.saw (c.canonical σ).1)
  | stored (names : List (Symbol × Symbol)) (counter : UInt32)
      (hnames : (freshNames c.vars s.varCounter (c.canonical σ).2).1 = (names, counter))
      (hempty : ¬ c.isEmpty = true) (htautology : ¬ c.isTautology = true)
      (hanswer : ¬ c.isAnswer σ = true) (hnew : ¬ s.seen.contains (c.canonical σ).1 = true)
      (hsubsumed : ¬ (s.saw (c.canonical σ).1).isSubsumed c = true) :
    Taken σ c s ({ s.saw (c.canonical σ).1 with varCounter := counter }.store
      (c.rename fun x => (names.lookup x).getD x))

theorem taken_insert (c : Clause) (s : Saturation) (t : Session) :
    Taken t.symbols c s (insert c s t).1 := by
  rw [insert_eq]
  dsimp only
  split
  · exact .contradiction ‹_›
  split
  · exact .tautology ‹_›
  split
  · exact .answer ‹_›
  split
  · exact .duplicate ‹_›
  split
  · exact .subsumed ‹_›
  · exact .stored _ _ rfl ‹_› ‹_› ‹_› ‹_› ‹_›

/-- The property holds of all clauses that are stored or found, and all numbers in
use are those of stored clauses. -/
structure Within (P : Clause → Prop) (s : Saturation) : Prop where
  clauses : ∀ c ∈ s.clauses, P c
  pending : ∀ f ∈ s.pending, P f.clause
  active : ∀ id ∈ s.active, id < s.clauses.size
  byWeight : ∀ p ∈ s.byWeight, p.2 < s.clauses.size
  byAge : ∀ id ∈ s.byAge, id < s.clauses.size

namespace Within

variable {P : Clause → Prop}

theorem init (P : Clause → Prop) (limits : Limits) : Within P (init limits) where
  clauses c hc := by simp [Saturation.init] at hc
  pending f hf := by simp [Saturation.init] at hf
  active id hid := by simp [Saturation.init] at hid
  byWeight p hp := by simp [Saturation.init] at hp
  byAge id hid := by simp [Saturation.init] at hid

theorem clause (h : Within P s) {id : Nat} (hid : id < s.clauses.size) : P (s.clause id) := by
  refine h.clauses _ ?_
  rw [Saturation.clause, Array.getD_eq_getD_getElem?, Array.getElem?_eq_getElem hid]
  exact Array.getElem_mem hid

theorem report (h : Within P s) {f : Finding} (hf : P f.clause) : Within P (s.report f) where
  clauses := h.clauses
  pending g hg := by
    rcases List.mem_append.mp hg with hg | hg
    · exact h.pending g hg
    · rwa [List.mem_singleton.mp hg]
  active := h.active
  byWeight := h.byWeight
  byAge := h.byAge

theorem saw (h : Within P s) (form : Clause) : Within P (s.saw form) :=
  ⟨h.clauses, h.pending, h.active, h.byWeight, h.byAge⟩

theorem store (h : Within P s) (hc : P c) : Within P (s.store c) := by
  have hsize : (s.store c).clauses.size = s.clauses.size + 1 := Array.size_push c
  constructor
  · intro d hd
    rcases Array.mem_push.mp hd with hd | rfl
    · exact h.clauses d hd
    · exact hc
  · exact h.pending
  · intro id hid
    have := h.active id hid
    omega
  · intro p hp
    rcases Std.TreeSet.mem_insert.mp hp with heq | hp
    · rw [← Std.LawfulEqCmp.eq_of_compare heq]
      omega
    · have := h.byWeight p hp
      omega
  · intro id hid
    rcases Std.TreeSet.mem_insert.mp hid with heq | hid
    · rw [← Std.LawfulEqCmp.eq_of_compare heq]
      omega
    · have := h.byAge id hid
      omega

theorem of_taken {σ : Symbols} (h : Within P s) (hc : P c)
    (hrename : ∀ ρ : Symbol → Symbol, P (c.rename ρ)) (htaken : Taken σ c s s') : Within P s' := by
  cases htaken with
  | contradiction hempty =>
    rw [Clause.eq_empty_of_isEmpty hempty] at hc
    exact h.report hc
  | answer => exact h.report hc
  | tautology | duplicate => exact h
  | subsumed => exact h.saw _
  | stored names counter =>
    have hseen := h.saw (c.canonical σ).1
    exact store ⟨hseen.clauses, hseen.pending, hseen.active, hseen.byWeight, hseen.byAge⟩
      (hrename _)

end Within

/-- No inference in a table that extends `σ` leads out of the property, nor does
the choice of other variables. -/
structure Deductive (σ : Symbols) (P : Clause → Prop) : Prop where
  rename : ∀ c (ρ : Symbol → Symbol), P c → P (c.rename ρ)
  unary : ∀ τ, σ ≤ τ → ∀ c, P c → ∀ e ∈ unaryConsequences τ c, P e
  resolvents : ∀ τ, σ ≤ τ → ∀ c d, P c → P d → ∀ e ∈ c.resolvents τ d, P e
  paramodulants : ∀ τ, σ ≤ τ → ∀ c d, P c → P d → ∀ e ∈ c.paramodulants τ d, P e

/-- Truth in an interpretation is such a property. -/
theorem deductive_trueIn {D : Type u} (I : Interpretation D) (σ : Symbols) :
    Deductive σ (Clause.TrueIn I) where
  rename _ ρ hc := hc.mapTerms_subst fun x => .var (ρ x)
  unary _ _ _ hc _ he := (List.mem_append.mp he).elim (Clause.trueIn_of_mem_factors hc)
    (Clause.trueIn_of_mem_equalityResolvents hc)
  resolvents _ _ _ _ hc hd _ := Clause.trueIn_of_mem_resolvents hc hd
  paramodulants _ _ _ _ hc hd _ := Clause.trueIn_of_mem_paramodulants hc hd

namespace Within

variable {P : Clause → Prop} {σ : Symbols}

theorem insert (hP : Deductive σ P) (h : Within P s) (hc : P c) (t : Session) :
    Within P (insert c s t).1 :=
  h.of_taken hc (fun ρ => hP.rename c ρ hc) (taken_insert c s t)

theorem insertAll (hP : Deductive σ P) {cs : List Clause} (h : Within P s) (hcs : ∀ c ∈ cs, P c)
    (t : Session) : Within P (insertAll cs s t).1 := by
  induction cs generalizing s t with
  | nil => exact h
  | cons c cs ih =>
    have hhead := h.insert hP (hcs c List.mem_cons_self) t
    exact ih hhead (fun d hd => hcs d (List.mem_cons_of_mem c hd)) _

theorem start (hP : Deductive σ P) {cs : List Clause} (hcs : ∀ c ∈ cs, P c) (limits : Limits)
    (t : Session) : Within P (start cs limits t).1 :=
  (init P limits).insertAll hP hcs t

/-- The clause that is selected next is a stored one. -/
theorem pick (h : Within P s) {id : Nat} (hpick : s.pick = some (id, s')) :
    id < s'.clauses.size ∧ Within P s' := by
  unfold Saturation.pick at hpick
  dsimp only at hpick
  split at hpick
  · obtain ⟨oldest, hmin, heq⟩ := Option.map_eq_some_iff.mp hpick
    cases heq
    have hmem := (Std.TreeSet.min?_eq_some_iff_mem_and_forall.mp hmin).1
    exact ⟨h.byAge _ hmem, h.clauses, h.pending, h.active,
      fun p hp => h.byWeight p (Std.TreeSet.mem_of_mem_erase hp),
      fun n hn => h.byAge n (Std.TreeSet.mem_of_mem_erase hn)⟩
  · obtain ⟨⟨weight, lightest⟩, hmin, heq⟩ := Option.map_eq_some_iff.mp hpick
    cases heq
    have hmem := (Std.TreeSet.min?_eq_some_iff_mem_and_forall.mp hmin).1
    exact ⟨h.byWeight _ hmem, h.clauses, h.pending, h.active,
      fun p hp => h.byWeight p (Std.TreeSet.mem_of_mem_erase hp),
      fun n hn => h.byAge n (Std.TreeSet.mem_of_mem_erase hn)⟩

theorem renameApart (h : Within P s) (c : Clause) (t : Session) :
    Within P (renameApart c s t).1.2 :=
  ⟨h.clauses, h.pending, h.active, h.byWeight, h.byAge⟩

theorem push (h : Within P s) {id : Nat} (hid : id < s.clauses.size) :
    Within P { s with active := s.active.push id, iterations := s.iterations + 1 } where
  clauses := h.clauses
  pending := h.pending
  active n hn := by
    rcases Array.mem_push.mp hn with hn | rfl
    · exact h.active n hn
    · exact hid
  byWeight := h.byWeight
  byAge := h.byAge

theorem consequences (hP : Deductive σ P) (hσ : σ ≤ t.symbols) (h : Within P s) (hc : P c)
    {e : Clause} (he : e ∈ s.active.toList.flatMap fun other =>
      consequences t.symbols c (s.clause other)) : P e := by
  obtain ⟨other, hother, he⟩ := List.mem_flatMap.mp he
  have hd := h.clause (h.active other (Array.mem_toList_iff.mp hother))
  rcases List.mem_append.mp he with he | he
  · rcases List.mem_append.mp he with he | he
    · exact hP.resolvents _ hσ _ _ hc hd e he
    · exact hP.paramodulants _ hσ _ _ hc hd e he
  · exact hP.paramodulants _ hσ _ _ hd hc e he

theorem activate (hP : Deductive σ P) (hσ : σ ≤ t.symbols) (h : Within P s) {id : Nat}
    (hid : id < s.clauses.size) : Within P (activate id s t).1 := by
  have hgiven := h.clause hid
  -- The table in which the clause meets its own copy has the names of the copy too.
  let r := Saturation.renameApart (s.clause id)
    { s with active := s.active.push id, iterations := s.iterations + 1 }
    (note (.given id (s.clause id)) t).2
  have hr : σ ≤ r.2.symbols := le_trans hσ (grows_renameApart _ _ _)
  refine insertAll hP ((h.push hid).renameApart (s.clause id) _) (fun e he => ?_) r.2
  rcases List.mem_append.mp he with he | he
  · rcases List.mem_append.mp he with he | he
    · exact hP.unary _ hσ _ hgiven e he
    · exact h.consequences hP hσ hgiven he
  · have hcopy : P r.1.1 := hP.rename (s.clause id) _ hgiven
    rcases List.mem_append.mp he with he | he
    · exact hP.resolvents _ hr _ _ hgiven hcopy e he
    · exact hP.paramodulants _ hr _ _ hgiven hcopy e he

end Within

theorem grows_activate (id : Nat) (s : Saturation) : Grows (activate id s) :=
  (grows_note _).bind fun _ => grows_get.bind fun _ => (grows_renameApart _ _).bind fun _ =>
    grows_get.bind fun _ => grows_insertAll _ _

theorem grows_select (s : Saturation) : Grows (select s) := by
  unfold select
  split
  · exact grows_pure _
  · exact (grows_activate _ _).bind fun _ => grows_pure _

theorem Within.select {P : Clause → Prop} {σ : Symbols} (hP : Deductive σ P)
    (hσ : σ ≤ t.symbols) (h : Within P s) (hselect : (select s t).1 = some s') : Within P s' := by
  unfold Saturation.select at hselect
  cases hpick : s.pick with
  | none =>
    rw [hpick] at hselect
    cases hselect
  | some picked =>
    obtain ⟨hid, hpicked⟩ := h.pick hpick
    rw [hpick] at hselect
    cases hselect
    exact hpicked.activate hP hσ hid

section Pursuit

variable {β γ : Type} {listen : β → Clause → SessionM (β × Option γ)} {b b' : β}
  {rest : List Finding}

theorem grows_drain (hlisten : ∀ b c, Grows (listen b c)) (fs : List Finding) (b : β) :
    Grows (drain listen fs b) := by
  induction fs generalizing b with
  | nil => exact grows_pure _
  | cons f fs ih =>
    cases f with
    | contradiction => exact grows_pure _
    | answer c =>
      refine (hlisten b c).bind fun a => ?_
      obtain ⟨b, stop⟩ := a
      cases stop with
      | none => exact ih b
      | some g => exact grows_pure _

theorem le_of_drain (hlisten : ∀ b c, Grows (listen b c)) {fs : List Finding} {t' : Session}
    {x : Option (Report γ) × List Finding × β} (h : drain listen fs b t = (x, t')) :
    t.symbols ≤ t'.symbols := by
  have hgrows := grows_drain hlisten fs b t
  rwa [h] at hgrows

theorem drain_answer_of_none {c : Clause} {fs : List Finding} (h : (listen b c t).1.2 = none) :
    drain listen (.answer c :: fs) b t = drain listen fs (listen b c t).1.1 (listen b c t).2 := by
  rw [drain, bind_apply]
  simp only [h]

theorem drain_answer_of_some {c : Clause} {fs : List Finding} {g : γ}
    (h : (listen b c t).1.2 = some g) :
    drain listen (.answer c :: fs) b t =
      ((some (.found g), fs, (listen b c t).1.1), (listen b c t).2) := by
  rw [drain, bind_apply]
  simp only [h]
  rfl

/-- Listening leaves a part of the findings, nothing if it is not interrupted, and it is
ended by a contradiction only. -/
theorem drain_subset (listen : β → Clause → SessionM (β × Option γ)) (fs : List Finding) (b : β)
    (t : Session) :
    (∀ f ∈ (drain listen fs b t).1.2.1, f ∈ fs) ∧
    ((drain listen fs b t).1.1 = none → (drain listen fs b t).1.2.1 = []) ∧
    ∀ e, (drain listen fs b t).1.1 = some (.ended e) →
      e = .contradiction ∧ .contradiction ∈ fs := by
  induction fs generalizing b t with
  | nil => exact ⟨fun f hf => hf, fun _ => rfl, nofun⟩
  | cons f fs ih =>
    cases f with
    | contradiction =>
      refine ⟨fun f hf => List.mem_cons_of_mem _ hf, nofun, ?_⟩
      rintro e ⟨⟩
      exact ⟨rfl, List.mem_cons_self⟩
    | answer c =>
      cases hstop : (listen b c t).1.2 with
      | none =>
        obtain ⟨hrest, hnone, hend⟩ := ih (listen b c t).1.1 (listen b c t).2
        rw [drain_answer_of_none hstop]
        refine ⟨fun f hf => List.mem_cons_of_mem _ (hrest f hf), hnone, fun e he => ?_⟩
        exact (hend e he).imp_right (List.mem_cons_of_mem _)
      | some g =>
        rw [drain_answer_of_some hstop]
        exact ⟨fun f hf => List.mem_cons_of_mem _ hf, nofun, nofun⟩

theorem eq_nil_of_drain {fs : List Finding} {t' : Session}
    (h : drain listen fs b t = ((none, rest, b'), t')) : rest = [] := by
  have hnone := (drain_subset listen fs b t).2.1
  rw [h] at hnone
  exact hnone rfl

theorem eq_contradiction_of_drain {fs : List Finding} {t' : Session} {e : Ending}
    (h : drain listen fs b t = ((some (.ended e), rest, b'), t')) : e = .contradiction :=
  ((drain_subset listen fs b t).2.2 e (congrArg (·.1.1) h)).1

/-- How a search goes on: it is interrupted by what was pending, it has reached its
limits, nothing is left to select, or it makes a selection and goes on. -/
inductive Pursuit (listen : β → Clause → SessionM (β × Option γ)) :
    Nat → Saturation → β → Session → (Report γ × Saturation × β) × Session → Prop
  | report {n s b t r rest b' t'}
      (hdrain : drain listen s.pending b t = ((some r, rest, b'), t')) :
    Pursuit listen n s b t ((r, { s with pending := rest }, b'), t')
  | exhausted {s b t b' t'} (hdrain : drain listen s.pending b t = ((none, [], b'), t')) :
    Pursuit listen 0 s b t ((.ended .exhausted, { s with pending := [] }, b'), t')
  | timedOut {n s b t b' t'} (hdrain : drain listen s.pending b t = ((none, [], b'), t'))
      (htime : isTimedOut { s with pending := [] } t'.clock = true) :
    Pursuit listen (n + 1) s b t ((.ended .exhausted, { s with pending := [] }, b'), t')
  | saturated {n s b t b' t'} (hdrain : drain listen s.pending b t = ((none, [], b'), t'))
      (htime : ¬ isTimedOut { s with pending := [] } t'.clock = true)
      (hselect : (select { s with pending := [] } t').1 = none) :
    Pursuit listen (n + 1) s b t
      ((.ended .saturated, { s with pending := [] }, b'), (select { s with pending := [] } t').2)
  | selected {n s b t b' t' s' r} (hdrain : drain listen s.pending b t = ((none, [], b'), t'))
      (htime : ¬ isTimedOut { s with pending := [] } t'.clock = true)
      (hselect : (select { s with pending := [] } t').1 = some s')
      (hrest : Pursuit listen n s' b' (select { s with pending := [] } t').2 r) :
    Pursuit listen (n + 1) s b t r

theorem Pursuit.eq {n : Nat} {r : (Report γ × Saturation × β) × Session}
    (h : Pursuit listen n s b t r) : pursueFor listen n s b t = r := by
  induction h with
  | report hdrain =>
    unfold pursueFor
    rw [bind_apply, hdrain]
    rfl
  | exhausted hdrain =>
    rw [pursueFor, bind_apply, hdrain]
    rfl
  | timedOut hdrain htime =>
    rw [pursueFor, bind_apply, hdrain]
    dsimp only
    rw [bind_apply, get_apply, if_apply, if_pos htime]
    rfl
  | saturated hdrain htime hselect =>
    rw [pursueFor, bind_apply, hdrain]
    dsimp only
    rw [bind_apply, get_apply, if_apply, if_neg htime, bind_apply]
    simp only [hselect]
    rfl
  | selected hdrain htime hselect _ ih =>
    rw [pursueFor, bind_apply, hdrain]
    dsimp only
    rw [bind_apply, get_apply, if_apply, if_neg htime, bind_apply]
    simp only [hselect]
    exact ih

theorem pursuit (listen : β → Clause → SessionM (β × Option γ)) (n : Nat) (s : Saturation) (b : β)
    (t : Session) : Pursuit listen n s b t (pursueFor listen n s b t) := by
  suffices h : ∃ r, Pursuit listen n s b t r by
    obtain ⟨r, hr⟩ := h
    rwa [hr.eq]
  induction n generalizing s b t with
  | zero =>
    rcases hdrain : drain listen s.pending b t with ⟨⟨_ | r, rest, b'⟩, t'⟩
    · obtain rfl := eq_nil_of_drain hdrain
      exact ⟨_, .exhausted hdrain⟩
    · exact ⟨_, .report hdrain⟩
  | succ n ih =>
    rcases hdrain : drain listen s.pending b t with ⟨⟨_ | r, rest, b'⟩, t'⟩
    · obtain rfl := eq_nil_of_drain hdrain
      by_cases htime : isTimedOut { s with pending := [] } t'.clock = true
      · exact ⟨_, .timedOut hdrain htime⟩
      cases hselect : (select { s with pending := [] } t').1 with
      | none => exact ⟨_, .saturated hdrain htime hselect⟩
      | some s' =>
        obtain ⟨r, hr⟩ := ih s' b' (select { s with pending := [] } t').2
        exact ⟨r, .selected hdrain htime hselect hr⟩
    · exact ⟨_, .report hdrain⟩

theorem grows_pursueFor (hlisten : ∀ b c, Grows (listen b c)) (n : Nat) (s : Saturation) (b : β) :
    Grows (pursueFor listen n s b) := by
  induction n generalizing s b with
  | zero =>
    rw [pursueFor]
    refine (grows_drain hlisten s.pending b).bind fun a => ?_
    obtain ⟨report, rest, b⟩ := a
    cases report with
    | none => exact grows_pure _
    | some r => exact grows_pure _
  | succ n ih =>
    rw [pursueFor]
    refine (grows_drain hlisten s.pending b).bind fun a => ?_
    obtain ⟨report, rest, b⟩ := a
    cases report with
    | none =>
      refine grows_get.bind fun _ => grows_ite (grows_pure _) ((grows_select _).bind fun next => ?_)
      cases next with
      | none => exact grows_pure _
      | some s' => exact ih s' b
    | some r => exact grows_pure _

theorem Pursuit.le (hlisten : ∀ b c, Grows (listen b c)) {n : Nat}
    {r : (Report γ × Saturation × β) × Session} (h : Pursuit listen n s b t r) :
    t.symbols ≤ r.2.symbols := by
  rw [← h.eq]
  exact grows_pursueFor hlisten n s b t

variable {P : Clause → Prop} {σ : Symbols}

/-- What is left of the findings, and the contradiction among those reported. -/
theorem Within.drain (h : Within P s) {report : Option (Report γ)}
    (hdrain : (drain listen s.pending b t).1 = (report, rest, b')) :
    Within P { s with pending := rest } ∧
      (report = some (.ended .contradiction) → P .empty) := by
  obtain ⟨hrest, -, hend⟩ := drain_subset listen s.pending b t
  rw [hdrain] at hrest hend
  constructor
  · exact ⟨h.clauses, fun f hf => h.pending f (hrest f hf), h.active, h.byWeight, h.byAge⟩
  · intro hreport
    exact h.pending _ (hend .contradiction hreport).2

theorem Within.pursueFor (hP : Deductive σ P) (hlisten : ∀ b c, Grows (listen b c))
    (hσ : σ ≤ t.symbols) (h : Within P s) (n : Nat) (b : β) :
    Within P (pursueFor listen n s b t).1.2.1 ∧
      ((pursueFor listen n s b t).1.1 = .ended .contradiction → P .empty) := by
  have hrun := pursuit listen n s b t
  generalize Saturation.pursueFor listen n s b t = r at hrun ⊢
  induction hrun with
  | report hdrain =>
    exact (h.drain (congrArg Prod.fst hdrain)).imp_right fun hr heq => hr (congrArg some heq)
  | exhausted hdrain | timedOut hdrain _ | saturated hdrain _ _ =>
    exact ⟨(h.drain (congrArg Prod.fst hdrain)).1, nofun⟩
  | selected hdrain _ hselect _ ih =>
    have ht := hσ.trans (le_of_drain hlisten hdrain)
    exact ih (ht.trans (grows_select _ _))
      ((h.drain (congrArg Prod.fst hdrain)).1.select hP ht hselect)

end Pursuit

end Saturation

end Entailment
