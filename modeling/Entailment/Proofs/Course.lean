import Entailment.Proofs.Closure

/-! The course of a search. Whatever a search is asked to do, and whatever happens to
the table of names in between, its clauses stay numbered, tell nothing that is known
without them, and share no variables; so the premises of an inference share none
either. -/
namespace Entailment

open SessionM

namespace Clause

variable {c : Clause} {ρ : Symbol → Symbol}

theorem isTautology_of_rename (hc : c.Normal) (hρ : c.KeepsApart ρ)
    (h : (c.rename ρ).isTautology = true) : c.isTautology = true := by
  obtain ⟨η, hη⟩ := exists_under_rename hc hρ
  rw [← hη]
  exact isTautology_under (normal_rename ρ c) h η

theorem isAnswer_of_rename {σ : Symbols} (hc : c.Normal) (hρ : c.KeepsApart ρ)
    (h : (c.rename ρ).isAnswer σ = true) : c.isAnswer σ = true := by
  obtain ⟨η, hη⟩ := exists_under_rename hc hρ
  rw [← hη]
  exact isAnswer_under h η

end Clause

namespace Saturation

variable {P : Clause → Prop} {σ τ : Symbols} {cs : List Clause} {c : Clause} {s s' : Saturation}
  {t t' : Session} {limits : Limits}

/-- What can happen to a search in its session: it goes on to its next report, or by
one selection on the way there, or other computations add names. -/
inductive Step : Saturation × Session → Saturation × Session → Prop
  | next (s : Saturation) (t : Session) : Step (s, t) ((s.next t).1.2, (s.next t).2)
  | selection {s s' : Saturation} {t : Session} (hpending : s.pending = [])
      (hselect : (select s t).1 = some s') : Step (s, t) (s', (select s t).2)
  | elsewhere {s : Saturation} {t t' : Session} (hnames : t.symbols ≤ t'.symbols) :
      Step (s, t) (s, t')

/-- A search and its session some time later. -/
abbrev Steps : Saturation × Session → Saturation × Session → Prop := Relation.ReflTransGen Step

/-- What no step of a search can change: neither names that are added, nor findings
that are reported, nor a selection. -/
structure Steady (Inv : Symbols → Saturation → Prop) : Prop where
  mono : ∀ {σ τ s}, σ ≤ τ → Inv σ s → Inv τ s
  heard : ∀ {σ s rest}, Inv σ s → (∀ f ∈ rest, f ∈ s.pending) → Inv σ { s with pending := rest }
  select : ∀ {s s' t}, Inv t.symbols s → (select s t).1 = some s' → Inv (select s t).2.symbols s'

namespace Steady

variable {Inv : Symbols → Saturation → Prop}

section Pursuit

variable {β γ : Type} {listen : β → Clause → SessionM (β × Option γ)}

theorem drain (hInv : Steady Inv) (hlisten : ∀ b c, Grows (listen b c)) (h : Inv t.symbols s)
    {report : Option (Report γ)} {rest : List Finding} {b b' : β}
    (hdrain : drain listen s.pending b t = ((report, rest, b'), t')) :
    Inv t'.symbols { s with pending := rest } := by
  have hrest := (drain_subset listen s.pending b t).1
  rw [hdrain] at hrest
  exact hInv.heard (hInv.mono (le_of_drain hlisten hdrain) h) hrest

theorem pursueFor (hInv : Steady Inv) (hlisten : ∀ b c, Grows (listen b c)) (h : Inv t.symbols s)
    (n : Nat) (b : β) :
    Inv (pursueFor listen n s b t).2.symbols (pursueFor listen n s b t).1.2.1 := by
  have hrun := pursuit listen n s b t
  generalize Saturation.pursueFor listen n s b t = r at hrun ⊢
  induction hrun with
  | report hdrain | exhausted hdrain | timedOut hdrain _ => exact hInv.drain hlisten h hdrain
  | saturated hdrain => exact hInv.mono (grows_select _ _) (hInv.drain hlisten h hdrain)
  | selected hdrain _ hselect _ ih => exact ih (hInv.select (hInv.drain hlisten h hdrain) hselect)

end Pursuit

theorem step (hInv : Steady Inv) (hstep : Step (s, t) (s', t')) (h : Inv t.symbols s) :
    Inv t'.symbols s' := by
  cases hstep with
  | next => exact hInv.pursueFor (fun (_ : Unit) c => grows_pure ((), some c)) h _ ()
  | selection hpending hselect => exact hInv.select h hselect
  | elsewhere hnames => exact hInv.mono hnames h

theorem steps (hInv : Steady Inv) {p p' : Saturation × Session} (hsteps : Steps p p')
    (h : Inv p.2.symbols p.1) : Inv p'.2.symbols p'.1 := by
  induction hsteps with
  | refl => exact h
  | tail _ hstep ih => exact hInv.step hstep ih

end Steady

/-- Clauses are numbered, and selections are counted. -/
structure Coherent (s : Saturation) : Prop extends Indexed s where
  iterations : s.iterations = s.active.size
  picks : s.picks = s.active.size

namespace Coherent

theorem init (limits : Limits) : Coherent (init limits) := ⟨.init limits, rfl, rfl⟩

theorem heard (h : Coherent s) (rest : List Finding) : Coherent { s with pending := rest } :=
  ⟨⟨h.weighed, h.distinct, h.passive, h.listed⟩, h.iterations, h.picks⟩

theorem of_taken (h : Coherent s) (htaken : Taken σ c s s') : Coherent s' := by
  have hindexed := h.toIndexed.of_taken htaken
  cases htaken <;> exact ⟨hindexed, h.iterations, h.picks⟩

theorem insertAll (h : Coherent s) (cs : List Clause) (t : Session) :
    Coherent (insertAll cs s t).1 := by
  induction cs generalizing s t with
  | nil => exact h
  | cons c cs ih => exact ih (h.of_taken (taken_insert c s t)) _

theorem copied (h : Coherent s) {id : Nat} (hid : id ∈ s.byAge) (t : Session) :
    Coherent (copied id s t).1.2 := by
  have hsize : (s.moved id).active.size = s.active.size + 1 := Array.size_push id
  have hiterations : (s.moved id).iterations = s.iterations + 1 := rfl
  have hpicks : (s.moved id).picks = s.picks + 1 := rfl
  obtain ⟨hweighed, hdistinct, hpassive, hlisted⟩ := h.moved hid
  refine ⟨⟨hweighed, hdistinct, hpassive, hlisted⟩, ?_, ?_⟩
  · exact hiterations.trans ((congrArg (· + 1) h.iterations).trans hsize.symm)
  · exact hpicks.trans ((congrArg (· + 1) h.picks).trans hsize.symm)

theorem select (h : Coherent s) (hselect : (select s t).1 = some s') : Coherent s' := by
  obtain ⟨id, hid, -, rfl, -⟩ := exists_of_select h.toIndexed hselect
  exact (h.copied hid t).insertAll _ _

end Coherent

theorem steady_coherent : Steady fun _ s => Coherent s where
  mono _ h := h
  heard h _ := h.heard _
  select h hselect := h.select hselect

theorem coherent_start (cs : List Clause) (limits : Limits) (t : Session) :
    Coherent (start cs limits t).1 :=
  (Coherent.init limits).insertAll cs t

section Telling

/-- A clause that is neither valid nor an answer stays so when it is stored. -/
theorem telling_insert (hP : Tame σ P) (hσ : σ ≤ t.symbols) (hc : P c)
    (hroom : Room P (insert c s t).2.symbols)
    (h : ∀ d ∈ s.clauses, ¬ d.isTautology = true ∧ ¬ d.isAnswer σ = true) :
    ∀ d ∈ (insert c s t).1.clauses, ¬ d.isTautology = true ∧ ¬ d.isAnswer σ = true := by
  have htaken := taken_insert c s t
  generalize (insert c s t).1 = s' at htaken ⊢
  cases htaken with
  | contradiction | tautology | answer | duplicate | subsumed => exact h
  | stored names counter hnames hempty htautology hanswer hnew hsubsumed =>
    rw [symbols_insert_of_stored hempty htautology hanswer hnew hsubsumed] at hroom
    have hapart := (renamedBy_freshNames (hroom c hc)).1
    rw [hnames] at hapart
    rw [Clause.isAnswer_eq_of_le hσ (hP.relations c hc)] at hanswer
    intro d hd
    rcases Array.mem_push.mp hd with hd | rfl
    · exact h d hd
    · exact ⟨fun hd => htautology (Clause.isTautology_of_rename (hP.normal c hc) hapart hd),
        fun hd => hanswer (Clause.isAnswer_of_rename (hP.normal c hc) hapart hd)⟩

theorem telling_insertAll (hP : Tame σ P) (hσ : σ ≤ t.symbols) (hcs : ∀ c ∈ cs, P c)
    (hroom : Room P (insertAll cs s t).2.symbols)
    (h : ∀ d ∈ s.clauses, ¬ d.isTautology = true ∧ ¬ d.isAnswer σ = true) :
    ∀ d ∈ (insertAll cs s t).1.clauses, ¬ d.isTautology = true ∧ ¬ d.isAnswer σ = true := by
  induction cs generalizing s t with
  | nil => exact h
  | cons c cs ih =>
    obtain ⟨hc, hcs⟩ := List.forall_mem_cons.mp hcs
    have hhead : Room P (insert c s t).2.symbols :=
      hroom.of_le (grows_insertAll cs _ (insert c s t).2)
    exact ih (hσ.trans (grows_insert c s t)) hcs hroom (telling_insert hP hσ hc hhead h)

end Telling

/-- The clauses of a search that was started in the table `σ` are kept apart and tell
something, unless names have run out. -/
def Orderly (P : Clause → Prop) (σ τ : Symbols) (s : Saturation) : Prop :=
  σ ≤ τ ∧ (Room P τ → Store P τ s ∧
    ∀ c ∈ s.clauses, ¬ c.isTautology = true ∧ ¬ c.isAnswer σ = true)

theorem orderly_start (hP : Tame t.symbols P) (hcs : ∀ c ∈ cs, P c) (limits : Limits) :
    Orderly P t.symbols (start cs limits t).2.symbols (start cs limits t).1 := by
  refine ⟨grows_insertAll cs _ t, fun hroom => ⟨?_, ?_⟩⟩
  · exact ((Store.init P t.symbols limits).insertAll hP le_rfl hcs hroom).1
  · refine telling_insertAll hP le_rfl hcs hroom fun c hc => ?_
    simp [init] at hc

theorem Orderly.select (hP : Tame σ P) (h : Orderly P σ t.symbols s)
    (hselect : (select s t).1 = some s') : Orderly P σ (select s t).2.symbols s' := by
  refine ⟨h.1.trans (grows_select s t), fun hroom => ?_⟩
  obtain ⟨hstore, htelling⟩ := h.2 (hroom.of_le (grows_select s t))
  obtain ⟨id, hid, -, rfl, hsession⟩ := exists_of_select hstore.indexed hselect
  rw [hsession] at hroom ⊢
  have hle := h.1.trans (le_copied id s t)
  have hharvest := hP.harvest h.1 hstore.toWithin (hstore.byAge id hid)
  exact ⟨((hstore.copied hid).insertAll hP hle hharvest hroom).1,
    telling_insertAll hP hle hharvest hroom htelling⟩

theorem steady_orderly (hP : Tame σ P) : Steady (Orderly P σ) where
  mono hle h := ⟨h.1.trans hle, fun hroom => (h.2 (hroom.of_le hle)).imp_left (·.mono hle)⟩
  heard h hrest := ⟨h.1, fun hroom => (h.2 hroom).imp_left (·.drained hrest)⟩
  select h hselect := h.select hP hselect

/-- Stored clauses tell something, and no two of them share a variable. -/
structure Telling (σ : Symbols) (s : Saturation) : Prop where
  nonempty : ∀ c ∈ s.clauses, ¬ c.isEmpty = true
  tautology : ∀ c ∈ s.clauses, ¬ c.isTautology = true
  answer : ∀ c ∈ s.clauses, ¬ c.isAnswer σ = true
  apart : ∀ i < s.clauses.size, ∀ j < s.clauses.size, i ≠ j →
    (s.clause i).vars.Disjoint (s.clause j).vars

theorem exists_clause_eq (hc : c ∈ s.clauses) : ∃ id < s.clauses.size, s.clause id = c := by
  obtain ⟨id, hid, rfl⟩ := Array.mem_iff_getElem.mp hc
  refine ⟨id, hid, ?_⟩
  rw [clause, Array.getD_eq_getD_getElem?, Array.getElem?_eq_getElem hid]
  rfl

theorem Orderly.telling (hP : Tame σ P) (h : Orderly P σ τ s) (hroom : Room P τ) :
    Telling τ s := by
  obtain ⟨hstore, htelling⟩ := h.2 hroom
  refine ⟨fun c hc => ?_, fun c hc => (htelling c hc).1, fun c hc => ?_, ?_⟩
  · obtain ⟨id, hid, rfl⟩ := exists_clause_eq hc
    exact hstore.nonempty id hid
  · rw [Clause.isAnswer_eq_of_le h.1 (hP.relations c (hstore.clauses c hc))]
    exact (htelling c hc).2
  · intro i hi j hj hne x hx hx'
    exact hne (hstore.apart i hi j hj x hx hx')

/-- A clause shares no variable with the copy of itself that it is combined with. -/
theorem Store.disjoint_copied (h : Store P t.symbols s) {id : Nat} (hid : id < s.clauses.size)
    (hroom : Room P (Saturation.copied id s t).2.symbols) :
    (s.clause id).vars.Disjoint (Saturation.copied id s t).1.1.vars := by
  obtain ⟨ρ, hρ, heq⟩ := h.copy_copied hid hroom
  rw [heq]
  intro y hy hcopy
  obtain ⟨x, hx, rfl⟩ := Clause.mem_vars_rename.mp hcopy
  exact hρ.new x hx hy

/-- Searches from sorted clauses are coherent at every point of their course, and as
long as there are names left, their clauses tell something and share no variables. In
particular, the clause that is selected next shares none with the clauses it is combined
with: the active ones and a copy of itself. -/
theorem coherent_of_steps {lss : List (List Literal)} {t₀ : Session}
    (hordered : ∀ ls ∈ lss, ∀ l ∈ ls, l.atom.Ordered)
    (hknown : ∀ ls ∈ lss, ∀ l ∈ ls, ∀ a ∈ l.atom.symbols, t₀.symbols.Knows a)
    (hsteps : Steps (start (lss.map .ofList) limits t₀) (s, t)) :
    Coherent s ∧ (t.symbols.size < UInt32.size → Telling t.symbols s ∧
      ∀ id s₁, s.pick = some (id, s₁) →
        (∀ other ∈ s.active, (s.clause id).vars.Disjoint (s.clause other).vars) ∧
        ((copied id s t).2.symbols.size < UInt32.size →
          (s.clause id).vars.Disjoint (copied id s t).1.1.vars)) := by
  have hP := tame_relationsIn t₀.symbols
  have hcs : ∀ c ∈ lss.map Clause.ofList,
      c.Normal ∧ ∀ l ∈ c.literals, l.atom.RelationIn t₀.symbols := by
    intro c hc
    obtain ⟨ls, hls, rfl⟩ := List.mem_map.mp hc
    refine ⟨Clause.normal_ofList (hordered ls hls), fun l hl => ?_⟩
    exact Atom.relationIn_of_symbols (hknown ls hls l (Clause.mem_ofList.mp hl))
  have hcoherent : Coherent s := steady_coherent.steps hsteps (coherent_start _ limits t₀)
  have horderly := (steady_orderly hP).steps hsteps (orderly_start hP hcs limits)
  refine ⟨hcoherent, fun hsize => ?_⟩
  have hroom : Room (fun c => c.Normal ∧ ∀ l ∈ c.literals, l.atom.RelationIn t₀.symbols)
      t.symbols := fun _ _ => .inr hsize
  have htelling := horderly.telling hP hroom
  refine ⟨htelling, fun id s₁ hpick => ?_⟩
  have hid := (hcoherent.pick_eq hpick).1
  have hlt := hcoherent.lt_of_byAge hid
  constructor
  · intro other hother
    apply htelling.apart id hlt other (hcoherent.lt_of_active hother)
    rintro rfl
    exact hcoherent.passive id hid hother
  · exact fun hsize => (horderly.2 hroom).1.disjoint_copied hlt fun _ _ => .inr hsize

theorem Lightest.step {weight id : Nat} (h : s.Lightest weight id) (t : Session) :
    Step (s, t) (activate id (s.taken weight id) t) := by
  have hselect := select_of_pick (t := t) h.pick
  have hstep := Step.selection h.1 (congrArg Prod.fst hselect)
  rwa [hselect] at hstep

theorem Lightest.pursueFor {β γ : Type} {listen : β → Clause → SessionM (β × Option γ)}
    {weight id : Nat} (h : s.Lightest weight id) (n : Nat) (b : β) (t : Session) :
    Saturation.pursueFor listen (n + 1) s b t =
      Saturation.pursueFor listen n (activate id (s.taken weight id) t).1 b
        (activate id (s.taken weight id) t).2 := by
  have hpending : s.pending = [] := h.1
  have htimeout : s.limits.timeout = none := h.2.1
  have hdrain : drain listen s.pending b t = ((none, [], b), t) := by
    rw [hpending]
    rfl
  have hs : { s with pending := [] } = s := by rw [← hpending]
  have hselect : (select { s with pending := [] } t).1 =
      some (activate id (s.taken weight id) t).1 := by rw [hs, select_of_pick h.pick]
  refine (Pursuit.selected hdrain ?_ hselect ?_).eq
  · simp [isTimedOut, htimeout]
  · rw [hs, select_of_pick h.pick]
    exact pursuit listen n _ b _

/-- The clauses `P(x)` and `¬P(x) ∨ Q(f(x))`, where `P`, `Q`, `f` and `x` are the first
names. -/
def chainInput : List (List Literal) :=
  [[⟨.rel ⟨0⟩ [.var ⟨3⟩], false⟩],
    [⟨.rel ⟨0⟩ [.var ⟨3⟩], true⟩, ⟨.rel ⟨1⟩ [.app ⟨2⟩ [.var ⟨3⟩]], false⟩]]

def chainStart : Saturation × Session :=
  start (chainInput.map .ofList) ⟨some 20, none⟩ (.knowing ["P", "Q", "f", "x"])

/-- The search after its first selection, of `P(x)`, and after its second one. -/
def chainFirst : Saturation × Session := activate 0 (chainStart.1.taken 3 0) chainStart.2

def chainSecond : Saturation × Session := activate 1 (chainFirst.1.taken 7 1) chainFirst.2

/-- After two selections, `Q(f(x))` has been stored with a variable of its own. -/
theorem coherent_of_steps_chain :
    chainSecond.1.active = #[0, 1] ∧ chainSecond.1.clauses.size = 3 ∧ Coherent chainSecond.1 ∧
      Telling chainSecond.2.symbols chainSecond.1 ∧
      (chainSecond.1.clause 2).vars.Disjoint (chainSecond.1.clause 1).vars := by
  have hordered : ∀ ls ∈ chainInput, ∀ l ∈ ls, l.atom.Ordered := by
    simp [chainInput, Atom.Ordered]
  have hstart : chainStart.1.Lightest 3 0 := by decide +kernel
  have hfirst : chainFirst.1.Lightest 7 1 := by decide +kernel
  obtain ⟨hactive, hclauses, hsecond, hsize⟩ : chainSecond.1.active = #[0, 1] ∧
      chainSecond.1.clauses.size = 3 ∧ chainSecond.1.Lightest 4 2 ∧
      chainSecond.2.symbols.size < UInt32.size := by decide +kernel
  have hsteps : Steps chainStart chainSecond :=
    (Relation.ReflTransGen.single (hstart.step _)).tail (hfirst.step _)
  obtain ⟨hcoherent, hnames⟩ :=
    coherent_of_steps (s := chainSecond.1) (t := chainSecond.2) hordered (by decide) hsteps
  obtain ⟨htelling, hpremises⟩ := hnames hsize
  refine ⟨hactive, hclauses, hcoherent, htelling, ?_⟩
  apply (hpremises 2 _ hsecond.pick).1
  simp [hactive]

end Saturation

end Entailment
