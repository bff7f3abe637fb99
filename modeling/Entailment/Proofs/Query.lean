import Entailment.Proofs.AnswerLiteral
import Entailment.Proofs.Enumeration

/-! Soundness of queries. The listener of a query only ever hears clauses that tell
values for which the goal holds, and this is kept along every run, however it is
interrupted. -/
namespace Entailment

universe u

open SessionM Saturation

namespace Query

theorem receive_of_new {n : Nat} {a : Answers} {c : Clause} {args : List Term} (t : Session)
    (hterms : Answers.terms? n c = some args) (hnew : a.bindings.contains args = false) :
    a.receive n c t =
      (({ a with bindings := a.bindings.insert args }, some args), (note (.answer c) t).2) := by
  simp only [Answers.receive, hterms, if_apply, hnew]
  rfl

/-- A new answer that is pending is reported at once. -/
theorem pursueFor_of_answer {s : Saturation} {k : Nat} {a : Answers} {c : Clause} {args : List Term}
    {rest : List Finding} (n : Nat) (t : Session) (hpending : s.pending = .answer c :: rest)
    (hterms : Answers.terms? k c = some args) (hnew : a.bindings.contains args = false) :
    pursueFor (Answers.receive k) n s a t =
      ((.found args, { s with pending := rest }, { a with bindings := a.bindings.insert args }),
        (note (.answer c) t).2) := by
  have hreceive := receive_of_new t hterms hnew
  have hdrain : drain (Answers.receive k) (.answer c :: rest) a t = _ :=
    drain_answer_of_some (congrArg (·.1.2) hreceive)
  rw [← hpending, hreceive] at hdrain
  exact (Pursuit.report hdrain).eq

theorem terms?_of_receive {n : Nat} {a : Answers} {c : Clause} {args : List Term} {t : Session}
    (h : (a.receive n c t).1.2 = some args) : Answers.terms? n c = some args := by
  cases hterms : Answers.terms? n c with
  | none =>
    simp only [Answers.receive, hterms] at h
    cases h
  | some found =>
    cases hnew : a.bindings.contains found with
    | true =>
      simp only [Answers.receive, hterms, if_apply, hnew] at h
      cases h
    | false =>
      rw [receive_of_new t hterms hnew] at h
      exact h

/-- A search with this invariant tells clauses of `R` only, each of which is evidence
for `G` and, unless it is disjunctive, for `B` of its binding. -/
structure Evidence (Inv : Symbols → Saturation → Prop) (R : Clause → Prop) (xs : List Symbol)
    (B : Substitution → Prop) (G : Prop) : Prop where
  invariant : Invariant Inv
  tells : Tells Inv R False
  goal : ∀ c, R c → G
  binding : ∀ c args, R c → Answers.terms? xs.length c = some args → B (.ofList (xs.zip args))

/-- The search keeps its invariant, and with an answer or a proof `G` is true. -/
structure Sound (Inv : Symbols → Saturation → Prop) (xs : List Symbol) (G : Prop) (q : Query)
    (σ : Symbols) : Prop where
  vars : q.vars = xs
  search : ∀ s, q.saturation = some s → Inv σ s
  answers : q.answers.isEmpty = false → G
  outcome : q.outcome = some .entailed → G

section Soundness

variable {Inv : Symbols → Saturation → Prop} {R : Clause → Prop} {xs : List Symbol}
  {B : Substitution → Prop} {G : Prop} {q : Query} {t : Session}

theorem hears_receive (h : Evidence Inv R xs B G) :
    Hears (Answers.receive xs.length) R (fun a => a.isEmpty = false → G)
      fun _ args => B (.ofList (xs.zip args)) :=
  fun _ c _ _ hc =>
    ⟨fun _ => h.goal c hc, fun args hargs => h.binding c args hc (terms?_of_receive hargs)⟩

theorem of_finalOutcome {e : Ending} {a : Answers} (he : e ≠ .contradiction)
    (ha : a.isEmpty = false → G) (h : finalOutcome e a = .entailed) : G := by
  unfold finalOutcome at h
  split at h
  · exact absurd (Ending.eq_contradiction_of_outcome h) he
  · rename_i hempty
    exact ha (Bool.not_eq_true _ ▸ hempty)

theorem lastBinding_of_ne {e : Ending} (he : e ≠ .contradiction) : lastBinding e = [] := by
  cases e with
  | contradiction => exact absurd rfl he
  | saturated | exhausted => rfl

namespace Sound

theorem mono {σ τ : Symbols} (h : Sound Inv xs G q σ) (hInv : Invariant Inv) (hle : σ ≤ τ) :
    Sound Inv xs G q τ :=
  { h with search := fun s hs => hInv.mono hle (h.search s hs) }

theorem ended {σ τ : Symbols} (h : Sound Inv xs G q σ) {e : Ending} {a : Answers}
    (he : e ≠ .contradiction) (ha : a.isEmpty = false → G) : Sound Inv xs G (q.ended e a) τ where
  vars := h.vars
  search := nofun
  answers := ha
  outcome hout := of_finalOutcome he ha (Option.some.inj hout)

theorem next (h : Evidence Inv R xs B G) (hq : Sound Inv xs G q t.symbols)
    (hsize : (q.next t).2.symbols.size < UInt32.size) :
    Sound Inv xs G (q.next t).1.2 (q.next t).2.symbols ∧ ∀ b, (q.next t).1.1 = some b → B b := by
  cases hs : q.saturation with
  | none =>
    rw [next_of_none hs]
    exact ⟨hq, nofun⟩
  | some s =>
    have hpursue := fun hsize => (hears_receive h).pursueFor h.invariant h.tells (grows_receive _)
      (hq.search s hs) (s.remaining t.horizon) hq.answers hsize
    have hkept := h.invariant.pursueFor (grows_receive xs.length) (hq.search s hs)
      (s.remaining t.horizon) q.answers
    rw [← hq.vars] at hpursue hkept
    rcases hrun : s.pursue (Answers.receive q.vars.length) q.answers t with ⟨⟨report, s', a⟩, t'⟩
    rw [← pursue_eq, hrun] at hpursue hkept
    cases report with
    | found args =>
      rw [next_of_found hs hrun] at hsize ⊢
      obtain ⟨hgood, hyield⟩ := hpursue hsize
      refine ⟨⟨hq.vars, ?_, hgood, hq.outcome⟩, ?_⟩
      · rintro _ ⟨⟩
        exact (hkept nofun).1
      · rintro _ ⟨⟩
        exact hyield
    | ended e =>
      rw [next_of_ended hs hrun] at hsize ⊢
      obtain ⟨hgood, hend⟩ := hpursue hsize
      rw [lastBinding_of_ne hend]
      exact ⟨hq.ended hend hgood, nofun⟩

end Sound

end Soundness

/-- Soundness is kept along a run in which names do not run out. -/
theorem Run.sound {Inv : Symbols → Saturation → Prop} {R : Clause → Prop} {xs : List Symbol}
    {B : Substitution → Prop} {G : Prop} {q₀ q : Query} {t₀ t : Session} {bs : List Substitution}
    (h : Evidence Inv R xs B G) (hrun : Run q₀ t₀ q t bs) (hstart : Sound Inv xs G q₀ t₀.symbols)
    (hsize : t.symbols.size < UInt32.size) : Sound Inv xs G q t.symbols ∧ ∀ b ∈ bs, B b := by
  refine Run.induction (motive := fun q t bs => t.symbols.size < UInt32.size →
    Sound Inv xs G q t.symbols ∧ ∀ b ∈ bs, B b) (fun _ => ⟨hstart, nofun⟩) ?_ ?_ hrun hsize
  · intro q t bs t' ih hle hsize
    obtain ⟨hsound, hbs⟩ := ih ((Symbols.size_le hle).trans_lt hsize)
    exact ⟨hsound.mono h.invariant hle, hbs⟩
  · intro q t bs ih hsize
    obtain ⟨hsound, hbs⟩ := ih ((Symbols.size_le (grows_next q t)).trans_lt hsize)
    obtain ⟨hnext, hb⟩ := hsound.next h hsize
    refine ⟨hnext, List.forall_mem_append.mpr ⟨hbs, fun b hmem => ?_⟩⟩
    exact hb b (Option.mem_toList.mp hmem)

section Start

variable {base : List Clause} {goal : Formula} {k : Clausifier} {limits : Limits} {t : Session}
  {q : Query} {cs : ClauseSet}

/-- The relation of answers in the session. -/
def answerSymbol (t : Session) : Symbol := (Symbols.intern Atom.answerName t.symbols).1

/-- Makes the formula that a query refutes. -/
def target (goal : Formula) : SessionM Formula :=
  naming (Formula.negatedWithAnswer goal.peelExistentials.1 goal.peelExistentials.2)

/-- The conversion that a query begins with. -/
def conversion (goal : Formula) (k : Clausifier) :
    SessionM (Except ClausifyError ClauseSet × Clausifier) := do
  k.clausify (← target goal)

theorem query_of_ok (h : (query base goal k limits t).1.1 = .ok q) :
    ∃ cs t', (conversion goal k t).1.1 = .ok cs ∧ t'.symbols = (conversion goal k t).2.symbols ∧
      q = ⟨some (start (base ++ cs.clauses) limits t').1, goal.peelExistentials.1, .empty, none⟩ ∧
      (query base goal k limits t).2 = (start (base ++ cs.clauses) limits t').2 := by
  rcases hconvert : conversion goal k t with ⟨⟨result, k'⟩, t₁⟩
  have hquery := hconvert
  unfold conversion target at hquery
  rw [bind_apply] at hquery
  simp only [query, bind_apply, hquery] at h ⊢
  cases result with
  | error e => cases h
  | ok cs =>
    cases h
    exact ⟨cs, (note (.querying goal goal.peelExistentials.1.length) t₁).2, rfl, rfl, rfl, rfl⟩

theorem target_eq (goal : Formula) (t : Session) :
    (target goal t).1 = goal.peelExistentials.1.foldr .all (.or (.not goal.peelExistentials.2)
      (.rel (answerSymbol t) (goal.peelExistentials.1.map .var))) :=
  rfl

theorem le_target (goal : Formula) (t : Session) : t.symbols ≤ (target goal t).2.symbols :=
  Symbols.le_intern _ _

theorem le_conversion (goal : Formula) (k : Clausifier) (t : Session) :
    (target goal t).2.symbols ≤ (conversion goal k t).2.symbols :=
  Clausifier.le_clausify _ k _

theorem knows_answerSymbol (goal : Formula) (t : Session) :
    (target goal t).2.symbols.Knows (answerSymbol t) :=
  Symbols.knows_intern _ _

theorem name_answerSymbol (h : t.symbols.Knows (answerSymbol t)) :
    t.symbols.name (answerSymbol t) = Atom.answerName := by
  rw [← Symbols.name_eq_of_le (Symbols.le_intern Atom.answerName t.symbols) h]
  exact Symbols.name_intern _ _

theorem knows_target (hgoal : ∀ a ∈ goal.symbols, t.symbols.Knows a) :
    ∀ a ∈ (target goal t).1.symbols, (target goal t).2.symbols.Knows a := by
  have hxs {x : Symbol} (hx : x ∈ goal.peelExistentials.1) : (target goal t).2.symbols.Knows x :=
    (hgoal x (Formula.mem_symbols_of_peelExistentials (.inl hx))).mono (le_target goal t)
  intro a ha
  rw [target_eq, Formula.mem_symbols_foldr_all] at ha
  rcases ha with ha | ha
  · exact hxs ha
  · rcases List.mem_append.mp ha with ha | ha
    · exact (hgoal a (Formula.mem_symbols_of_peelExistentials (.inr ha))).mono (le_target goal t)
    · rcases List.mem_cons.mp ha with rfl | ha
      · exact knows_answerSymbol goal t
      · obtain ⟨u, hu, hau⟩ := Term.mem_symbolsAll.mp ha
        obtain ⟨x, hx, rfl⟩ := List.mem_map.mp hu
        exact Term.mem_symbols_var.mp hau ▸ hxs hx

/-- The variables of a query are distinct, and no others are free below them. -/
theorem scope_of_validate (h : (target goal t).1.validate = .ok ()) :
    goal.peelExistentials.1.Nodup ∧
      ∀ x, goal.peelExistentials.2.Free x → x ∈ goal.peelExistentials.1 := by
  refine ⟨(Formula.checkScope_foldr_all.mp h).1, fun x hx => ?_⟩
  by_contra hmem
  exact Formula.not_free_of_validate h x (Formula.free_foldr_all.mpr ⟨hmem, .inl hx⟩)

theorem literals_of_terms? {n : Nat} {c : Clause} {args : List Term}
    (h : Answers.terms? n c = some args) :
    args.length = n ∧ ∃ r m, c.literals = [⟨.rel r args, m⟩] := by
  unfold Answers.terms? at h
  split at h
  · rename_i r args' m hc
    split at h
    · cases h
      exact ⟨‹_›, r, m, hc⟩
    · cases h
  · cases h

section Meaning

variable {D : Type u} {I J : Interpretation D} {xs : List Symbol} {body : Formula}
  {answer : Symbol} {σ τ : Symbols}

/-- Where answers are the values for which `body` holds, a true answer clause gives
such values. -/
theorem exists_holds_of_supports (hrel : (answering I xs body answer).rel = J.rel) {c : Clause}
    (hc : c.Supports J τ answer) (hanswer : c.isAnswer τ = true) (v : Symbol → D) :
    ∃ args w, ⟨.rel answer args, false⟩ ∈ c.literals ∧ xs.map w = args.map (Term.eval J v) ∧
      body.Holds I w := by
  obtain ⟨args, hargs, hholds⟩ := hc.exists_rel hanswer v
  rw [← hrel, rel_answering] at hholds
  obtain ⟨w, hw, hbody⟩ := hholds
  exact ⟨args, w, hargs, hw, hbody⟩

theorem evidence (hJ : (answering I xs body answer).AgreeOn σ.Knows J) (hle : σ ≤ τ)
    (hxsNames : ∀ x ∈ xs, σ.Knows x) (hnames : ∀ a ∈ body.symbols, σ.Knows a)
    (hfree : ∀ x, body.Free x → x ∈ xs) (hxs : xs.Nodup) :
    Evidence (Answering (Clause.Supports J τ answer) τ.Knows τ)
      (fun c => c.Supports J τ answer ∧ c.isAnswer τ = true ∧ c.Avoids τ.Knows) xs
      (fun b => ∀ v, body.Holds (J.withRel I.rel) fun x => (b.apply x).eval (J.withRel I.rel) v)
      ((xs.foldr .ex body).TrueIn I) where
  invariant := invariant_answering (Clause.deductive_supports J τ answer)
    (fun c hc => hc.relationsIn) fun _ hknown => hknown
  tells := (tells_answering _ _ τ).imp Clause.not_supports_empty
  goal := by
    rintro c ⟨hc, hanswer, -⟩
    obtain ⟨-, w, -, -, hw⟩ :=
      exists_holds_of_supports hJ.rel hc hanswer fun _ => J.const default
    exact trueIn_foldr_ex hfree hw
  binding := by
    rintro c args ⟨hc, hanswer, havoids⟩ hterms v
    obtain ⟨hlength, r, m, hliterals⟩ := literals_of_terms? hterms
    obtain ⟨args', w, hargs, hw, hbody⟩ := exists_holds_of_supports hJ.rel hc hanswer v
    rw [hliterals, List.mem_singleton] at hargs
    cases hargs
    have hagree : I.AgreeOn σ.Knows (J.withRel I.rel) := ⟨hJ.const, hJ.fn, rfl⟩
    refine holds_ofList hagree hnames hfree hxs hlength (fun u hu x hx hvar => ?_) ?_ hbody
    · refine havoids x (Clause.mem_vars.mpr ?_) ((hxsNames x hx).mono hle)
      exact ⟨⟨.rel answer args, false⟩, by rw [hliterals]; exact List.mem_cons_self, u, hu, hvar⟩
    · rw [hw]
      exact List.map_congr_left fun u _ => u.eval_withRel.symm

end Meaning

theorem sound_start {D : Type u} {J : Interpretation D} {answer : Symbol} {cs : List Clause}
    (hcs : ∀ c ∈ cs, c.Supports J t.symbols answer ∧ ¬ c.isAnswer t.symbols = true)
    (limits : Limits) (xs : List Symbol) (G : Prop) :
    Sound (Answering (Clause.Supports J t.symbols answer) t.symbols.Knows t.symbols) xs G
      ⟨some (start cs limits t).1, xs, .empty, none⟩ (start cs limits t).2.symbols where
  vars := rfl
  search := by
    rintro _ ⟨⟩
    exact answering_start (Clause.deductive_supports J _ answer) (fun c hc => hc.relationsIn)
      (fun _ hknown => hknown) (fun c hc => (hcs c hc).1) (fun c hc h => absurd h (hcs c hc).2)
      limits
  answers := nofun
  outcome := nofun

/-- Clauses without answers, which are not yet in the search. -/
theorem announces_of_le {c : Clause} {σ τ : Symbols} (hle : σ ≤ τ)
    (hnames : ∀ a ∈ c.symbols, σ.Knows a) (hc : ∀ l ∈ c.literals, l.isAnswer σ = false)
    (answer : Symbol) :
    (∀ l ∈ c.literals, l.atom.Announces τ answer l.negated) ∧ ¬ c.isAnswer τ = true := by
  have hrel : c.RelationsIn σ := fun l hl =>
    Atom.relationIn_of_symbols fun a ha => hnames a (Clause.mem_symbols.mpr ⟨l, hl, ha⟩)
  refine ⟨fun l hl => .of_le hle (hrel l hl) (hc l hl), fun hanswer => ?_⟩
  rw [Clause.isAnswer_eq_of_le hle hrel, Clause.isAnswer_iff] at hanswer
  obtain ⟨⟨l, hl⟩, hall⟩ := hanswer
  exact Bool.false_ne_true ((hc l hl).symm.trans (hall l hl))

theorem signs_target {p : Bool → Atom → Prop} (hbody : goal.peelExistentials.2.Signs p true)
    (hanswer : p false (.rel (answerSymbol t) (goal.peelExistentials.1.map .var))) :
    (target goal t).1.Signs p false :=
  Formula.signs_foldr_all (g := .or _ _) ⟨hbody, hanswer⟩

theorem tagged_target {p : Bool → Atom → Prop} (hbody : goal.peelExistentials.2.Signs p true) :
    (target goal t).1.Tagged p :=
  Formula.tagged_foldr_all (g := .or _ _) hbody

section Conversion

variable (hbody : ∀ a ∈ goal.peelExistentials.2.atoms,
    a.RelationIn t.symbols ∧ a.isAnswer t.symbols = false)
  (hok : (conversion goal k t).1.1 = .ok cs)

include hbody hok

theorem announces_of_conversion : ∀ c ∈ cs.clauses, ∀ l ∈ c.literals,
    l.atom.Announces (conversion goal k t).2.symbols (answerSymbol t) l.negated := by
  refine Clausifier.forall_clausify
    (p := fun n a => a.Announces (conversion goal k t).2.symbols (answerSymbol t) n)
    (fun n a θ h => h.subst θ) ?_ ?_ ?_ (signs_target ?_ ?_) hok
  · intro n r args h l hl
    rw [List.mem_singleton.mp (Clause.mem_ofList.mp hl)]
    exact h
  · intro n l r _ m hm
    rw [List.mem_singleton.mp (Clause.mem_ofList.mp hm)]
    exact .equation l r
  · exact fun c d hc hd l hl =>
      (List.mem_append.mp (Clause.mem_ofList.mp hl)).elim (hc l) (hd l)
  · have hle := (le_target goal t).trans (le_conversion goal k t)
    exact Formula.signs_of_atoms (fun a ha n => .of_le hle (hbody a ha).1 (hbody a ha).2) true
  · exact ⟨(knows_answerSymbol goal t).mono (le_conversion goal k t), fun _ => ⟨rfl, rfl⟩⟩

/-- Every clause of the refuted formula has a literal from the negated goal, so none
is an answer already. -/
theorem not_isAnswer_of_conversion :
    ∀ c ∈ cs.clauses, ¬ c.isAnswer (conversion goal k t).2.symbols = true := by
  have hleft : goal.peelExistentials.2.Signs
      (fun _ a => a.isAnswer (conversion goal k t).2.symbols = false) true := by
    have hle := (le_target goal t).trans (le_conversion goal k t)
    refine Formula.signs_of_atoms (fun a ha n => ?_) true
    exact (Literal.isAnswer_eq_of_le (l := ⟨a, n⟩) hle (hbody a ha).1).trans (hbody a ha).2
  intro c hc hanswer
  obtain ⟨l, hl, hnot⟩ := Clausifier.exists_mem_of_clausify (by rintro n (_ | _) θ h <;> exact h)
    (fun n l r _ => by unfold Atom.equation; split <;> rfl) (tagged_target hleft) hok c hc
  exact Bool.false_ne_true (hnot.symm.trans ((Clause.isAnswer_iff.mp hanswer).2 l hl))

/-- In a model of the premises, answers and Skolem symbols can be given a meaning that
supports all clauses from which the search starts. -/
theorem exists_supports_conversion {D : Type u} {I : Interpretation D}
    (hgoal : ∀ a ∈ goal.symbols, t.symbols.Knows a)
    (hbase : ∀ c ∈ base, ∀ a ∈ c.symbols, t.symbols.Knows a)
    (hbaseAnswer : ∀ c ∈ base, ∀ l ∈ c.literals, l.isAnswer t.symbols = false)
    (hmodel : ∀ c ∈ base, c.TrueIn I)
    (hsize : (conversion goal k t).2.symbols.size < UInt32.size) :
    ∃ J : Interpretation D,
      (answering I goal.peelExistentials.1 goal.peelExistentials.2 (answerSymbol t)).AgreeOn
        (fun c => ¬ (target goal t).2.symbols.SkolemBetween (conversion goal k t).2.symbols c) J ∧
      ∀ c ∈ base ++ cs.clauses, c.Supports J (conversion goal k t).2.symbols (answerSymbol t) ∧
        ¬ c.isAnswer (conversion goal k t).2.symbols = true := by
  have hkeeps {a : Atom} (hrel : a.RelationIn t.symbols) (ha : a.isAnswer t.symbols = false)
      (f : List D → Prop) : a.KeepsRel I (Function.update I.rel (answerSymbol t) f) :=
    keepsRel_answering hrel name_answerSymbol ha f
  have htarget : (target goal t).1.TrueIn (answering I goal.peelExistentials.1
      goal.peelExistentials.2 (answerSymbol t)) :=
    trueIn_answering fun a ha => hkeeps (hbody a ha).1 (hbody a ha).2
  obtain ⟨J, hJ, hcs⟩ := Clausifier.exists_trueIn_clausify
    (Clausifier.convertible_of_ok (knows_target hgoal) hok hsize) hok htarget
  refine ⟨J, hJ, List.forall_mem_append.mpr ⟨fun c hc => ?_, fun c hc => ?_⟩⟩
  · have hknown (a : Symbol) (ha : a ∈ c.symbols) : (target goal t).2.symbols.Knows a :=
      (hbase c hc a ha).mono (le_target goal t)
    have hkept : c.TrueIn (answering I goal.peelExistentials.1 goal.peelExistentials.2
        (answerSymbol t)) := by
      refine (Clause.trueIn_withRel fun l hl => hkeeps ?_ (hbaseAnswer c hc l hl) _).mpr
        (hmodel c hc)
      exact Atom.relationIn_of_symbols fun a ha =>
        hbase c hc a (Clause.mem_symbols.mpr ⟨l, hl, ha⟩)
    have htrue := (Clause.trueIn_congr (Formula.agreeOn_knows hJ) hknown).mp hkept
    obtain ⟨hsigns, hnot⟩ := announces_of_le ((le_target goal t).trans (le_conversion goal k t))
      (hbase c hc) (hbaseAnswer c hc) (answerSymbol t)
    exact ⟨⟨htrue, hsigns⟩, hnot⟩
  · exact ⟨⟨hcs c hc, announces_of_conversion hbody hok c hc⟩,
      not_isAnswer_of_conversion hbody hok c hc⟩

end Conversion

/-- Bindings and reports of entailment are right. Some meaning of the Skolem symbols
of the conversion fits all bindings that a run of the query ever gives. -/
theorem holds_of_query (hbase : ∀ c ∈ base, ∀ a ∈ c.symbols, t.symbols.Knows a)
    (hbaseAnswer : ∀ c ∈ base, ∀ l ∈ c.literals, l.isAnswer t.symbols = false)
    (hgoal : ∀ a ∈ goal.symbols, t.symbols.Knows a)
    (hgoalAnswer : ∀ a ∈ goal.atoms, a.isAnswer t.symbols = false)
    (hquery : (query base goal k limits t).1.1 = .ok q) (D : Type u) (I : Interpretation D)
    (hmodel : ∀ c ∈ base, c.TrueIn I) :
    ∃ J : Interpretation D,
      I.AgreeOn (fun c => ¬ t.symbols.SkolemBetween (conversion goal k t).2.symbols c) J ∧
      ∀ q' t' bs, Run q (query base goal k limits t).2 q' t' bs →
        t'.symbols.size < UInt32.size →
        (∀ b ∈ bs, ∀ v, goal.peelExistentials.2.Holds J fun x => (b.apply x).eval J v) ∧
        (q'.outcome = some .entailed → goal.TrueIn I) := by
  obtain ⟨cs, t₁, hok, hsymbols, hq, hsession⟩ := query_of_ok hquery
  have hstart : (conversion goal k t).2.symbols ≤ (query base goal k limits t).2.symbols := by
    rw [hsession, ← hsymbols]
    exact grows_insertAll _ _ t₁
  by_cases hsize : (conversion goal k t).2.symbols.size < UInt32.size
  swap
  · -- no run is left to speak of
    refine ⟨I, .refl _ I, fun q' t' bs hrun hsize' => absurd ?_ hsize⟩
    exact (Symbols.size_le (hstart.trans hrun.le)).trans_lt hsize'
  have hbody : ∀ a ∈ goal.peelExistentials.2.atoms,
      a.RelationIn t.symbols ∧ a.isAnswer t.symbols = false := by
    rw [goal.atoms_peelExistentials]
    exact fun a ha => ⟨Atom.relationIn_of_symbols fun x hx =>
      hgoal x (Formula.mem_symbols_of_mem_atoms ha hx), hgoalAnswer a ha⟩
  obtain ⟨J, hJ, hcs⟩ :=
    exists_supports_conversion hbody hok hgoal hbase hbaseAnswer hmodel hsize
  obtain ⟨hnodup, hfree⟩ := scope_of_validate (Clausifier.validate_of_clausify hok)
  have hevidence := evidence
    ((Formula.agreeOn_knows hJ).mono fun _ hknown => hknown.mono (le_target goal t))
    ((le_target goal t).trans (le_conversion goal k t))
    (fun x hx => hgoal x (Formula.mem_symbols_of_peelExistentials (.inl hx)))
    (fun a ha => hgoal a (Formula.mem_symbols_of_peelExistentials (.inr ha))) hfree hnodup
  rw [← hsymbols] at hcs hevidence
  have hsound := sound_start hcs limits goal.peelExistentials.1 ((goal.peelExistentials.1.foldr
    .ex goal.peelExistentials.2).TrueIn I)
  rw [← hq, ← hsession] at hsound
  refine ⟨J.withRel I.rel, ⟨fun c hc => ?_, fun f hf => ?_, rfl⟩, fun q' t' bs hrun hsize' => ?_⟩
  · exact hJ.const c fun hnew => hc (hnew.earlier (le_target goal t))
  · exact hJ.fn f fun hnew => hf (hnew.earlier (le_target goal t))
  · obtain ⟨hend, hbs⟩ := hrun.sound hevidence hsound hsize'
    exact ⟨hbs, fun hout => goal.foldr_peelExistentials ▸ hend.outcome hout⟩

/-- The goal `∃x ∀y R(x, y)` about the first names `R`, `c`, `x` and `y`. -/
def leastElement : Formula := .ex ⟨2⟩ (.all ⟨3⟩ (.rel ⟨0⟩ [.var ⟨2⟩, .var ⟨3⟩]))

/-- The premise `R(c, y)`. -/
def leastPremises : List Clause := [⟨[⟨.rel ⟨0⟩ [.const ⟨1⟩, .var ⟨3⟩], false⟩]⟩]

def leastSession : Session := .knowing ["R", "c", "x", "y"]

def leastQuery : (Except ClausifyError Query × Clausifier) × Session :=
  query leastPremises leastElement .new ⟨some 3, none⟩ leastSession

/-- The search from `R(c, y)` and `¬R(x, $sk1(x)) ∨ $answer(x)`. -/
def leastStart : Saturation × Session :=
  start (leastPremises ++ [⟨[⟨.rel ⟨0⟩ [.var ⟨2⟩, .app ⟨5⟩ [.var ⟨2⟩]], true⟩,
      ⟨.rel ⟨4⟩ [.var ⟨2⟩], false⟩]⟩]) ⟨some 3, none⟩
    (note (.querying leastElement 1) (conversion leastElement .new leastSession).2).2

/-- The search after its first selection, of `R(c, y)`, and after its second one. -/
def leastFirst : Saturation × Session := activate 0 (leastStart.1.taken 4 0) leastStart.2

def leastSecond : Saturation × Session := activate 1 (leastFirst.1.taken 8 1) leastFirst.2

def leastSearch : Query := ⟨some leastStart.1, [⟨2⟩], .empty, none⟩

/-- Every constant is zero, and relations mean that the arguments increase. -/
def fromZero : Interpretation Nat := ⟨fun _ => 0, fun _ _ => 0, fun _ ds => ds.Pairwise (· ≤ ·)⟩

/-- Both selections take the lightest clause, and the second one gives `$answer(c)`. -/
theorem next_leastSearch :
    (leastSearch.next leastQuery.2).1.1 = some (.ofList [(⟨2⟩, .const ⟨1⟩)]) ∧
      (leastSearch.next leastQuery.2).2.symbols.size < UInt32.size := by
  have hremaining : leastStart.1.remaining leastStart.2.horizon = 3 := by decide +kernel
  have hstart : leastStart.1.Lightest 4 0 := by decide +kernel
  have hfirst : leastFirst.1.Lightest 8 1 := by decide +kernel
  obtain ⟨hpending, hsize⟩ :
      leastSecond.1.pending = [.answer ⟨[⟨.rel ⟨4⟩ [.const ⟨1⟩], false⟩]⟩] ∧
        leastSecond.2.symbols.size < UInt32.size := by decide +kernel
  have hpursue := calc leastStart.1.pursue (Answers.receive 1) .empty leastStart.2
    _ = pursueFor (Answers.receive 1) 3 leastStart.1 .empty leastStart.2 := by
      rw [pursue_eq, hremaining]
    _ = pursueFor (Answers.receive 1) 2 leastFirst.1 .empty leastFirst.2 :=
      hstart.pursueFor 2 _ _
    _ = pursueFor (Answers.receive 1) 1 leastSecond.1 .empty leastSecond.2 :=
      hfirst.pursueFor 1 _ _
    _ = _ := pursueFor_of_answer 1 _ hpending rfl rfl
  have hsession : leastQuery.2 = leastStart.2 := rfl
  rw [hsession, next_of_found (q := leastSearch) rfl hpursue]
  exact ⟨rfl, hsize⟩

/-- The least element `c` is found, and with it some meaning of `$sk1`. -/
theorem holds_of_query_leastElement :
    leastQuery.1.1 = .ok leastSearch ∧
    (leastSearch.next leastQuery.2).1.1 = some (.ofList [(⟨2⟩, .const ⟨1⟩)]) ∧
    ∃ J : Interpretation Nat,
      fromZero.AgreeOn (fun c => ¬ leastSession.symbols.SkolemBetween
        (conversion leastElement .new leastSession).2.symbols c) J ∧
      ∀ v, (Formula.all ⟨3⟩ (.rel ⟨0⟩ [.var ⟨2⟩, .var ⟨3⟩])).Holds J fun x =>
        ((Substitution.ofList [(⟨2⟩, .const ⟨1⟩)]).apply x).eval J v := by
  have hquery : leastQuery.1.1 = .ok leastSearch := rfl
  have hmodel : ∀ c ∈ leastPremises, c.TrueIn fromZero := by
    refine List.forall_mem_singleton.mpr fun v => ⟨_, List.mem_cons_self, ?_⟩
    simp [Literal.Holds, Atom.Holds, fromZero]
  obtain ⟨hnext, hsize⟩ := next_leastSearch
  obtain ⟨J, hJ, hruns⟩ := holds_of_query (by decide) (by decide) (by decide) (by decide) hquery
    Nat fromZero hmodel
  refine ⟨hquery, hnext, J, hJ, ?_⟩
  exact (hruns _ _ _ (.next .start) hsize).1 _ (Option.mem_toList.mpr hnext)

end Start

end Query

end Entailment
