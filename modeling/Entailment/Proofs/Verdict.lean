import Entailment.Proofs.Relabel

/-! Whether a formula can be converted is a matter of the formula alone: the scope
check looks at it as it stands, and the limit of distribution at numbers of
clauses, which neither names nor Skolem terms change. -/
namespace Entailment

variable {π : Symbol → Symbol}

instance : Infinite Symbol := .of_injective Symbol.mk fun _ _ h => Symbol.mk.inj h

namespace ScopeError

/-- The variable that an error is about. -/
def symbol : ScopeError → Symbol
  | .free x | .rebound x => x

theorem symbol_relabel (e : ScopeError) : (e.relabel π).symbol = π e.symbol := by
  cases e <;> rfl

theorem message_relabel {e : ScopeError} {σ σ' : Symbols}
    (h : σ'.name (π e.symbol) = σ.name e.symbol) : (e.relabel π).message σ' = e.message σ := by
  cases e with
  | free x | rebound x =>
    have hname : σ'.name (π x) = σ.name x := h
    rw [relabel, message, message, hname]

end ScopeError

namespace Formula

/-- The number of clauses of a formula, if distribution stays within its limit. -/
def width (f : Formula) : Except ClausifyError Nat := (f.clauses false).map List.length

theorem width_and (f g : Formula) :
    (f.and g).width = do return (← f.width) + (← g.width) := by
  unfold width
  rw [clauses]
  cases f.clauses false with
  | error e => rfl
  | ok cs =>
    cases g.clauses false with
    | error e => rfl
    | ok ds => exact congrArg Except.ok List.length_append

theorem width_or (f g : Formula) :
    (f.or g).width = (do
      let m ← f.width
      let n ← g.width
      if m * n > ClausifyError.sizeLimit then .error .tooLarge else .ok (m * n)) := by
  unfold width
  rw [clauses]
  cases f.clauses false with
  | error e => rfl
  | ok cs =>
    cases g.clauses false with
    | error e => rfl
    | ok ds =>
      change (Clause.distribute cs ds).map List.length = if _ then _ else _
      unfold Clause.distribute
      split
      · rfl
      · simp [Except.map, List.length_flatMap]

theorem width_recast {f g : Formula} (h : f.IsNnf) (hfg : f.Recast g) : g.width = f.width := by
  induction h generalizing g with
  | rel r args | eq l r =>
    cases hfg
    rfl
  | notRel r args | notEq l r =>
    cases hfg with
    | not hfg =>
      cases hfg
      rfl
  | and _ _ ihf ihg =>
    cases hfg with
    | and hf hg => rw [width_and, width_and, ihf hf, ihg hg]
  | or _ _ ihf ihg =>
    cases hfg with
    | or hf hg => rw [width_or, width_or, ihf hf, ihg hg]
  | all x _ ih =>
    cases hfg with
    | all _ y hf => exact (ih hf :)
  | ex x _ ih =>
    cases hfg with
    | ex _ y hf => exact (ih hf :)
    | skolem _ hf => exact ih hf

theorem width_relabel (π : Symbol → Symbol) (f : Formula) : (f.relabel π).width = f.width := by
  unfold width
  rw [clauses_relabel]
  cases f.clauses false with
  | error e => rfl
  | ok cs => exact congrArg Except.ok (List.length_map _)

theorem eq_tooLarge_of_width {f : Formula} (h : f.IsNnf) {e : ClausifyError}
    (he : f.width = .error e) : e = .tooLarge := by
  induction h with
  | rel r args | eq l r | notRel r args | notEq l r => cases he
  | and _ _ ihf ihg =>
    rw [width_and] at he
    rcases bind_eq_error_iff.mp he with hf | ⟨m, -, he⟩
    · exact ihf hf
    · rcases bind_eq_error_iff.mp he with hg | ⟨n, -, he⟩
      · exact ihg hg
      · cases he
  | or _ _ ihf ihg =>
    rw [width_or] at he
    rcases bind_eq_error_iff.mp he with hf | ⟨m, -, he⟩
    · exact ihf hf
    · rcases bind_eq_error_iff.mp he with hg | ⟨n, -, he⟩
      · exact ihg hg
      · split at he <;> cases he
        rfl
  | all x _ ih | ex x _ ih => exact ih he

/-- Whether the formula can be converted, which no table of names has a part in. -/
def verdict (f : Formula) : Except ClausifyError Unit := do
  f.validate.mapError .scope
  f.basic.nnf.width.map fun _ => ()

theorem verdict_relabel (hπ : Function.Injective π) (f : Formula) :
    (f.relabel π).verdict = f.verdict.mapError (.relabel π) := by
  unfold verdict
  rw [validate_relabel hπ, nnf_basic_relabel, width_relabel]
  cases f.validate with
  | error e => rfl
  | ok =>
    cases hwidth : f.basic.nnf.width with
    | error e =>
      obtain rfl := eq_tooLarge_of_width (isNnf_pushNegation false f.basic) hwidth
      rfl
    | ok n => rfl

/-- The variable that an error names is one of the formula: exchanging any other
symbol for a new one leaves the formula as it is, but not the error. -/
theorem mem_symbols_of_validate {f : Formula} {e : ScopeError} (he : f.validate = .error e) :
    e.symbol ∈ f.symbols := by
  by_contra hmem
  obtain ⟨b, hb⟩ := Infinite.exists_notMem_finset (e.symbol :: f.symbols).toFinset
  rw [List.mem_toFinset, List.mem_cons, not_or] at hb
  have hfix : f.relabel (Equiv.swap e.symbol b) = f := by
    refine (relabel_congr fun a ha => ?_).trans (relabel_id f)
    exact Equiv.swap_apply_of_ne_of_ne (fun h => hmem (h ▸ ha)) fun h => hb.2 (h ▸ ha)
  have herror := validate_relabel (Equiv.swap e.symbol b).injective f
  rw [hfix, he] at herror
  have hsymbol := congrArg ScopeError.symbol (Except.error.inj herror)
  rw [ScopeError.symbol_relabel, Equiv.swap_apply_left] at hsymbol
  exact hb.1 hsymbol.symm

theorem verdict_cases {f : Formula} {e : ClausifyError} (he : f.verdict = .error e) :
    (∃ d, e = .scope d ∧ d.symbol ∈ f.symbols) ∨ e = .tooLarge := by
  unfold verdict at he
  cases hvalid : f.validate with
  | error d =>
    rw [hvalid] at he
    exact .inl ⟨d, (Except.error.inj he).symm, mem_symbols_of_validate hvalid⟩
  | ok =>
    rw [hvalid] at he
    cases hwidth : f.basic.nnf.width with
    | error d =>
      rw [hwidth] at he
      obtain rfl := Except.error.inj he
      exact .inr (eq_tooLarge_of_width (isNnf_pushNegation false f.basic) hwidth)
    | ok n =>
      rw [hwidth] at he
      cases he

section Error

variable {f : Formula} {e : ClausifyError} (he : f.verdict = .error e)

include he

theorem relabel_error_congr {m : Symbol → Symbol} (h : ∀ a ∈ f.symbols, π a = m a) :
    e.relabel π = e.relabel m := by
  rcases verdict_cases he with ⟨d, rfl, hd⟩ | rfl
  · cases d <;> exact congrArg _ (congrArg _ (h _ hd))
  · rfl

/-- An error has one text in both tables. -/
theorem message_relabel_error {m : Symbol → Symbol} {σ σ' : Symbols}
    (h : σ.Namesakes σ' m f.symbols) : (e.relabel m).message σ' = e.message σ := by
  rcases verdict_cases he with ⟨d, rfl, hd⟩ | rfl
  · exact ScopeError.message_relabel (h.name _ hd)
  · rfl

end Error

end Formula

namespace Clausifier

variable {f : Formula} {k : Clausifier} {s : Session}

/-- The clauses that are left of a list. -/
def sifted (cs : List Clause) : ClauseSet := ⟨Clause.distinct (cs.filter (!·.isTautology))⟩

theorem fst_clausify (f : Formula) (k : Clausifier) (s : Session) :
    (clausify f k s).1.1 = (do
      f.validate.mapError .scope
      return sifted (← (skolemForm f k s.symbols).1.clauses false)) := by
  cases hvalid : f.validate with
  | error e =>
    rw [clausify_of_error hvalid]
    rfl
  | ok =>
    rw [clausify_of_ok hvalid]
    unfold conclude
    cases (skolemForm f k s.symbols).1.clauses false <;> rfl

theorem verdict_clausify (f : Formula) (k : Clausifier) (s : Session) :
    (clausify f k s).1.1.map (fun _ => ()) = f.verdict := by
  have hwidth : (skolemForm f k s.symbols).1.width = f.basic.nnf.width :=
    Formula.width_recast (Formula.isNnf_pushNegation false f.basic) (recast_skolemForm f k s.symbols)
  rw [fst_clausify, Formula.verdict, ← hwidth, Formula.width]
  cases f.validate with
  | error e => rfl
  | ok => cases (skolemForm f k s.symbols).1.clauses false <;> rfl

theorem clausify_eq_error_iff {e : ClausifyError} :
    (clausify f k s).1.1 = .error e ↔ f.verdict = .error e := by
  rw [← verdict_clausify f k s]
  cases (clausify f k s).1.1 <;> simp [Except.map]

theorem clausify_eq_ok_iff : (∃ cs, (clausify f k s).1.1 = .ok cs) ↔ f.verdict = .ok () := by
  rw [← verdict_clausify f k s]
  cases (clausify f k s).1.1 <;> simp [Except.map]

end Clausifier

end Entailment
