import Entailment.Formula.Parser
import Entailment.Proofs.Symbol

/-! Reading adds names to the table and takes none away, also where the text is refused. -/
namespace Entailment

namespace Reader

variable {α β : Type}

/-- Names that the table has keep their numbers, whether or not there is a result. -/
def Grows (x : Reader α) : Prop := ∀ s, s.symbols ≤ (ExceptT.run x s).2.symbols

theorem grows_pure (r : α) : Grows (pure r) := fun s => le_refl s.symbols

theorem grows_throw (e : ParseError) : Grows (throw e : Reader α) := fun s => le_refl s.symbols

theorem run_bind (x : Reader α) (f : α → Reader β) (s : ReaderState) :
    ExceptT.run (x >>= f) s = match (ExceptT.run x s).1 with
      | .ok r => ExceptT.run (f r) (ExceptT.run x s).2
      | .error e => (.error e, (ExceptT.run x s).2) := by
  change (ExceptT.bindCont f (ExceptT.run x s).1) (ExceptT.run x s).2 = _
  cases (ExceptT.run x s).1 <;> rfl

theorem Grows.bind {x : Reader α} {f : α → Reader β} (hx : Grows x) (hf : ∀ r, Grows (f r)) :
    Grows (x >>= f) := by
  intro s
  rw [run_bind]
  cases (ExceptT.run x s).1 with
  | error e => exact hx s
  | ok r => exact (hx s).trans (hf r _)

theorem grows_get : Grows (get : Reader ReaderState) := fun s => le_refl s.symbols

theorem grows_modify {g : ReaderState → ReaderState} (h : ∀ s, (g s).symbols = s.symbols) :
    Grows (modify g : Reader PUnit) :=
  fun s => (h s).symm.le

theorem grows_ite {p : Prop} [Decidable p] {x y : Reader α} (hx : Grows x) (hy : Grows y) :
    Grows (if p then x else y) := by
  split
  · exact hx
  · exact hy

theorem grows_found : Grows found := by
  refine grows_get.bind fun s => ?_
  split <;> exact grows_pure _

theorem grows_expected (wanted : Wanted) : Grows (expected wanted : Reader α) :=
  grows_found.bind fun _ => grows_throw _

theorem grows_accept (kind : TokenKind) : Grows (accept kind) := by
  refine grows_get.bind fun s => ?_
  split
  · exact grows_ite ((grows_modify (by intro; rfl)).bind fun _ => grows_pure _) (grows_pure _)
  · exact grows_pure _

theorem grows_expect (kind : TokenKind) : Grows (expect kind) :=
  (grows_accept kind).bind fun _ => grows_ite (grows_pure _) (grows_expected _)

theorem grows_identifier (wanted : Wanted) : Grows (identifier wanted) := by
  have hintern (name : String) : Grows (intern name) :=
    fun s => Symbols.le_intern name s.symbols
  refine grows_get.bind fun s => ?_
  split
  · exact grows_ite ((grows_modify (by intro; rfl)).bind fun _ => hintern _) (grows_expected wanted)
  · exact grows_expected wanted

/-! ## Terms -/

theorem grows_after {item : Reader α} (separator : TokenKind) (h : Grows item) (fuel : Nat) :
    Grows (after separator item fuel) := by
  induction fuel with
  | zero => exact grows_pure _
  | succ fuel ih =>
    refine (grows_accept separator).bind fun _ => grows_ite ?_ (grows_pure _)
    exact h.bind fun _ => ih.bind fun _ => grows_pure _

theorem grows_arguments {term : Reader Term} (h : Grows term) (fuel : Nat) :
    Grows (arguments term fuel) := by
  refine (grows_accept .lparen).bind fun _ => grows_ite ?_ (grows_pure _)
  exact h.bind fun _ => (grows_after .comma h fuel).bind fun _ =>
    (grows_expect .rparen).bind fun _ => grows_pure _

theorem grows_makeTerm (scope : List Symbol) (s : Symbol) (args : Option (List Term)) :
    Grows (makeTerm scope s args) := by
  cases args with
  | none =>
    refine grows_ite (grows_pure _) (grows_get.bind fun _ => grows_ite (grows_throw _) ?_)
    exact (grows_modify (by intro; rfl)).bind fun _ => grows_pure _
  | some args =>
    refine grows_ite (grows_throw _) (grows_get.bind fun _ => grows_ite (grows_throw _) ?_)
    refine grows_get.bind fun _ => ?_
    split
    · exact grows_ite (grows_throw _) (grows_pure _)
    · exact (grows_modify (by intro; rfl)).bind fun _ => grows_pure _

theorem grows_term (scope : List Symbol) (fuel : Nat) : Grows (term scope fuel) := by
  induction fuel with
  | zero => exact grows_expected _
  | succ fuel ih =>
    exact (grows_identifier _).bind fun s => (grows_arguments ih fuel).bind fun args =>
      grows_makeTerm scope s args

/-! ## Formulas -/

theorem grows_makeRelation (scope : List Symbol) (r : Symbol) (args : Option (List Term)) :
    Grows (makeRelation scope r args) := by
  refine grows_ite (grows_throw _) (grows_get.bind fun _ => ?_)
  split
  · exact grows_ite (grows_throw _) (grows_pure _)
  · exact (grows_modify (by intro; rfl)).bind fun _ => grows_pure _

theorem grows_atomic (scope : List Symbol) (fuel : Nat) : Grows (atomic scope fuel) := by
  refine (grows_identifier _).bind fun s =>
    (grows_arguments (grows_term scope fuel) fuel).bind fun args => ?_
  have hsides (make : Term → Term → Formula) :
      Grows (do return make (← makeTerm scope s args) (← term scope fuel)) :=
    (grows_makeTerm scope s args).bind fun _ => (grows_term scope fuel).bind fun _ => grows_pure _
  refine (grows_accept .eq).bind fun _ => grows_ite (hsides .eq) ?_
  exact (grows_accept .ne).bind fun _ => grows_ite (hsides fun l r => .not (.eq l r))
    (grows_makeRelation scope s args)

theorem grows_quantifier : Grows quantifier :=
  (grows_accept .all).bind fun _ => grows_ite (grows_pure _)
    ((grows_accept .ex).bind fun _ => grows_ite (grows_pure _) (grows_pure _))

theorem grows_binders (q : Symbol → Formula → Formula) (fuel : Nat) : Grows (binders q fuel) := by
  induction fuel generalizing q with
  | zero => exact grows_expected _
  | succ fuel ih =>
    refine (grows_identifier _).bind fun _ => (grows_accept .colon).bind fun _ =>
      grows_ite (grows_pure _) ((grows_expect .comma).bind fun _ => ?_)
    exact grows_quantifier.bind fun _ => (ih _).bind fun _ => grows_pure _

theorem grows_negations (fuel : Nat) : Grows (negations fuel) := by
  induction fuel with
  | zero => exact grows_pure _
  | succ fuel ih =>
    exact (grows_accept .not).bind fun _ =>
      grows_ite (ih.bind fun _ => grows_pure _) (grows_pure _)

theorem grows_operand {formula : List Symbol → Reader Formula} (h : ∀ scope, Grows (formula scope))
    (scope : List Symbol) (fuel : Nat) : Grows (operand formula scope fuel) := by
  refine (grows_negations fuel).bind fun _ => grows_quantifier.bind fun q => ?_
  cases q with
  | some q => exact (grows_binders q fuel).bind fun _ => (h _).bind fun _ => grows_pure _
  | none =>
    refine (grows_accept .lparen).bind fun _ => grows_ite ?_ ?_
    · exact (h scope).bind fun _ => (grows_expect .rparen).bind fun _ => grows_pure _
    · exact (grows_atomic scope fuel).bind fun _ => grows_pure _

theorem grows_joinLeft {operand : Reader Formula} (h : Grows operand) (kind : TokenKind)
    (join : Formula → Formula → Formula) (fuel : Nat) : Grows (joinLeft kind join operand fuel) :=
  h.bind fun _ => (grows_after kind h fuel).bind fun _ => grows_pure _

theorem grows_joinRight {operand : Reader Formula} (h : Grows operand) (kind : TokenKind)
    (join : Formula → Formula → Formula) (fuel : Nat) : Grows (joinRight kind join operand fuel) :=
  h.bind fun _ => (grows_after kind h fuel).bind fun _ => grows_pure _

theorem grows_formula (fuel : Nat) (scope : List Symbol) : Grows (formula fuel scope) := by
  induction fuel generalizing scope with
  | zero => exact grows_expected _
  | succ fuel ih =>
    have hnegated := grows_operand ih scope fuel
    have hand := grows_joinLeft hnegated .and .and fuel
    have hor := grows_joinLeft hand .or .or fuel
    have himp := grows_joinRight hor .imp .imp fuel
    exact grows_joinLeft himp .iff .iff fuel

theorem grows_done (atStop : UnknownChar → ParseError) : Grows (done atStop) := by
  rintro ⟨σ, tokens, stop, relations, functions, constants⟩
  rcases tokens with _ | ⟨t, tokens⟩
  · cases stop <;> exact le_refl σ
  · exact grows_expected (α := Unit) .endOfInput ⟨σ, tokens, stop, relations, functions, constants⟩

end Reader

theorem Formula.le_parse (text : String) (σ : Symbols) : σ ≤ (parse text σ).2 := by
  have h (fuel : Nat) : Reader.Grows (do
      if (← Reader.found) = .endOfInput then throw .emptyFormula
      let f ← Reader.formula fuel []
      Reader.done .unknownChar
      return f) := by
    refine Reader.grows_found.bind fun _ => Reader.grows_ite (Reader.grows_throw _) ?_
    exact (Reader.grows_formula fuel []).bind fun _ =>
      (Reader.grows_done _).bind fun _ => Reader.grows_pure _
  exact h _ (Reader.start (Token.scan text) σ)

end Entailment
