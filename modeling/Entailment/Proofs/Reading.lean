import Entailment.Proofs.Parser

/-! What the steps of the reader do when they succeed. Each statement says both when a step
gives a result and what it leaves behind. -/
namespace Entailment.Reader

variable {α β : Type} {s s' : ReaderState} {scope : List Symbol} {a : Symbol}

/-- The reader gives the result and leaves the second state. -/
def Gives (x : Reader α) (s : ReaderState) (r : α) (s' : ReaderState) : Prop :=
  ExceptT.run x s = (.ok r, s')

theorem gives_pure {r r' : α} : Gives (pure r) s r' s' ↔ r' = r ∧ s' = s := by
  change (Except.ok r, s) = (Except.ok r', s') ↔ _
  simp [eq_comm]

theorem not_gives_throw {e : ParseError} {r : α} : ¬ Gives (throw e) s r s' := by
  intro h
  cases congrArg Prod.fst h

theorem gives_bind {x : Reader α} {f : α → Reader β} {b : β} {s'' : ReaderState} :
    Gives (x >>= f) s b s'' ↔ ∃ a s', Gives x s a s' ∧ Gives (f a) s' b s'' := by
  unfold Gives
  rw [run_bind]
  rcases ExceptT.run x s with ⟨e | a, s'⟩
  · constructor
    · intro h
      cases congrArg Prod.fst h
    · rintro ⟨a, s₁, h, -⟩
      cases congrArg Prod.fst h
  · constructor
    · exact fun h => ⟨a, s', rfl, h⟩
    · rintro ⟨_, _, ⟨⟩, h⟩
      exact h

theorem gives_get {t : ReaderState} : Gives get s t s' ↔ t = s ∧ s' = s := by
  change (Except.ok s, s) = (Except.ok t, s') ↔ _
  simp [eq_comm]

theorem gives_modify {g : ReaderState → ReaderState} {u : PUnit} :
    Gives (modify g) s u s' ↔ s' = g s := by
  change (Except.ok PUnit.unit, g s) = (Except.ok u, s') ↔ _
  simp [eq_comm]

/-- Something has to stand in the input for the reader to go on. -/
theorem gives_unless_empty {e : ParseError} {x : Reader α} {r : α} :
    Gives (do
      if (← found) = .endOfInput then throw e
      x) s r s' ↔ (s.tokens ≠ [] ∨ s.stop ≠ none) ∧ Gives x s r s' := by
  unfold found
  simp only [gives_bind, gives_get]
  rcases htokens : s.tokens with _ | ⟨t, rest⟩
  · rcases hstop : s.stop with _ | u
    · simp [htokens, hstop, gives_pure, not_gives_throw]
    · simp [htokens, hstop, gives_pure]
  · simp [htokens, gives_pure]

theorem not_gives_expected {w : Wanted} {r : α} : ¬ Gives (expected w) s r s' := by
  unfold expected
  rw [gives_bind]
  rintro ⟨_, _, _, h⟩
  exact not_gives_throw h

theorem gives_accept {kind : TokenKind} {b : Bool} : Gives (accept kind) s b s' ↔
    (b = true ∧ ∃ t rest, s.tokens = t :: rest ∧ t.kind = kind ∧ s' = { s with tokens := rest }) ∨
    (b = false ∧ (∀ t rest, s.tokens = t :: rest → t.kind ≠ kind) ∧ s' = s) := by
  unfold accept
  simp only [gives_bind, gives_get]
  rcases htokens : s.tokens with _ | ⟨t, rest⟩
  · simp [htokens, gives_pure]
  · by_cases hkind : t.kind = kind
    · simp [htokens, hkind, gives_bind, gives_modify, gives_pure, -bind_pure_comp]
    · simp [htokens, hkind, gives_pure]

theorem gives_expect {kind : TokenKind} {u : Unit} :
    Gives (expect kind) s u s' ↔ Gives (accept kind) s true s' := by
  unfold expect
  rw [gives_bind]
  constructor
  · rintro ⟨b, s₁, haccept, h⟩
    cases b with
    | true => rwa [(gives_pure.mp h).2]
    | false => exact absurd h not_gives_expected
  · intro h
    exact ⟨true, s', h, gives_pure.mpr ⟨rfl, rfl⟩⟩

theorem gives_identifier {w : Wanted} : Gives (identifier w) s a s' ↔
    ∃ t rest, s.tokens = t :: rest ∧ t.kind = .ident ∧
      a = (Symbols.intern t.spelling s.symbols).1 ∧
      s' = { s with tokens := rest, symbols := (Symbols.intern t.spelling s.symbols).2 } := by
  have hintern (name : String) (s : ReaderState) : Gives (intern name) s a s' ↔
      a = (Symbols.intern name s.symbols).1 ∧
        s' = { s with symbols := (Symbols.intern name s.symbols).2 } := by
    change (Except.ok (Symbols.intern name s.symbols).1,
      { s with symbols := (Symbols.intern name s.symbols).2 }) = (Except.ok a, s') ↔ _
    rw [Prod.mk.injEq, Except.ok.injEq, eq_comm, eq_comm (b := s')]
  unfold identifier
  simp only [gives_bind, gives_get]
  rcases htokens : s.tokens with _ | ⟨t, rest⟩
  · simp [htokens, not_gives_expected]
  · by_cases hkind : t.kind = .ident
    · simp [htokens, hkind, gives_bind, gives_modify, hintern]
    · simp [htokens, hkind, not_gives_expected]

theorem gives_makeTerm_none {t : Term} : Gives (makeTerm scope a none) s t s' ↔
    (a ∈ scope ∧ t = .var a ∧ s' = s) ∨
    (a ∉ scope ∧ s.functions.lookup a = none ∧ t = .const a ∧
      s' = { s with constants := a :: s.constants }) := by
  unfold makeTerm
  by_cases hscope : a ∈ scope
  · simp [hscope, gives_pure]
  · by_cases hlookup : s.functions.lookup a = none
    · simp [hscope, hlookup, gives_bind, gives_get, gives_modify, gives_pure,
        -bind_pure_comp]
    · simp [hscope, hlookup, gives_bind, gives_get, not_gives_throw, Option.isSome_iff_ne_none]

theorem gives_makeTerm_some {args : List Term} {t : Term} :
    Gives (makeTerm scope a (some args)) s t s' ↔
      a ∉ scope ∧ a ∉ s.constants ∧ t = .app a args ∧
      (s.functions.lookup a = some args.length ∧ s' = s ∨
       s.functions.lookup a = none ∧
        s' = { s with functions := (a, args.length) :: s.functions }) := by
  unfold makeTerm
  by_cases hscope : a ∈ scope
  · simp [hscope, not_gives_throw]
  · by_cases hconst : a ∈ s.constants
    · simp [hscope, hconst, gives_bind, gives_get, not_gives_throw]
    · rcases hlookup : s.functions.lookup a with _ | arity
      · simp [hscope, hconst, hlookup, gives_bind, gives_get, gives_modify, gives_pure,
        -bind_pure_comp]
      · by_cases harity : args.length = arity
        · simp [hscope, hconst, hlookup, harity, gives_bind, gives_get, gives_pure]
        · simp [hscope, hconst, hlookup, harity, Ne.symm harity, gives_bind, gives_get,
            not_gives_throw]

theorem gives_makeRelation {args : Option (List Term)} {f : Formula} :
    Gives (makeRelation scope a args) s f s' ↔
      a ∉ scope ∧ f = .rel a (args.getD []) ∧
      (s.relations.lookup a = some (args.getD []).length ∧ s' = s ∨
       s.relations.lookup a = none ∧
        s' = { s with relations := (a, (args.getD []).length) :: s.relations }) := by
  unfold makeRelation
  by_cases hscope : a ∈ scope
  · simp [hscope, not_gives_throw]
  · rcases hlookup : s.relations.lookup a with _ | arity
    · simp [hscope, hlookup, gives_bind, gives_get, gives_modify, gives_pure,
        -bind_pure_comp]
    · by_cases harity : (args.getD []).length = arity
      · simp [hscope, hlookup, harity, gives_bind, gives_get, gives_pure]
      · simp [hscope, hlookup, harity, Ne.symm harity, gives_bind, gives_get, not_gives_throw]

theorem gives_done {atStop : UnknownChar → ParseError} {u : Unit} :
    Gives (done atStop) s u s' ↔ s.tokens = [] ∧ s.stop = none ∧ s' = s := by
  unfold done
  simp only [gives_bind, gives_get]
  rcases htokens : s.tokens with _ | ⟨t, rest⟩
  · rcases hstop : s.stop with _ | u
    · simp [htokens, hstop, gives_pure]
    · simp [htokens, hstop, not_gives_throw]
  · simp [htokens, gives_bind, not_gives_expected]

theorem run_eq_ok_iff {reader : Nat → Reader α} {text : String} {σ σ' : Symbols} {r : α} :
    run reader text σ = (.ok r, σ') ↔
      ∃ s, Gives (reader ((Token.scan text).tokens.length + 1)) (start (Token.scan text) σ) r s ∧
        s.symbols = σ' := by
  unfold run Gives
  dsimp only
  rcases ExceptT.run (reader ((Token.scan text).tokens.length + 1)) (start (Token.scan text) σ)
    with ⟨result, s⟩
  constructor
  · rintro ⟨⟩
    exact ⟨s, rfl, rfl⟩
  · rintro ⟨_, ⟨⟩, rfl⟩
    rfl

end Entailment.Reader

namespace Entailment.Formula

/-- A formula is given once the reader of formulas has used up a text that is not empty. -/
theorem parse_eq_ok_iff {text : String} {σ σ' : Symbols} {f : Formula} :
    parse text σ = (.ok f, σ') ↔
      ((Token.scan text).tokens ≠ [] ∨ (Token.scan text).stop ≠ none) ∧
      ∃ s, Reader.Gives (Reader.formula ((Token.scan text).tokens.length + 1) [])
          (Reader.start (Token.scan text) σ) f s ∧
        s.tokens = [] ∧ s.stop = none ∧ s.symbols = σ' := by
  refine Reader.run_eq_ok_iff.trans
    ((exists_congr fun s => and_congr_left fun _ => Reader.gives_unless_empty).trans ?_)
  simp only [Reader.gives_bind, Reader.gives_done, Reader.gives_pure]
  constructor
  · rintro ⟨_, ⟨hsome, f, s, hformula, _, _, ⟨htokens, hstop, rfl⟩, rfl, rfl⟩, hsymbols⟩
    exact ⟨hsome, _, hformula, htokens, hstop, hsymbols⟩
  · rintro ⟨hsome, s, hformula, htokens, hstop, hsymbols⟩
    exact ⟨s, ⟨hsome, f, s, hformula, (), s, ⟨htokens, hstop, rfl⟩, rfl, rfl⟩, hsymbols⟩

end Entailment.Formula
