import Mathlib.Data.List.TakeWhile
import Entailment.Proofs.Occurrence
import Entailment.Proofs.Reading

/-! Formulas that the reader accepts are well formed. The tables of the reader hold every
use of a name that has been read, and what they hold never changes; so two uses of one name
cannot contradict each other, however far apart and in whatever order they were recorded. -/
namespace Entailment

namespace ReaderState

/-- The occurrence agrees with its scope and stands in the tables. -/
def Records (s : ReaderState) (o : Occurrence) : Prop :=
  s.symbols.Knows o.symbol ∧ Token.IsName (s.symbols.name o.symbol) ∧
    match o.role with
    | .binder => True
    | .variable => o.symbol ∈ o.scope
    | .constant => o.symbol ∉ o.scope ∧ o.symbol ∈ s.constants
    | .function n => o.symbol ∉ o.scope ∧ n ≠ 0 ∧ s.functions.lookup o.symbol = some n
    | .relation n => o.symbol ∉ o.scope ∧ s.relations.lookup o.symbol = some n

/-- The second state has come after the first: it keeps all that was recorded. -/
structure Extends (s s' : ReaderState) : Prop where
  symbols : s.symbols ≤ s'.symbols
  tokens : s'.tokens ⊆ s.tokens
  relations : ∀ a n, s.relations.lookup a = some n → s'.relations.lookup a = some n
  functions : ∀ a n, s.functions.lookup a = some n → s'.functions.lookup a = some n
  constants : s.constants ⊆ s'.constants

theorem Extends.refl (s : ReaderState) : s.Extends s :=
  ⟨le_refl _, List.Subset.refl _, fun _ _ h => h, fun _ _ h => h, List.Subset.refl _⟩

theorem Extends.trans {s s' s'' : ReaderState} (h : s.Extends s') (h' : s'.Extends s'') :
    s.Extends s'' where
  symbols := h.symbols.trans h'.symbols
  tokens := List.Subset.trans h'.tokens h.tokens
  relations := fun a n hn => h'.relations a n (h.relations a n hn)
  functions := fun a n hn => h'.functions a n (h.functions a n hn)
  constants := List.Subset.trans h.constants h'.constants

theorem Records.mono {s s' : ReaderState} {o : Occurrence} (h : s.Records o) (hle : s.Extends s') :
    s'.Records o := by
  obtain ⟨hknows, hname, hrole⟩ := h
  refine ⟨hknows.mono hle.symbols, ?_, ?_⟩
  · rwa [Symbols.name_eq_of_le hle.symbols hknows]
  · rcases o with ⟨a, _ | _ | _ | n | n, scope⟩
    · trivial
    · exact hrole
    · exact ⟨hrole.1, hle.constants hrole.2⟩
    · exact ⟨hrole.1, hrole.2.1, hle.functions a n hrole.2.2⟩
    · exact ⟨hrole.1, hle.relations a n hrole.2⟩

/-- The identifiers to come are names, and no constant is a function. -/
structure Sound (s : ReaderState) : Prop where
  names : ∀ t ∈ s.tokens, t.kind = .ident → Token.IsName t.spelling
  constants : ∀ a ∈ s.constants, s.functions.lookup a = none

end ReaderState

namespace Reader

open ReaderState (Records Extends Sound)

variable {α β : Type} {K L : Set Occurrence} {S : α → Set Occurrence} {T : β → Set Occurrence}
  {s s' : ReaderState}

/-- From a state that has recorded `K`, a result of the reader comes with a later state
that has recorded `S` of the result. -/
def Settles (K : Set Occurrence) (x : Reader α) (S : α → Set Occurrence) : Prop :=
  ∀ s r s', s.Sound → (∀ o ∈ K, s.Records o) → Gives x s r s' →
    s'.Sound ∧ s.Extends s' ∧ ∀ o ∈ S r, s'.Records o

theorem settles_pure {r : α} (h : S r ⊆ K) : Settles K (pure r) S := by
  intro s r' s' hs hK hgives
  obtain ⟨rfl, rfl⟩ := gives_pure.mp hgives
  exact ⟨hs, .refl _, fun o ho => hK o (h ho)⟩

theorem settles_expected (wanted : Wanted) : Settles K (expected wanted : Reader α) S :=
  fun _ _ _ _ _ hgives => absurd hgives not_gives_expected

/-- The second step may use that the first one has given its result. -/
theorem Settles.bind {x : Reader α} {f : α → Reader β} (hx : Settles K x S)
    (hf : ∀ r, (∃ s s', Gives x s r s') → Settles (K ∪ S r) (f r) T) : Settles K (x >>= f) T := by
  intro s b s'' hs hK hgives
  obtain ⟨r, s', hr, hb⟩ := gives_bind.mp hgives
  obtain ⟨hs', hle, hS⟩ := hx s r s' hs hK hr
  obtain ⟨hs'', hle', hT⟩ := hf r ⟨s, s', hr⟩ s' b s'' hs'
    (fun o ho => ho.elim (fun ho => (hK o ho).mono hle) (hS o)) hb
  exact ⟨hs'', hle.trans hle', hT⟩

theorem settles_ite {p : Prop} [Decidable p] {x y : Reader α} (hx : Settles K x S)
    (hy : Settles K y S) : Settles K (if p then x else y) S := by
  split
  · exact hx
  · exact hy

theorem settles_accept (kind : TokenKind) : Settles K (accept kind) fun _ => ∅ := by
  intro s b s' hs _ hgives
  rcases gives_accept.mp hgives with ⟨-, t, rest, htokens, -, rfl⟩ | ⟨-, -, rfl⟩
  · have hrest : rest ⊆ s.tokens := htokens ▸ List.subset_cons_self t rest
    exact ⟨⟨fun t ht => hs.names t (hrest ht), hs.constants⟩,
      ⟨le_refl _, hrest, fun _ _ h => h, fun _ _ h => h, List.Subset.refl _⟩, fun _ ho => ho.elim⟩
  · exact ⟨hs, .refl _, fun _ ho => ho.elim⟩

theorem settles_expect (kind : TokenKind) : Settles K (expect kind) fun _ => ∅ := by
  intro s u s' hs hK hgives
  exact settles_accept kind s true s' hs hK (gives_expect.mp hgives)

/-- The name is an identifier of the table. -/
def named (a : Symbol) : Set Occurrence := {o | o.symbol = a ∧ o.role = .binder}

theorem settles_identifier (wanted : Wanted) : Settles K (identifier wanted) named := by
  intro s a s' hs _ hgives
  obtain ⟨t, rest, htokens, hkind, rfl, rfl⟩ := gives_identifier.mp hgives
  have hrest : rest ⊆ s.tokens := htokens ▸ List.subset_cons_self t rest
  refine ⟨⟨fun t ht => hs.names t (hrest ht), hs.constants⟩,
    ⟨Symbols.le_intern _ _, hrest, fun _ _ h => h, fun _ _ h => h, List.Subset.refl _⟩, ?_⟩
  rintro ⟨a, role, scope⟩ ⟨rfl, rfl⟩
  refine ⟨Symbols.knows_intern _ _, ?_, trivial⟩
  rw [Symbols.name_intern]
  exact hs.names t (htokens ▸ List.mem_cons_self) hkind

/-! ## Terms -/

section Terms

variable {scope : List Symbol} {a : Symbol}

theorem settles_after {item : Reader α} (separator : TokenKind) (h : ∀ K, Settles K item S)
    (fuel : Nat) :
    Settles K (after separator item fuel) fun rs => {o | ∃ r ∈ rs, o ∈ S r} := by
  induction fuel generalizing K with
  | zero => exact settles_pure (by simp)
  | succ fuel ih =>
    refine (settles_accept separator).bind fun b _ => settles_ite ?_ (settles_pure (by simp))
    refine (h _).bind fun r _ => ih.bind fun rs _ => settles_pure ?_
    grind

/-- The uses of names in the arguments, if there are any. -/
def argumentUses (scope : List Symbol) (args : Option (List Term)) : Set Occurrence :=
  {o | ∃ t ∈ args.getD [], o ∈ t.occurrences scope}

theorem settles_arguments {term : Reader Term}
    (h : ∀ K, Settles K term fun t => {o | o ∈ t.occurrences scope}) (fuel : Nat) :
    Settles K (arguments term fuel) (argumentUses scope) := by
  refine (settles_accept .lparen).bind fun b _ => settles_ite ?_
    (settles_pure (by simp [argumentUses]))
  refine (h _).bind fun t _ => (settles_after .comma h fuel).bind fun ts _ =>
    (settles_expect .rparen).bind fun _ _ => settles_pure ?_
  grind [argumentUses]

theorem arguments_ne_nil {term : Reader Term} {fuel : Nat} {args : List Term}
    (h : Gives (arguments term fuel) s (some args) s') : args ≠ [] := by
  obtain ⟨b, s₁, -, h⟩ := gives_bind.mp h
  split at h
  · obtain ⟨t, _, -, h⟩ := gives_bind.mp h
    obtain ⟨ts, _, -, h⟩ := gives_bind.mp h
    obtain ⟨_, _, -, h⟩ := gives_bind.mp h
    cases (gives_pure.mp h).1
    exact List.cons_ne_nil t ts
  · cases (gives_pure.mp h).1

theorem settles_makeTerm {args : Option (List Term)} (ha : named a ⊆ K)
    (hargs : argumentUses scope args ⊆ K) (hne : ∀ ts, args = some ts → ts ≠ []) :
    Settles K (makeTerm scope a args) fun t => {o | o ∈ t.occurrences scope} := by
  intro s t s' hs hK hgives
  obtain ⟨hknows, hname, -⟩ := hK ⟨a, .binder, []⟩ (ha ⟨rfl, rfl⟩)
  cases args with
  | none =>
    rcases gives_makeTerm_none.mp hgives with ⟨hscope, rfl, rfl⟩ | ⟨hscope, hlookup, rfl, rfl⟩
    · refine ⟨hs, .refl _, fun o ho => ?_⟩
      obtain rfl := List.mem_singleton.mp ho
      exact ⟨hknows, hname, hscope⟩
    · refine ⟨⟨hs.names, List.forall_mem_cons.mpr ⟨hlookup, hs.constants⟩⟩,
        ⟨le_refl _, List.Subset.refl _, fun _ _ h => h, fun _ _ h => h,
          List.subset_cons_self _ _⟩, fun o ho => ?_⟩
      obtain rfl := List.mem_singleton.mp ho
      exact ⟨hknows, hname, hscope, List.mem_cons_self⟩
  | some ts =>
    obtain ⟨hscope, hconst, rfl, htable⟩ := gives_makeTerm_some.mp hgives
    have hlater : s'.Sound ∧ s.Extends s' ∧ s'.functions.lookup a = some ts.length := by
      rcases htable with ⟨hlookup, rfl⟩ | ⟨hlookup, rfl⟩
      · exact ⟨hs, .refl _, hlookup⟩
      · refine ⟨⟨hs.names, fun c hc => ?_⟩, ⟨le_refl _, List.Subset.refl _, fun _ _ h => h,
          fun b n hb => ?_, List.Subset.refl _⟩, ?_⟩
        · rw [Symbol.lookup_cons, if_neg (by rintro rfl; exact hconst hc)]
          exact hs.constants c hc
        · rw [Symbol.lookup_cons, if_neg (by rintro rfl; rw [hlookup] at hb; cases hb)]
          exact hb
        · rw [Symbol.lookup_cons, if_pos rfl]
    obtain ⟨hs', hle, hlookup⟩ := hlater
    refine ⟨hs', hle, fun o ho => ?_⟩
    rcases Term.mem_occurrences_app.mp ho with rfl | ho
    · exact ⟨hknows.mono hle.symbols, by rwa [Symbols.name_eq_of_le hle.symbols hknows], hscope,
        fun hlength => hne ts rfl (List.length_eq_zero_iff.mp hlength), hlookup⟩
    · exact (hK o (hargs ho)).mono hle

theorem settles_term (scope : List Symbol) (fuel : Nat) :
    Settles K (term scope fuel) fun t => {o | o ∈ t.occurrences scope} := by
  induction fuel generalizing K with
  | zero => exact settles_expected _
  | succ fuel ih =>
    refine (settles_identifier _).bind fun a _ =>
      (settles_arguments (fun _ => ih) fuel).bind fun args hargs => ?_
    refine settles_makeTerm (by grind) (by grind) ?_
    rintro ts rfl
    obtain ⟨_, _, hgives⟩ := hargs
    exact arguments_ne_nil hgives

end Terms

/-! ## Formulas -/

section Formulas

variable {scope : List Symbol} {a : Symbol}

theorem settles_makeRelation {args : Option (List Term)} (ha : named a ⊆ K)
    (hargs : argumentUses scope args ⊆ K) :
    Settles K (makeRelation scope a args) fun f => {o | o ∈ f.occurrences scope} := by
  intro s f s' hs hK hgives
  obtain ⟨hknows, hname, -⟩ := hK ⟨a, .binder, []⟩ (ha ⟨rfl, rfl⟩)
  obtain ⟨hscope, rfl, htable⟩ := gives_makeRelation.mp hgives
  have hlater : s'.Sound ∧ s.Extends s' ∧
      s'.relations.lookup a = some (args.getD []).length := by
    rcases htable with ⟨hlookup, rfl⟩ | ⟨hlookup, rfl⟩
    · exact ⟨hs, .refl _, hlookup⟩
    · refine ⟨⟨hs.names, hs.constants⟩, ⟨le_refl _, List.Subset.refl _, fun b n hb => ?_,
        fun _ _ h => h, List.Subset.refl _⟩, ?_⟩
      · rw [Symbol.lookup_cons, if_neg (by rintro rfl; rw [hlookup] at hb; cases hb)]
        exact hb
      · rw [Symbol.lookup_cons, if_pos rfl]
  obtain ⟨hs', hle, hlookup⟩ := hlater
  refine ⟨hs', hle, fun o ho => ?_⟩
  rcases List.mem_cons.mp ho with rfl | ho
  · exact ⟨hknows.mono hle.symbols, by rwa [Symbols.name_eq_of_le hle.symbols hknows], hscope,
      hlookup⟩
  · exact (hK o (hargs (Term.mem_occurrencesAll.mp ho))).mono hle

theorem settles_atomic (scope : List Symbol) (fuel : Nat) :
    Settles K (atomic scope fuel) fun f => {o | o ∈ f.occurrences scope} := by
  refine (settles_identifier _).bind fun a _ =>
    (settles_arguments (fun _ => settles_term scope fuel) fuel).bind fun args hargs => ?_
  have hne (ts : List Term) (h : args = some ts) : ts ≠ [] := by
    obtain ⟨_, _, hgives⟩ := hargs
    exact arguments_ne_nil (h ▸ hgives)
  have hmake (L : Set Occurrence) : Settles (K ∪ named a ∪ argumentUses scope args ∪ L)
      (makeTerm scope a args) fun t => {o | o ∈ t.occurrences scope} :=
    settles_makeTerm (by grind) (by grind) hne
  refine (settles_accept .eq).bind fun b _ => settles_ite ?_ ?_
  · refine (hmake _).bind fun l _ => (settles_term scope fuel).bind fun r _ => settles_pure ?_
    grind [Formula.occurrences]
  · refine (settles_accept .ne).bind fun b' _ => settles_ite ?_ ?_
    · rw [Set.union_assoc]
      refine (hmake _).bind fun l _ => (settles_term scope fuel).bind fun r _ => settles_pure ?_
      grind [Formula.occurrences]
    · exact settles_makeRelation (by grind) (by grind)

/-- The function is one of the two quantifiers. -/
def IsQuantifier (q : Symbol → Formula → Formula) : Prop := q = .all ∨ q = .ex

theorem IsQuantifier.occurrences {q : Symbol → Formula → Formula} (hq : IsQuantifier q)
    (scope : List Symbol) (x : Symbol) (f : Formula) :
    (q x f).occurrences scope = ⟨x, .binder, scope⟩ :: f.occurrences (x :: scope) := by
  rcases hq with rfl | rfl <;> rfl

theorem isQuantifier_of_quantifier {q : Symbol → Formula → Formula}
    (h : Gives quantifier s (some q) s') : IsQuantifier q := by
  obtain ⟨b, _, -, h⟩ := gives_bind.mp h
  split at h
  · cases (gives_pure.mp h).1
    exact .inl rfl
  · obtain ⟨b', _, -, h⟩ := gives_bind.mp h
    split at h
    · cases (gives_pure.mp h).1
      exact .inr rfl
    · cases (gives_pure.mp h).1

theorem settles_quantifier : Settles K quantifier fun _ => ∅ := by
  refine (settles_accept .all).bind fun b _ => settles_ite ?_ ?_
  · exact settles_pure (Set.empty_subset _)
  · refine (settles_accept .ex).bind fun b' _ => settles_ite ?_ ?_ <;>
      exact settles_pure (Set.empty_subset _)

theorem settles_binders (q : Symbol → Formula → Formula) (fuel : Nat) :
    Settles K (binders q fuel) fun bs => {o | ∃ b ∈ bs, o ∈ named b.2} := by
  induction fuel generalizing K q with
  | zero => exact settles_expected _
  | succ fuel ih =>
    refine (settles_identifier _).bind fun x _ => (settles_accept .colon).bind fun b _ =>
      settles_ite (settles_pure ?_) ((settles_expect .comma).bind fun _ _ =>
        settles_quantifier.bind fun q' _ => (ih _).bind fun bs _ => settles_pure ?_)
    · grind
    · grind

theorem isQuantifier_of_binders {q : Symbol → Formula → Formula} (hq : IsQuantifier q) {fuel : Nat}
    {bs : List ((Symbol → Formula → Formula) × Symbol)} (h : Gives (binders q fuel) s bs s') :
    ∀ b ∈ bs, IsQuantifier b.1 := by
  induction fuel generalizing q s s' bs with
  | zero => exact absurd h not_gives_expected
  | succ fuel ih =>
    obtain ⟨x, s₁, -, h⟩ := gives_bind.mp h
    obtain ⟨b, s₂, -, h⟩ := gives_bind.mp h
    split at h
    · obtain ⟨rfl, -⟩ := gives_pure.mp h
      simpa using hq
    · obtain ⟨_, s₃, -, h⟩ := gives_bind.mp h
      obtain ⟨q', s₄, hq', h⟩ := gives_bind.mp h
      obtain ⟨bs', s₅, hbs, h⟩ := gives_bind.mp h
      obtain ⟨rfl, -⟩ := gives_pure.mp h
      refine List.forall_mem_cons.mpr ⟨hq, ih ?_ hbs⟩
      cases q' with
      | none => exact hq
      | some q' => exact isQuantifier_of_quantifier hq'

/-- The first binder is the outermost one, so that it stands last in the scope of the body. -/
theorem mem_occurrences_foldr {bs : List ((Symbol → Formula → Formula) × Symbol)}
    (hbs : ∀ b ∈ bs, IsQuantifier b.1) {body : Formula} {o : Occurrence}
    (h : o ∈ (bs.foldr (fun b f => b.1 b.2 f) body).occurrences scope) :
    (∃ b ∈ bs, o ∈ named b.2) ∨ o ∈ body.occurrences ((bs.map (·.2)).reverse ++ scope) := by
  induction bs generalizing scope with
  | nil => exact .inr h
  | cons b bs ih =>
    rw [List.forall_mem_cons] at hbs
    rw [List.foldr_cons, hbs.1.occurrences, List.mem_cons] at h
    rcases h with rfl | h
    · exact .inl ⟨b, List.mem_cons_self, rfl, rfl⟩
    · rcases ih hbs.2 h with ⟨b', hb', ho⟩ | ho
      · exact .inl ⟨b', List.mem_cons_of_mem _ hb', ho⟩
      · exact .inr (by simpa using ho)

theorem settles_negations (fuel : Nat) : Settles K (negations fuel) fun _ => ∅ := by
  induction fuel generalizing K with
  | zero => exact settles_pure (Set.empty_subset _)
  | succ fuel ih =>
    refine (settles_accept .not).bind fun b _ => settles_ite (ih.bind fun n _ => ?_) ?_ <;>
      exact settles_pure (Set.empty_subset _)

theorem occurrences_repeat_not (n : Nat) (f : Formula) (scope : List Symbol) :
    (n.repeat .not f).occurrences scope = f.occurrences scope := by
  induction n with
  | zero => rfl
  | succ n ih => exact ih

theorem settles_operand {formula : List Symbol → Reader Formula}
    (h : ∀ K scope, Settles K (formula scope) fun f => {o | o ∈ f.occurrences scope})
    (scope : List Symbol) (fuel : Nat) :
    Settles K (operand formula scope fuel) fun f => {o | o ∈ f.occurrences scope} := by
  refine (settles_negations fuel).bind fun n _ => settles_quantifier.bind fun q hq => ?_
  have hnegate {L : Set Occurrence} {f : Formula} (hf : {o | o ∈ f.occurrences scope} ⊆ L) :
      Settles L (pure (n.repeat .not f)) fun f => {o | o ∈ f.occurrences scope} :=
    settles_pure (by rwa [occurrences_repeat_not])
  cases q with
  | some q =>
    refine (settles_binders q fuel).bind fun bs hbs => (h _ _).bind fun body _ =>
      hnegate fun o ho => ?_
    obtain ⟨_, _, hq⟩ := hq
    obtain ⟨_, _, hbs⟩ := hbs
    rcases mem_occurrences_foldr (isQuantifier_of_binders (isQuantifier_of_quantifier hq) hbs) ho
      with ho | ho
    · exact .inl (.inr ho)
    · exact .inr ho
  | none =>
    refine (settles_accept .lparen).bind fun b _ => settles_ite ?_ ?_
    · exact (h _ scope).bind fun f _ => (settles_expect .rparen).bind fun _ _ => hnegate (by grind)
    · exact (settles_atomic scope fuel).bind fun f _ => hnegate Set.subset_union_right

/-- The connective adds no occurrences of its own. -/
def JoinsOccurrences (join : Formula → Formula → Formula) : Prop :=
  ∀ f g scope, (join f g).occurrences scope = f.occurrences scope ++ g.occurrences scope

theorem settles_joinLeft {join : Formula → Formula → Formula} (hjoin : JoinsOccurrences join)
    {operand : Reader Formula} (h : ∀ K, Settles K operand fun f => {o | o ∈ f.occurrences scope})
    (kind : TokenKind) (fuel : Nat) :
    Settles K (joinLeft kind join operand fuel) fun f => {o | o ∈ f.occurrences scope} := by
  have hfold (gs : List Formula) (f : Formula) (o : Occurrence) :
      o ∈ (gs.foldl join f).occurrences scope ↔
        o ∈ f.occurrences scope ∨ ∃ g ∈ gs, o ∈ g.occurrences scope := by
    induction gs generalizing f with
    | nil => simp
    | cons g gs ih => simp [ih, hjoin f g, or_assoc]
  refine (h _).bind fun f _ => (settles_after kind h fuel).bind fun gs _ => settles_pure ?_
  grind

theorem settles_joinRight {join : Formula → Formula → Formula} (hjoin : JoinsOccurrences join)
    {operand : Reader Formula} (h : ∀ K, Settles K operand fun f => {o | o ∈ f.occurrences scope})
    (kind : TokenKind) (fuel : Nat) :
    Settles K (joinRight kind join operand fuel) fun f => {o | o ∈ f.occurrences scope} := by
  have hfold (gs : List Formula) (f : Formula) (o : Occurrence) :
      o ∈ (foldRight join f gs).occurrences scope ↔
        o ∈ f.occurrences scope ∨ ∃ g ∈ gs, o ∈ g.occurrences scope := by
    induction gs generalizing f with
    | nil => simp [foldRight]
    | cons g gs ih => simp [foldRight, ih, hjoin f]
  refine (h _).bind fun f _ => (settles_after kind h fuel).bind fun gs _ => settles_pure ?_
  grind

theorem settles_formula (fuel : Nat) (scope : List Symbol) :
    Settles K (formula fuel scope) fun f => {o | o ∈ f.occurrences scope} := by
  induction fuel generalizing K scope with
  | zero => exact settles_expected _
  | succ fuel ih =>
    have hjoins : JoinsOccurrences .and ∧ JoinsOccurrences .or ∧ JoinsOccurrences .imp ∧
        JoinsOccurrences .iff :=
      ⟨fun _ _ _ => rfl, fun _ _ _ => rfl, fun _ _ _ => rfl, fun _ _ _ => rfl⟩
    have hnegated (K : Set Occurrence) := @settles_operand K _ (fun _ scope => ih scope) scope fuel
    have hand (K : Set Occurrence) := @settles_joinLeft K _ _ hjoins.1 _ hnegated .and fuel
    have hor (K : Set Occurrence) := @settles_joinLeft K _ _ hjoins.2.1 _ hand .or fuel
    have himp (K : Set Occurrence) := @settles_joinRight K _ _ hjoins.2.2.1 _ hor .imp fuel
    exact settles_joinLeft hjoins.2.2.2 himp .iff fuel

end Formulas

end Reader

/-! ## Texts -/

namespace Token

theorem isName_of_first? {cs : List Char} {kind : TokenKind} {spelling : List Char}
    (h : first? cs = some (kind, spelling)) (hkind : kind = .ident) :
    IsName (String.ofList spelling) := by
  unfold first? at h
  split at h
  · rename_i hhead
    obtain ⟨-, rfl⟩ := Prod.mk.inj (Option.some.inj h)
    rcases cs with _ | ⟨c, cs⟩
    · cases hhead
    · have hc : isIdentChar c = true := hhead
      refine ⟨?_, fun d hd => ?_⟩
      · rw [List.takeWhile_cons_of_pos hc]
        intro hempty
        have hnil := congrArg String.toList hempty
        rw [String.toList_ofList] at hnil
        cases hnil
      · rw [String.toList_ofList] at hd
        exact List.mem_takeWhile_imp hd
  · obtain ⟨⟨sp, k⟩, hfind, heq⟩ := Option.map_eq_some_iff.mp h
    obtain ⟨rfl, -⟩ := Prod.mk.inj heq
    have hsigns : ∀ p ∈ spellings, p.2 ≠ .ident := by decide
    exact absurd hkind (hsigns _ (List.mem_of_find?_eq_some hfind))

theorem isName_of_mem_scanFrom {fuel pos : Nat} {cs : List Char} {t : Token}
    (ht : t ∈ (scanFrom fuel pos cs).tokens) (hkind : t.kind = .ident) : IsName t.spelling := by
  induction fuel generalizing pos cs with
  | zero => cases ht
  | succ fuel ih =>
    rw [scanFrom] at ht
    split at ht
    · cases ht
    · split at ht
      · cases ht
      · rename_i hfirst
        rcases List.mem_cons.mp ht with rfl | ht
        · exact isName_of_first? hfirst hkind
        · exact ih ht

end Token

namespace Formula

variable {text : String} {σ : Symbols} {f : Formula}

/-- What the tables hold together with the scopes makes a formula well formed. -/
theorem wellFormed_of_records {s : ReaderState} (hs : s.Sound)
    (h : ∀ o ∈ f.occurrences [], s.Records o) : f.WellFormed s.symbols := by
  have hrelation {a : Symbol} {n : Nat} (hu : f.Uses a (.relation n)) :
      s.relations.lookup a = some n := by
    obtain ⟨⟨a, role, scope⟩, ho, rfl, rfl⟩ := hu
    exact (h _ ho).2.2.2
  have hfunction {a : Symbol} {n : Nat} (hu : f.Uses a (.function n)) :
      n ≠ 0 ∧ s.functions.lookup a = some n := by
    obtain ⟨⟨a, role, scope⟩, ho, rfl, rfl⟩ := hu
    exact (h _ ho).2.2.2
  have hconstant {a : Symbol} (hu : f.Uses a .constant) : a ∈ s.constants := by
    obtain ⟨⟨a, role, scope⟩, ho, rfl, rfl⟩ := hu
    exact (h _ ho).2.2.2
  refine ⟨?_, ?_, ?_, ?_, ?_, ?_, ?_⟩
  · intro a ha
    obtain ⟨o, ho, rfl⟩ := (@mem_symbols_iff [] f a).mp ha
    exact (h o ho).1
  · intro a ha
    obtain ⟨o, ho, rfl⟩ := (@mem_symbols_iff [] f a).mp ha
    exact (h o ho).2.1
  · intro o ho hbinder
    have hrecord := (h o ho).2.2
    rcases o with ⟨a, _ | _ | _ | n | n, scope⟩
    · exact absurd rfl hbinder
    · exact iff_of_true rfl hrecord
    · exact iff_of_false (by simp) hrecord.1
    · exact iff_of_false (by simp) hrecord.1
    · exact iff_of_false (by simp) hrecord.1
  · exact fun a hu => (hfunction hu).1 rfl
  · intro a m n hm hn
    exact Option.some.inj ((hrelation hm).symm.trans (hrelation hn))
  · intro a m n hm hn
    exact Option.some.inj ((hfunction hm).2.symm.trans (hfunction hn).2)
  · intro a n hn hc
    have hnone := hs.constants a (hconstant hc)
    rw [(hfunction hn).2] at hnone
    cases hnone

theorem wellFormed_of_parse (h : (parse text σ).1 = .ok f) : f.WellFormed (parse text σ).2 := by
  obtain ⟨-, s, hgives, -, -, hsymbols⟩ := parse_eq_ok_iff.mp (Prod.ext h rfl)
  have hstart : (Reader.start (Token.scan text) σ).Sound :=
    ⟨fun t ht => Token.isName_of_mem_scanFrom ht, fun a ha => absurd ha List.not_mem_nil⟩
  obtain ⟨hs, -, hrecords⟩ := Reader.settles_formula (K := ∅) _ [] _ _ _ hstart
    (fun o ho => ho.elim) hgives
  have hwell := wellFormed_of_records hs hrecords
  rw [hsymbols] at hwell
  exact hwell

/-- A formula that was read is well formed: its variables are bound, its names are
identifiers, and relations, functions and constants keep apart. So no name of it starts with
a dollar sign, and the scope check never finds a free variable in it. -/
theorem closed_of_parse (h : (parse text σ).1 = .ok f) :
    f.WellFormed (parse text σ).2 ∧ f.freeVars = [] ∧
    (∀ a ∈ f.symbols, ∀ rest, (parse text σ).2.name a ≠ "$" ++ rest) ∧
    ∀ x, f.validate ≠ .error (.free x) := by
  have hwell := wellFormed_of_parse h
  refine ⟨hwell, hwell.freeVars, fun a ha rest hname => ?_, hwell.validate⟩
  have hdollar : '$' ∈ ((parse text σ).2.name a).toList := by
    rw [hname, String.toList_append]
    exact List.mem_append_left _ (by decide)
  exact absurd ((hwell.names a ha).2 '$' hdollar) (by decide)

/-- Below its quantifier `x` is a variable, elsewhere it is a constant, and `P` is a relation
and a constant. -/
def overloadedText : String := "(\\all x: P(x)) & P(f(x)) & f(P) != x"

def overloadedFormula : Formula :=
  .and (.and (.all ⟨0⟩ (.rel ⟨1⟩ [.var ⟨0⟩])) (.rel ⟨1⟩ [.app ⟨2⟩ [.const ⟨0⟩]]))
    (.not (.eq (.app ⟨2⟩ [.const ⟨1⟩]) (.const ⟨0⟩)))

theorem closed_of_parse_overloaded :
    overloadedFormula.WellFormed (parse overloadedText .empty).2 ∧
    overloadedFormula.freeVars = [] ∧
    (∀ a ∈ overloadedFormula.symbols, ∀ rest,
      (parse overloadedText .empty).2.name a ≠ "$" ++ rest) ∧
    ∀ x, overloadedFormula.validate ≠ .error (.free x) :=
  closed_of_parse (by decide +kernel)

end Formula

end Entailment
