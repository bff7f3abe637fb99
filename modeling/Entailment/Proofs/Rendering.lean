import Entailment.Proofs.Lexeme

/-! The ways to write a formula. Brackets stand at least where the precedence of the
connectives needs them; the signs may have any of their spellings, and a row of quantifiers
may be merged. -/
namespace Entailment

namespace Lexeme

def lparen : Lexeme := ⟨.lparen, ['(']⟩

def rparen : Lexeme := ⟨.rparen, [')']⟩

def comma : Lexeme := ⟨.comma, [',']⟩

theorem spells_lparen : lparen.Spells .lparen := by decide

theorem spells_rparen : rparen.Spells .rparen := by decide

theorem spells_comma : comma.Spells .comma := by decide

end Lexeme

namespace Term

mutual

def lexemes (σ : Symbols) : Term → List Lexeme
  | .var x => [.name (σ.name x)]
  | .const c => [.name (σ.name c)]
  | .app f args => .name (σ.name f) :: bracketed σ args

/-- Arguments in brackets; there are no brackets without arguments. -/
def bracketed (σ : Symbols) : List Term → List Lexeme
  | [] => []
  | t :: ts => .lparen :: (t.lexemes σ ++ separated σ ts ++ [.rparen])

/-- Further arguments, each after a comma. -/
def separated (σ : Symbols) : List Term → List Lexeme
  | [] => []
  | t :: ts => .comma :: (t.lexemes σ ++ separated σ ts)

end

end Term

/-- The precedence of the connectives, the tightest first. -/
inductive Rank where
  | not | and | or | imp | iff
deriving DecidableEq

namespace Rank

def level : Rank → Nat
  | .not => 0
  | .and => 1
  | .or => 2
  | .imp => 3
  | .iff => 4

instance : Preorder Rank := Preorder.lift level

instance (p q : Rank) : Decidable (p ≤ q) := inferInstanceAs (Decidable (p.level ≤ q.level))

def sign : Rank → TokenKind
  | .not => .not
  | .and => .and
  | .or => .or
  | .imp => .imp
  | .iff => .iff

end Rank

inductive Quantifier where
  | all | ex
deriving DecidableEq

namespace Quantifier

def sign : Quantifier → TokenKind
  | .all => .all
  | .ex => .ex

def form : Quantifier → Symbol → Formula → Formula
  | .all => .all
  | .ex => .ex

end Quantifier

/-- Where a formula stands. -/
inductive Place where
  /-- An operand whose connectives outside of brackets have at most this rank. The last
  operand is followed by no connective before the next bracket closes. -/
  | operand (rank : Rank) (last : Bool)
  /-- Behind the sign of the quantifier that it starts with. -/
  | binder (q : Quantifier)

namespace Formula

/-- The lexemes write the formula. Conjunction, disjunction and equivalence group to the
left, implication to the right. A quantified formula takes in all that follows, so it stands
without brackets only as the last operand. -/
inductive Renders (σ : Symbols) : Place → Formula → List Lexeme → Prop
  | rel {p c r args} :
    Renders σ (.operand p c) (.rel r args) (.name (σ.name r) :: Term.bracketed σ args)
  | eq {p c l r s} (hs : s.Spells .eq) :
    Renders σ (.operand p c) (.eq l r) (l.lexemes σ ++ s :: r.lexemes σ)
  | ne {p c l r s} (hs : s.Spells .ne) :
    Renders σ (.operand p c) (.not (.eq l r)) (l.lexemes σ ++ s :: r.lexemes σ)
  | not {p c f s ls} (hs : s.Spells .not) (hf : Renders σ (.operand .not c) f ls) :
    Renders σ (.operand p c) (.not f) (s :: ls)
  | brackets {p c f s s' ls} (hs : s.Spells .lparen) (hf : Renders σ (.operand .iff true) f ls)
      (hs' : s'.Spells .rparen) :
    Renders σ (.operand p c) f (s :: (ls ++ [s']))
  | and {p c f g s ls ms} (hp : .and ≤ p) (hf : Renders σ (.operand .and false) f ls)
      (hs : s.Spells .and) (hg : Renders σ (.operand .not c) g ms) :
    Renders σ (.operand p c) (.and f g) (ls ++ s :: ms)
  | or {p c f g s ls ms} (hp : .or ≤ p) (hf : Renders σ (.operand .or false) f ls)
      (hs : s.Spells .or) (hg : Renders σ (.operand .and c) g ms) :
    Renders σ (.operand p c) (.or f g) (ls ++ s :: ms)
  | imp {p c f g s ls ms} (hp : .imp ≤ p) (hf : Renders σ (.operand .or false) f ls)
      (hs : s.Spells .imp) (hg : Renders σ (.operand .imp c) g ms) :
    Renders σ (.operand p c) (.imp f g) (ls ++ s :: ms)
  | iff {p c f g s ls ms} (hp : .iff ≤ p) (hf : Renders σ (.operand .iff false) f ls)
      (hs : s.Spells .iff) (hg : Renders σ (.operand .imp c) g ms) :
    Renders σ (.operand p c) (.iff f g) (ls ++ s :: ms)
  | quantified {p f q s ls} (hs : s.Spells q.sign) (hf : Renders σ (.binder q) f ls) :
    Renders σ (.operand p true) f (s :: ls)
  | body {q x f s ls} (hs : s.Spells .colon) (hf : Renders σ (.operand .iff true) f ls) :
    Renders σ (.binder q) (q.form x f) (.name (σ.name x) :: s :: ls)
  | same {q x f s ls} (hs : s.Spells .comma) (hf : Renders σ (.binder q) f ls) :
    Renders σ (.binder q) (q.form x f) (.name (σ.name x) :: s :: ls)
  | change {q q' x f s s' ls} (hs : s.Spells .comma) (hs' : s'.Spells q'.sign)
      (hf : Renders σ (.binder q') f ls) :
    Renders σ (.binder q) (q.form x f) (.name (σ.name x) :: s :: s' :: ls)

end Formula

/-! ## Neighbours -/

namespace Lexeme

/-- A sequence of lexemes that can be told apart, and that starts and ends like a formula. -/
structure Neat (ls : List Lexeme) : Prop where
  legal : ∀ l ∈ ls, l.Legal
  chain : ls.IsChain fun l l' => ¬ l.Clashes l'
  opens : ∃ l ∈ ls.head?, l.kind ≠ .eq ∧ l.kind ≠ .imp
  closes : ∃ l ∈ ls.getLast?, l.kind ≠ .not

namespace Neat

variable {l s : Lexeme} {ls ms : List Lexeme}

theorem singleton (h : l.Legal) (hopens : l.kind ≠ .eq ∧ l.kind ≠ .imp) (hcloses : l.kind ≠ .not) :
    Neat [l] where
  legal := List.forall_mem_singleton.mpr h
  chain := .singleton l
  opens := ⟨l, rfl, hopens⟩
  closes := ⟨l, rfl, hcloses⟩

/-- A sign before the sequence. -/
theorem cons (hs : s.Legal) (hident : s.kind ≠ .ident) (hopens : s.kind ≠ .eq ∧ s.kind ≠ .imp)
    (h : Neat ls) : Neat (s :: ls) where
  legal := List.forall_mem_cons.mpr ⟨hs, h.legal⟩
  chain := by
    obtain ⟨l, hl, heq, himp⟩ := h.opens
    refine h.chain.cons fun l' hl' => ?_
    cases Option.mem_unique hl hl'
    rintro (⟨hkind, -⟩ | ⟨-, hkind | hkind⟩)
    · exact hident hkind
    · exact heq hkind
    · exact himp hkind
  opens := ⟨s, rfl, hopens⟩
  closes := by
    obtain ⟨l, hl, hkind⟩ := h.closes
    exact ⟨l, by rw [List.getLast?_cons, hl]; rfl, hkind⟩

/-- Two sequences with a sign between them. -/
theorem join (h : Neat ls) (hs : s.Legal) (hident : s.kind ≠ .ident) (hnot : s.kind ≠ .not)
    (h' : Neat ms) : Neat (ls ++ s :: ms) where
  legal := List.forall_mem_append.mpr ⟨h.legal, List.forall_mem_cons.mpr ⟨hs, h'.legal⟩⟩
  chain := by
    refine h.chain.append (h'.chain.cons fun l _ => ?_) fun l hl l' hl' => ?_
    · rintro (⟨hkind, -⟩ | ⟨hkind, -⟩)
      · exact hident hkind
      · exact hnot hkind
    · obtain ⟨k, hk, hkind⟩ := h.closes
      cases Option.mem_unique hk hl
      cases hl'
      rintro (⟨-, hkind'⟩ | ⟨hkind', -⟩)
      · exact hident hkind'
      · exact hkind hkind'
  opens := by
    obtain ⟨l, hl, hkind⟩ := h.opens
    exact ⟨l, by rw [List.head?_append, hl]; rfl, hkind⟩
  closes := by
    obtain ⟨l, hl, hkind⟩ := h'.closes
    exact ⟨l, by rw [List.getLast?_append, List.getLast?_cons, hl]; rfl, hkind⟩

/-- A sign behind the sequence. -/
theorem concat (h : Neat ls) (hs : s.Legal) (hident : s.kind ≠ .ident) (hnot : s.kind ≠ .not) :
    Neat (ls ++ [s]) where
  legal := List.forall_mem_append.mpr ⟨h.legal, List.forall_mem_singleton.mpr hs⟩
  chain := by
    refine h.chain.append (.singleton s) fun l hl l' hl' => ?_
    obtain ⟨k, hk, hkind⟩ := h.closes
    cases Option.mem_unique hk hl
    cases hl'
    rintro (⟨-, hkind'⟩ | ⟨hkind', -⟩)
    · exact hident hkind'
    · exact hkind hkind'
  opens := by
    obtain ⟨l, hl, hkind⟩ := h.opens
    exact ⟨l, by rw [List.head?_append, hl]; rfl, hkind⟩
  closes := ⟨s, by simp, hnot⟩

theorem name {text : String} (h : Token.IsName text) : Neat [.name text] :=
  singleton (legal_name h) ⟨TokenKind.noConfusion, TokenKind.noConfusion⟩ TokenKind.noConfusion

end Neat

end Lexeme

open Lexeme (Neat)

variable {σ : Symbols}

theorem Term.neat_separated {ls : List Lexeme} (h : Neat ls) {ts : List Term}
    (hts : ∀ t ∈ ts, Neat (t.lexemes σ)) : Neat (ls ++ separated σ ts) := by
  induction ts generalizing ls with
  | nil => rwa [separated, List.append_nil]
  | cons t ts ih =>
    rw [List.forall_mem_cons] at hts
    rw [separated, ← List.cons_append, ← List.append_assoc]
    exact ih (h.join Lexeme.spells_comma.legal (by decide) (by decide) hts.1) hts.2

theorem Term.neat_bracketed {text : String} (h : Token.IsName text) {ts : List Term}
    (hts : ∀ t ∈ ts, Neat (t.lexemes σ)) : Neat (.name text :: bracketed σ ts) := by
  cases ts with
  | nil => exact .name h
  | cons t ts =>
    rw [List.forall_mem_cons] at hts
    exact (Neat.name h).join Lexeme.spells_lparen.legal (by decide) (by decide)
      ((neat_separated hts.1 hts.2).concat Lexeme.spells_rparen.legal (by decide) (by decide))

theorem Term.neat_lexemes {t : Term} (h : ∀ a ∈ t.symbols, Token.IsName (σ.name a)) :
    Neat (t.lexemes σ) := by
  induction t using rec_args with
  | var x => exact .name (h x (mem_symbols_var.mpr rfl))
  | const c => exact .name (h c (mem_symbols_const.mpr rfl))
  | app f args ih =>
    exact neat_bracketed (h f (mem_symbols_app.mpr (.inl rfl))) fun t ht =>
      ih t ht fun a ha => h a (mem_symbols_app.mpr (.inr ⟨t, ht, ha⟩))

theorem Quantifier.symbols_form (q : Quantifier) (x : Symbol) (f : Formula) :
    (q.form x f).symbols = x :: f.symbols := by
  cases q <;> rfl

theorem Quantifier.neat_sign {q : Quantifier} {s : Lexeme} (hs : s.Spells q.sign) {ls : List Lexeme}
    (h : Neat ls) : Neat (s :: ls) := by
  have hsign : q.sign ≠ .ident ∧ q.sign ≠ .eq ∧ q.sign ≠ .imp := by cases q <;> decide
  exact h.cons hs.legal (hs.kind_ne hsign.1) ⟨hs.kind_ne hsign.2.1, hs.kind_ne hsign.2.2⟩

theorem Formula.Renders.neat {p : Place} {f : Formula} {ls : List Lexeme} (h : Renders σ p f ls)
    (hf : ∀ a ∈ f.symbols, Token.IsName (σ.name a)) : Neat ls := by
  induction h with
  | @rel p c r args =>
    rw [symbols, List.forall_mem_cons] at hf
    exact Term.neat_bracketed hf.1 fun t ht => Term.neat_lexemes fun a ha =>
      hf.2 a (Term.mem_symbolsAll.mpr ⟨t, ht, ha⟩)
  | eq hs | ne hs =>
    have hsides := List.forall_mem_append.mp hf
    exact (Term.neat_lexemes hsides.1).join hs.legal (hs.kind_ne (by decide))
      (hs.kind_ne (by decide)) (Term.neat_lexemes hsides.2)
  | not hs _ ih =>
    exact (ih hf).cons hs.legal (hs.kind_ne (by decide))
      ⟨hs.kind_ne (by decide), hs.kind_ne (by decide)⟩
  | brackets hs _ hs' ih =>
    exact ((ih hf).concat hs'.legal (hs'.kind_ne (by decide)) (hs'.kind_ne (by decide))).cons
      hs.legal (hs.kind_ne (by decide)) ⟨hs.kind_ne (by decide), hs.kind_ne (by decide)⟩
  | and _ _ hs _ ihf ihg | or _ _ hs _ ihf ihg | imp _ _ hs _ ihf ihg | iff _ _ hs _ ihf ihg =>
    have hsides := List.forall_mem_append.mp hf
    exact (ihf hsides.1).join hs.legal (hs.kind_ne (by decide)) (hs.kind_ne (by decide))
      (ihg hsides.2)
  | quantified hs _ ih => exact Quantifier.neat_sign hs (ih hf)
  | body hs _ ih | same hs _ ih =>
    rw [Quantifier.symbols_form, List.forall_mem_cons] at hf
    exact (Neat.name hf.1).join hs.legal (hs.kind_ne (by decide)) (hs.kind_ne (by decide))
      (ih hf.2)
  | change hs hs' _ ih =>
    rw [Quantifier.symbols_form, List.forall_mem_cons] at hf
    exact (Neat.name hf.1).join hs.legal (hs.kind_ne (by decide)) (hs.kind_ne (by decide))
      (Quantifier.neat_sign hs' (ih hf.2))

end Entailment
