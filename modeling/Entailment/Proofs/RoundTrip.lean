import Entailment.Proofs.Operand
import Entailment.Proofs.Signature

/-! Reading a formula undoes writing it: the rank of the next sign tells the reader where an
operand ends. -/
namespace Entailment

namespace Rank

/-- The next weaker rank, if there is one. -/
def succ : Rank → Rank
  | .not => .and
  | .and => .or
  | .or => .imp
  | .imp => .iff
  | .iff => .iff

theorem level_succ {p : Rank} (h : p ≠ .iff) : p.succ.level = p.level + 1 := by
  cases p with
  | not | and | or | imp => rfl
  | iff => exact absurd rfl h

theorem level_injective {p q : Rank} (h : q.level = p.level) : q = p := by
  cases p <;> cases q <;> first | rfl | cases h

theorem sign_injective {p q : Rank} (h : q.sign = p.sign) : q = p := by
  cases p <;> cases q <;> first | rfl | cases h

theorem le_of_not_le {p q : Rank} (h : ¬ p ≤ q) : q ≤ p :=
  Nat.le_of_lt (Nat.lt_of_not_le h)

theorem not_le (p : Rank) : .not ≤ p := Nat.zero_le p.level

theorem le_iff (p : Rank) : p ≤ .iff := by
  cases p <;> decide

end Rank

namespace Reader

variable {σ : Symbols} {F : Formula} {ls ms rest : List Lexeme} {l : Lexeme} {scope : List Symbol}
  {n : Nat}

/-! ## Connectives -/

/-- The reader of operands up to a rank. -/
def ranked (n : Nat) (scope : List Symbol) (p : Rank) : Reader Formula :=
  let negated := operand (formula n) scope n
  let conjunction := joinLeft .and .and negated n
  let disjunction := joinLeft .or .or conjunction n
  let implication := joinRight .imp .imp disjunction n
  match p with
  | .not => negated
  | .and => conjunction
  | .or => disjunction
  | .imp => implication
  | .iff => joinLeft .iff .iff implication n

theorem formula_succ (n : Nat) (scope : List Symbol) :
    formula (n + 1) scope = ranked n scope .iff := rfl

/-- Operands of a connective, the later ones each after its sign. -/
def Chained (σ : Symbols) (F : Formula) (kind : TokenKind) (item : Reader Formula)
    (fold : Formula → List Formula → Formula) (f : Formula) (ls rest : List Lexeme) : Prop :=
  ∃ g gs ms, f = fold g gs ∧ gs.length + rest.length ≤ ls.length ∧ Reads σ F item g ls ms ∧
    Items σ F kind item gs ms rest

/-- The parts of an operand of the rank can be read; what is left open is only whether more
parts follow. -/
def Assembles (σ : Symbols) (F : Formula) (n : Nat) (scope : List Symbol) :
    Rank → Formula → List Lexeme → List Lexeme → Prop
  | .not => fun f ls rest => ∃ ns g ms, f = ns.length.repeat .not g ∧
      ns.length + rest.length ≤ ls.length ∧ ls = ns ++ ms ∧ (∀ l ∈ ns, l.kind = .not) ∧
      (∀ l ∈ ms.head?, l.kind ≠ .not) ∧ Reads σ F (unsigned (formula n) scope n) g ms rest
  | .and => Chained σ F .and (ranked n scope .not) fun g gs => gs.foldl .and g
  | .or => Chained σ F .or (ranked n scope .and) fun g gs => gs.foldl .or g
  | .imp => Chained σ F .imp (ranked n scope .or) (foldRight .imp)
  | .iff => Chained σ F .iff (ranked n scope .imp) fun g gs => gs.foldl .iff g

variable {p q : Rank} {f g : Formula}

theorem Assembles.reads (h : Assembles σ F n scope p f ls rest)
    (hn : ls.length ≤ n + rest.length) (hend : ∀ l ∈ rest.head?, l.kind ≠ p.sign) :
    Reads σ F (ranked n scope p) f ls rest := by
  cases p with
  | not =>
    obtain ⟨ns, g, ms, rfl, hlength, rfl, hns, hms, hg⟩ := h
    change Reads σ F (operand (formula n) scope n) _ _ _
    rw [operand_eq]
    exact (reads_negations hns hms (by omega)).bind (hg.bind (reads_pure _))
  | and | or | imp | iff =>
    obtain ⟨g, gs, ms, rfl, hlength, hg, hgs⟩ := h
    exact hg.bind ((hgs.reads hend (by omega)).bind (reads_pure _))

theorem assembles_succ (hp : p ≠ .iff) (hlength : rest.length ≤ ls.length)
    (h : Reads σ F (ranked n scope p) f ls rest) : Assembles σ F n scope p.succ f ls rest := by
  have hlength' : ([] : List Formula).length + rest.length ≤ ls.length := by simpa using hlength
  cases p with
  | not | and | or | imp => exact ⟨f, [], rest, rfl, hlength', h, .nil⟩
  | iff => exact absurd rfl hp

/-- What may follow an operand: a closing bracket, or, unless it is the last one, the sign of
a connective that binds no tighter. -/
def Follows (p : Rank) (last : Bool) (rest : List Lexeme) : Prop :=
  ∀ l ∈ rest.head?, l.kind = .rparen ∨ last = false ∧ ∃ q, p ≤ q ∧ q ≠ .not ∧ l.kind = q.sign

section Follows

variable {last : Bool}

theorem Follows.mono (h : Follows q last rest) (hpq : p ≤ q) : Follows p last rest := by
  intro l hl
  rcases h l hl with hkind | ⟨hlast, r, hr, hkind⟩
  · exact .inl hkind
  · exact .inr ⟨hlast, r, hpq.trans hr, hkind⟩

theorem Follows.kind_ne (h : Follows p last rest) (hl : l ∈ rest.head?) {r : Rank} (hr : ¬ p ≤ r) :
    l.kind ≠ r.sign := by
  rcases h l hl with hkind | ⟨-, q, hq, -, hkind⟩
  · rw [hkind]
    cases r <;> decide
  · rw [hkind]
    intro hsign
    exact hr (Rank.sign_injective hsign ▸ hq)

theorem Follows.complete (h : Follows p last rest) : Complete rest := by
  intro l hl
  rcases h l hl with hkind | ⟨-, q, -, hq, hkind⟩
  · rw [hkind]
    decide
  · rw [hkind]
    revert hq
    cases q <;> decide

theorem follows_rparen (hl : l.kind = .rparen) : Follows p last (l :: ls) := by
  rintro l' ⟨⟩
  exact .inl hl

theorem follows_sign (hl : l.kind = q.sign) (hpq : p ≤ q) (hq : q ≠ .not) :
    Follows p false (l :: ls) := by
  rintro l' ⟨⟩
  exact .inr ⟨rfl, q, hpq, hq, hl⟩

/-- An operand of a rank is one of every weaker rank, if what follows is no sign between. -/
theorem Assembles.weaken (h : Assembles σ F n scope p f (ls ++ rest) rest) (hn : ls.length ≤ n)
    (hpq : p ≤ q) (hrest : Follows q last rest) : Assembles σ F n scope q f (ls ++ rest) rest := by
  have hlength : (ls ++ rest).length ≤ n + rest.length := by
    rw [List.length_append]
    omega
  obtain ⟨d, hd⟩ := Nat.exists_eq_add_of_le (show p.level ≤ q.level from hpq)
  induction d generalizing p with
  | zero => rwa [Rank.level_injective hd]
  | succ d ih =>
    have hnot : ¬ q ≤ p := fun hqp => by
      have : q.level ≤ p.level := hqp
      omega
    have hp : p ≠ .iff := by
      rintro rfl
      exact hnot (Rank.le_iff q)
    have hread := h.reads hlength fun l hl => hrest.kind_ne hl hnot
    have hsucc := Rank.level_succ hp
    exact ih (assembles_succ hp (by simp) hread) (show p.succ.level ≤ q.level by omega) (by omega)

/-- A formula that the reader takes as one unit. -/
theorem assembles_unsigned (h : Reads σ F (unsigned (formula n) scope n) f (l :: ls ++ rest) rest)
    (hl : l.kind ≠ .not) (hn : (l :: ls).length ≤ n) (hrest : Follows p last rest) :
    Assembles σ F n scope p f (l :: ls ++ rest) rest := by
  have hnot : Assembles σ F n scope .not f (l :: ls ++ rest) rest := by
    refine ⟨[], f, l :: ls ++ rest, rfl, by simp; omega, rfl, by simp, ?_, h⟩
    rintro l' ⟨⟩
    exact hl
  exact hnot.weaken hn (Rank.not_le p) hrest

/-- An equation or an inequation is one unit, and starts with the name at the head of its left
side. -/
theorem assembles_sides {l r : Term} {s : Lexeme}
    (h : Reads σ F (atomic scope n) f (l.lexemes σ ++ s :: (r.lexemes σ ++ rest)) rest)
    (hn : (l.lexemes σ ++ s :: r.lexemes σ).length ≤ n) (hrest : Follows p last rest) :
    Assembles σ F n scope p f (l.lexemes σ ++ s :: r.lexemes σ ++ rest) rest := by
  rw [← List.cons_append, ← List.append_assoc] at h
  rw [l.lexemes_eq, List.cons_append] at h hn ⊢
  exact assembles_unsigned (reads_unsigned_atomic h) TokenKind.noConfusion hn hrest

end Follows

section Joined

variable {s : Lexeme} {kind : TokenKind} {item : Reader Formula}
  {join : Formula → Formula → Formula}

/-- One more operand behind the others. -/
theorem Chained.concat
    (h : Chained σ F kind item (fun g gs => gs.foldl join g) f ls (s :: ms)) (hs : s.kind = kind)
    (hg : Reads σ F item g ms rest) (hlength : rest.length ≤ ms.length) :
    Chained σ F kind item (fun g gs => gs.foldl join g) (join f g) ls rest := by
  obtain ⟨f₀, gs, ms', rfl, hlength', hf₀, hgs⟩ := h
  refine ⟨f₀, gs ++ [g], ms', ?_, ?_, hf₀, hgs.append (.cons hs hg .nil)⟩
  · dsimp only
    rw [List.foldl_append, List.foldl_cons, List.foldl_nil]
  · simp only [List.length_append, List.length_cons, List.length_nil] at hlength' ⊢
    omega

/-- One more operand before the others. -/
theorem Chained.cons (h : Chained σ F kind item (foldRight join) g ms rest) (hs : s.kind = kind)
    (hf : Reads σ F item f ls (s :: ms)) (hlength : ms.length < ls.length) :
    Chained σ F kind item (foldRight join) (join f g) ls rest := by
  obtain ⟨g₀, gs, ms', rfl, hlength', hg₀, hgs⟩ := h
  refine ⟨f, g₀ :: gs, s :: ms, rfl, ?_, hf, .cons hs hg₀ hgs⟩
  rw [List.length_cons]
  omega

end Joined

/-- What can be read at a place: an operand before all that may follow it, and bound names
together with the formula below them. -/
def Readable (σ : Symbols) (F : Formula) : Place → Formula → List Lexeme → Prop
  | .operand p last => fun f ls => ∀ n scope rest, ls.length ≤ n →
      f.occurrences scope ⊆ F.occurrences [] → Follows p last rest →
      Assembles σ F n scope p f (ls ++ rest) rest
  | .binder q => fun f ls => ∀ m n scope rest, ls.length ≤ m → ls.length ≤ n →
      f.occurrences scope ⊆ F.occurrences [] → Follows .iff true rest →
      ∃ bs body ms, f = bs.foldr (fun b f => b.1 b.2 f) body ∧
        Reads σ F (binders q.form m) bs (ls ++ rest) ms ∧
        Reads σ F (formula n ((bs.map (·.2)).reverse ++ scope)) body ms rest

theorem Readable.operand {last : Bool} (h : Readable σ F (.operand p last) f ls)
    (hn : ls.length ≤ n) (hf : f.occurrences scope ⊆ F.occurrences []) (hrest : Follows p last rest)
    (hend : ∀ l ∈ rest.head?, l.kind ≠ p.sign) :
    Reads σ F (ranked n scope p) f (ls ++ rest) rest :=
  (h n scope rest hn hf hrest).reads (by rw [List.length_append]; omega) hend

/-- A whole formula, up to a bracket or the end. -/
theorem Readable.formula (h : Readable σ F (.operand .iff true) f ls) (hn : ls.length < n)
    (hf : f.occurrences scope ⊆ F.occurrences []) (hrest : Follows .iff true rest) :
    Reads σ F (formula n scope) f (ls ++ rest) rest := by
  obtain ⟨n, rfl⟩ : ∃ m, n = m + 1 := ⟨n - 1, by omega⟩
  rw [formula_succ]
  refine h.operand (Nat.le_of_lt_succ hn) hf hrest fun l hl => ?_
  rcases hrest l hl with hkind | ⟨hlast, -⟩
  · rw [hkind]
    decide
  · cases hlast

/-- A connective that groups to the left: its left operand may have its own rank, the right
one binds tighter. -/
theorem readable_left {k : Rank} {last : Bool} {s : Lexeme} {join : Formula → Formula → Formula}
    (hk : ∀ n scope, Assembles σ F n scope k =
      Chained σ F k.sign (ranked n scope q) fun g gs => gs.foldl join g)
    (hjoin : ∀ scope, (join f g).occurrences scope = f.occurrences scope ++ g.occurrences scope)
    (hkq : ¬ k ≤ q) (hp : k ≤ p) (hf : Readable σ F (.operand k false) f ls) (hs : s.kind = k.sign)
    (hg : Readable σ F (.operand q last) g ms) :
    Readable σ F (.operand p last) (join f g) (ls ++ s :: ms) := by
  intro n scope rest hn hfg hrest
  rw [hjoin] at hfg
  obtain ⟨hf', hg'⟩ := List.append_subset.mp hfg
  have hpq : ¬ p ≤ q := fun h => hkq (hp.trans h)
  have hqk : q ≤ p := Rank.le_of_not_le hpq
  have hnot : k ≠ .not := by
    rintro rfl
    exact hkq (Rank.not_le q)
  have hlength : ls.length ≤ n ∧ ms.length ≤ n := by
    rw [List.length_append, List.length_cons] at hn
    omega
  have hleft := hf n scope (s :: (ms ++ rest)) hlength.1 hf' (follows_sign hs le_rfl hnot)
  have hright := hg.operand hlength.2 hg' (hrest.mono hqk) fun l hl => hrest.kind_ne hl hpq
  have hboth : Assembles σ F n scope k (join f g) (ls ++ s :: ms ++ rest) rest := by
    rw [hk, List.append_assoc, List.cons_append]
    rw [hk] at hleft
    exact hleft.concat hs hright (by simp)
  exact hboth.weaken hn hp hrest

/-- Implication groups to the right: its left operand binds tighter. -/
theorem readable_right {last : Bool} {s : Lexeme} (hp : .imp ≤ p)
    (hf : Readable σ F (.operand .or false) f ls) (hs : s.kind = .imp)
    (hg : Readable σ F (.operand .imp last) g ms) :
    Readable σ F (.operand p last) (.imp f g) (ls ++ s :: ms) := by
  intro n scope rest hn hfg hrest
  obtain ⟨hf', hg'⟩ := List.append_subset.mp hfg
  have hlength : ls.length ≤ n ∧ ms.length ≤ n := by
    rw [List.length_append, List.length_cons] at hn
    omega
  have hnext : Follows .or false (s :: (ms ++ rest)) :=
    follows_sign (q := .imp) hs (by decide) (by decide)
  have hleft := hf.operand hlength.1 hf' hnext fun l hl => by cases hl; simp [hs, Rank.sign]
  have hright := hg n scope rest hlength.2 hg' (hrest.mono hp)
  have hboth : Assembles σ F n scope .imp (.imp f g) (ls ++ s :: ms ++ rest) rest := by
    rw [List.append_assoc, List.cons_append]
    refine Chained.cons hright hs hleft ?_
    simp only [List.length_append, List.length_cons]
    omega
  exact hboth.weaken hn hp hrest

theorem occurrences_form (q : Quantifier) (x : Symbol) (f : Formula) (scope : List Symbol) :
    (q.form x f).occurrences scope = ⟨x, .binder, scope⟩ :: f.occurrences (x :: scope) := by
  cases q <;> rfl

/-- Bound names start with a name. -/
theorem exists_name {q : Quantifier} (h : Formula.Renders σ (.binder q) f ls) :
    ∃ a ms, ls = .name a :: ms := by
  cases h with
  | body | same | change => exact ⟨_, _, rfl⟩

/-- One more bound name before others, after a comma and maybe a sign of their own. -/
theorem readable_binder (hF : F.WellFormed σ) {q q' : Quantifier} {x : Symbol} {s : Lexeme}
    {o : Option (Symbol → Formula → Formula)} (ho : o.getD q.form = q'.form)
    (hread : ∀ rest, Reads σ F quantifier o (ms ++ rest) (ls ++ rest))
    (hlength : ls.length ≤ ms.length) (hs : s.kind = .comma)
    (h : Readable σ F (.binder q') f ls) :
    Readable σ F (.binder q) (q.form x f) (.name (σ.name x) :: s :: ms) := by
  intro m n scope rest hm hn hf hrest
  rw [occurrences_form, List.cons_subset] at hf
  rw [List.length_cons, List.length_cons] at hm hn
  obtain ⟨m, rfl⟩ : ∃ k, m = k + 1 := ⟨m - 1, by omega⟩
  obtain ⟨bs, body, ms', rfl, hbs, hbody⟩ :=
    h m n (x :: scope) rest (by omega) (by omega) hf.2 hrest
  rw [← ho] at hbs
  have hcolon : ∀ l ∈ (s :: (ms ++ rest)).head?, l.kind ≠ .colon := by
    rintro l ⟨⟩
    simp [hs]
  refine ⟨(q.form, x) :: bs, body, ms', rfl, ?_, ?_⟩
  · exact (reads_identifier (knows_of_mem hF hf.1) _).bind ((reads_accept_false hcolon).bind
      ((reads_expect hs).bind ((hread rest).bind (hbs.bind (reads_pure _)))))
  · rw [List.map_cons, List.reverse_cons, List.append_assoc, List.singleton_append]
    exact hbody

theorem readable_of_renders (hF : F.WellFormed σ) {place : Place}
    (h : Formula.Renders σ place f ls) : Readable σ F place f ls := by
  induction h with
  | @rel p c r args =>
    intro n scope rest hn hf hrest
    have hn' : (Term.bracketed σ args).length ≤ n := Nat.le_of_succ_le hn
    exact assembles_unsigned (reads_unsigned_atomic (reads_relation hF hn' hf hrest.complete))
      TokenKind.noConfusion hn hrest
  | @eq p c l r s hs =>
    intro n scope rest hn hf hrest
    exact assembles_sides (reads_equation hF hs.1 hn hf hrest.complete) hn hrest
  | @ne p c l r s hs =>
    intro n scope rest hn hf hrest
    exact assembles_sides (reads_inequation hF hs.1 hn hf hrest.complete) hn hrest
  | @not p c f s ls hs _ ih =>
    intro n scope rest hn hf hrest
    obtain ⟨ns, g, ms, rfl, hlength, hls, hns, hms, hg⟩ :=
      ih n scope rest (Nat.le_of_succ_le hn) hf (hrest.mono (Rank.not_le p))
    -- A chain of negations is read in one loop, so this one joins those of the operand.
    have hnot : Assembles σ F n scope .not (.not (ns.length.repeat .not g)) (s :: ls ++ rest)
        rest := by
      refine ⟨s :: ns, g, ms, rfl, ?_, ?_, List.forall_mem_cons.mpr ⟨hs.1, hns⟩, hms, hg⟩
      · simp only [List.cons_append, List.length_cons]
        omega
      · rw [List.cons_append, hls, List.cons_append]
    exact hnot.weaken hn (Rank.not_le p) hrest
  | @brackets p c f s s' ls hs _ hs' ih =>
    intro n scope rest hn hf hrest
    have hshort : ls.length < n := by
      simp only [List.length_cons, List.length_append] at hn
      omega
    -- The closing bracket ends a formula of any rank.
    have hnext : Follows .iff true (s' :: rest) := follows_rparen hs'.1
    have hread := ih.formula hshort hf hnext
    refine assembles_unsigned ?_ (by simp [hs.1]) hn hrest
    rw [List.cons_append, List.append_assoc, List.singleton_append]
    exact reads_unsigned_brackets hs.1 hs'.1 hread
  | and hp _ hs _ ihf ihg =>
    exact readable_left (fun _ _ => rfl) (fun _ => rfl) (by decide) hp ihf hs.1 ihg
  | or hp _ hs _ ihf ihg =>
    exact readable_left (fun _ _ => rfl) (fun _ => rfl) (by decide) hp ihf hs.1 ihg
  | imp hp _ hs _ ihf ihg => exact readable_right hp ihf hs.1 ihg
  | iff hp _ hs _ ihf ihg =>
    exact readable_left (fun _ _ => rfl) (fun _ => rfl) (by decide) hp ihf hs.1 ihg
  | @quantified p f q s ls hs _ ih =>
    intro n scope rest hn hf hrest
    have hshort : ls.length ≤ n := Nat.le_of_succ_le hn
    -- Nothing but a bracket follows the last operand, whatever its rank.
    have hlast : Follows .iff true rest :=
      fun l hl => (hrest l hl).imp_right fun h => absurd h.1 (by decide)
    obtain ⟨bs, body, ms, rfl, hbs, hbody⟩ := ih n n scope rest hshort hshort hf hlast
    have hnot : s.kind ≠ .not := hs.kind_ne (by cases q <;> decide)
    exact assembles_unsigned (reads_unsigned_quantified hs.1 hbs hbody) hnot hn hrest
  | @body q x f s ls hs _ ih =>
    intro m n scope rest hm hn hf hrest
    rw [occurrences_form, List.cons_subset] at hf
    rw [List.length_cons, List.length_cons] at hm hn
    obtain ⟨m, rfl⟩ : ∃ k, m = k + 1 := ⟨m - 1, by omega⟩
    refine ⟨[(q.form, x)], f, ls ++ rest, rfl, ?_, ih.formula (by omega) hf.2 hrest⟩
    exact (reads_identifier (knows_of_mem hF hf.1) _).bind ((reads_accept hs.1).bind (reads_pure _))
  | same hs hf ih =>
    refine readable_binder hF (o := none) rfl (fun rest => reads_no_quantifier ?_) le_rfl hs.1 ih
    obtain ⟨a, ms, rfl⟩ := exists_name hf
    rintro l ⟨⟩
    exact ⟨TokenKind.noConfusion, TokenKind.noConfusion⟩
  | change hs hs' _ ih =>
    exact readable_binder hF rfl (fun rest => reads_quantifier hs'.1) (Nat.le_succ _) hs.1 ih

end Reader

namespace Formula

variable {σ : Symbols} {f : Formula} {ls : List Lexeme} {text : String}

/-- Reading a text that writes a well-formed formula gives this formula, and no new names:
whatever the signs it is spelled with, the brackets beyond those the ranks ask for, the blanks,
and the quantifiers merged into one. -/
theorem parse_of_renders (hf : f.WellFormed σ) (hls : Renders σ (.operand .iff true) f ls)
    (htext : Writes text.toList ls) : parse text σ = (.ok f, σ) := by
  have hneat := hls.neat hf.names
  obtain ⟨htokens, hstop⟩ := Token.scan_of_writes htext hneat.legal hneat.chain
  have hlength : ls.length < (Token.scan text).tokens.length + 1 := by
    rw [← htokens, List.length_map]
    exact Nat.lt_succ_self _
  have hstart : Reader.Ready σ f ls (Reader.start (Token.scan text) σ) :=
    ⟨rfl, htokens, hstop, by simp [Reader.start], by simp [Reader.start], by simp [Reader.start]⟩
  have hend : Reader.Follows .iff true [] := by simp [Reader.Follows]
  have hread := (Reader.readable_of_renders hf hls).formula hlength (List.Subset.refl _) hend
  rw [List.append_nil] at hread
  obtain ⟨s, hformula, hs⟩ := hread _ hstart
  obtain ⟨l, hl, -⟩ := hneat.opens
  have hsome : (Token.scan text).tokens ≠ [] := by
    intro hnil
    rw [← htokens, hnil] at hl
    cases hl
  exact parse_eq_ok_iff.mpr
    ⟨.inl hsome, s, hformula, List.map_eq_nil_iff.mp hs.tokens, hs.stop, hs.symbols⟩

/-- Every formula in brackets, and negation before an equation. -/
def bracketedText : String := "\\all x: (\\ex y: (((!(x = f(y))) & P(x)) -> Q))"

/-- The same formula without brackets, under other signs. -/
def mergedText : String := "/all x,?y: x!=f(y) &P(x)=>Q\t"

def mergedFormula : Formula :=
  .all ⟨0⟩ (.ex ⟨1⟩ (.imp (.and (.not (.eq (.var ⟨0⟩) (.app ⟨2⟩ [.var ⟨1⟩])))
    (.rel ⟨3⟩ [.var ⟨0⟩])) (.rel ⟨4⟩ [])))

theorem parse_of_renders_merged : parse mergedText (parse bracketedText .empty).2 =
    (.ok mergedFormula, (parse bracketedText .empty).2) :=
  parse_of_renders (wellFormed_of_parse (by decide +kernel))
    (.quantified (q := .all) (s := ⟨.all, ['/', 'a', 'l', 'l']⟩) (by decide)
      (.change (s := ⟨.comma, [',']⟩) (by decide)
        (show Lexeme.Spells ⟨.ex, ['?']⟩ Quantifier.ex.sign by decide)
        (.body (s := ⟨.colon, [':']⟩) (by decide)
          (.imp (s := ⟨.imp, ['=', '>']⟩) (by decide)
            (.and (s := ⟨.and, ['&']⟩) (by decide) (.ne (s := ⟨.ne, ['!', '=']⟩) (by decide))
              (by decide) .rel)
            (by decide) .rel))))
    (writes_of_checkWrites (by decide +kernel))

end Formula

end Entailment
